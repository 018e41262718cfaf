/-
# The framebuffer console

The model of `drivers/framebuffer/efifb.c`. `con_setup` maps the framebuffer, which is refused
if it has more than 512 pages. What it has mapped is memory from address 0 on. A character is
drawn before the cursor moves, so that the cell at the cursor can reach over the edge of a
screen that is not made of whole cells.
-/

import Cyanea.Errno
import Cyanea.Framebuffer.Font
import Cyanea.Mm.Slots
import Cyanea.Uklib.Copying
import Cyanea.Word
import Mathlib.Data.List.Induction

namespace Cyanea.Framebuffer

open Mm (CachemodeToPte Fixmap cachemode2protval ioremapProt)
open Uklib (Store memset memcpy)

/-- What `con_setup` sets. -/
structure Screen where
  screen_width : ℕ
  screen_height : ℕ
  pitch : ℕ

/-- `struct screen_info`, as far as `con_setup` reads it. -/
structure ScreenInfo where
  screen_width : UInt64
  screen_height : UInt64
  pixels_per_scan_line : UInt32
  framebuffer : UInt64
  framebuffer_size : UInt64

/-- The geometry that `con_setup` takes over; a pixel has four bytes. -/
def ScreenInfo.screen (si : ScreenInfo) : Screen where
  screen_width := si.screen_width.toNat
  screen_height := si.screen_height.toNat
  pitch := si.pixels_per_scan_line.toNat * 4

/-- The cursor, the framebuffer, and the pixels that were plotted. -/
structure Tty where
  cursor_x : ℕ
  cursor_y : ℕ
  framebuffer : Store
  plotted : List (ℤ × ℤ)

structure Pixel where
  blue : UInt8
  green : UInt8
  red : UInt8
  reserved : UInt8

def PIXEL_WHITE : Pixel := ⟨255, 255, 255, 0⟩

def NEWLINE : UInt8 := code '\n'

/-- The characters that are written: those of the font, and the newline. -/
abbrev TtyChar : Type := {ch : UInt8 // Printable ch ∨ ch = NEWLINE}

def INT_MAX : ℕ := 0x7fffffff

section Code

variable (g : Screen)

/-- The offset of a pixel, whose coordinates are converted to `unsigned long`. -/
def pixelOffset (x y : ℤ) : ℕ := wordOfInt (y * g.pitch + x * 4)

def efifbPpixel (x y : ℤ) (pixel : Pixel) (t : Tty) : Tty :=
  let p := pixelOffset g x y
  { t with
    framebuffer := (((t.framebuffer.write p pixel.blue).write (p + 1) pixel.green).write (p + 2)
      pixel.red).write (p + 3) pixel.reserved
    plotted := t.plotted ++ [(x, y)] }

/-- A row of `efifb_draw_char`. -/
def drawRow (x y : ℤ) (ch : UInt8) (t : Tty) (char_y : ℕ) : Tty :=
  (List.range CHAR_WIDTH).foldl (fun t (char_x : ℕ) =>
    if fontCharPixel ch char_y char_x then
      efifbPpixel g (x + char_x) (y + char_y) PIXEL_WHITE t
    else t) t

def efifbDrawChar (x y : ℤ) (ch : UInt8) (t : Tty) : Tty :=
  (List.range CHAR_HEIGHT).foldl (drawRow g x y ch) t

def efifbScrollScreen (t : Tty) : Tty :=
  let size := sub64 g.screen_height CHAR_HEIGHT * g.pitch % 2 ^ 64
  let framebuffer := memcpy 0 (CHAR_HEIGHT * g.pitch) size t.framebuffer
  { t with
    framebuffer := memset size 0 (g.pitch * CHAR_HEIGHT) framebuffer
    cursor_y := sub64 t.cursor_y CHAR_HEIGHT }

/-- The cursor goes to the beginning of the next line. -/
def nextLine (t : Tty) : Tty :=
  let t := { t with cursor_x := 0, cursor_y := add64 t.cursor_y CHAR_HEIGHT }
  if g.screen_height ≤ t.cursor_y then efifbScrollScreen g t else t

def efifbPutChar (ch : UInt8) (t : Tty) : Tty :=
  if ch = NEWLINE then nextLine g t
  else
    let t := efifbDrawChar g (intOfWord t.cursor_x) (intOfWord t.cursor_y) ch t
    let t := { t with cursor_x := add64 t.cursor_x CHAR_WIDTH }
    if g.screen_width ≤ t.cursor_x then nextLine g t else t

/-- The loop of `con_write`; `none` if `i++` overflows. -/
def writeLoop : ℕ → List TtyChar → Tty → Option Tty
  | _, [], t => some t
  | i, ch :: s, t =>
    if i < INT_MAX then writeLoop (i + 1) s (efifbPutChar g ch.val t) else none

def conWrite (s : List TtyChar) (t : Tty) : Option Tty := writeLoop g 0 s t

/-- `efifb_clear_screen`. -/
def efifbClearScreen (t : Tty) : Tty :=
  { t with
    framebuffer := memset 0 0 (g.screen_height * g.pitch % 2 ^ 64) t.framebuffer
    cursor_x := 0
    cursor_y := 0 }

/-- The tty after these characters. -/
def after (t : Tty) (chars : List TtyChar) : Tty :=
  chars.foldl (fun t ch => efifbPutChar g ch.val t) t

/-- The tty after these calls of `con_write`. -/
def afterWrites (t : Tty) (calls : List (List TtyChar)) : Option Tty :=
  calls.foldlM (fun t s => conWrite g s t) t

end Code

section Setup

variable (si : ScreenInfo)

/-- The tty at boot, with what the framebuffer holds then. -/
def bootTty (mem : ℕ → UInt8) : Tty := ⟨0, 0, ⟨mem, []⟩, []⟩

/-- The ways in which `con_setup` does not return. -/
inductive Fault where
  | fixmap (fault : Mm.Fault)
  /-- A byte that it clears is not mapped to the framebuffer. -/
  | notMapped

/-- The bytes that are cleared are mapped to the framebuffer, from `framebuffer` on. -/
def MappedAt (fixmap : Fixmap) (framebuffer : ℕ) : Prop :=
  ∀ a < si.screen.screen_height * si.screen.pitch % 2 ^ 64,
    fixmap.translate (add64 framebuffer a) = some (si.framebuffer.toNat + a)

instance (fixmap : Fixmap) (framebuffer : ℕ) : Decidable (MappedAt si fixmap framebuffer) :=
  inferInstanceAs (Decidable (∀ a < _, _))

/-- `con_setup`, which is called with what the framebuffer holds at boot. -/
def conSetup (modes : CachemodeToPte) (mem : ℕ → UInt8) (fixmap : Fixmap) :
    Except Fault (ℤ × Tty × Fixmap) := do
  let (framebuffer, fixmap) ← (ioremapProt fixmap si.framebuffer.toNat si.framebuffer_size.toNat
    (Mm.PAGE_KERNEL ||| cachemode2protval modes .UC_MINUS)).mapError .fixmap
  if framebuffer = 0 then pure (-ENOMEM, bootTty mem, fixmap)
  else if MappedAt si fixmap framebuffer then
    pure (SUCCESS, efifbClearScreen si.screen (bootTty mem), fixmap)
  else throw .notMapped

end Setup

/-! ## What is asked for -/

section Asked

variable (g : Screen)

/-- The pixel is on the screen. -/
def OnScreen (p : ℤ × ℤ) : Prop :=
  0 ≤ p.1 ∧ p.1 < g.screen_width ∧ 0 ≤ p.2 ∧ p.2 < g.screen_height

/-- The pixels that were plotted are on the screen, no store went past it, and the cursor is
on it. -/
structure Inside (t : Tty) : Prop where
  plotted : ∀ p ∈ t.plotted, OnScreen g p
  stored : ∀ a ∈ t.framebuffer.log, a < g.screen_height * g.pitch
  cursor_x : t.cursor_x < g.screen_width
  cursor_y : t.cursor_y < g.screen_height

/-- The calls return, and after each character everything is inside of the screen. -/
structure StaysInside (t : Tty) (calls : List (List TtyChar)) : Prop where
  returns : ∃ t', afterWrites g t calls = some t'
  inside : ∀ chars, chars <+: calls.flatten → Inside g (after g t chars)

/-- The cells of a line; the last one can reach over the edge. -/
def Screen.cells : ℕ := (g.screen_width + (CHAR_WIDTH - 1)) / CHAR_WIDTH

/-- The lines of the screen; the last one can reach over the edge. -/
def Screen.lines : ℕ := (g.screen_height + (CHAR_HEIGHT - 1)) / CHAR_HEIGHT

/-- How many lines are finished by the last newline, and the length of the text behind it. A
text that fills a line finishes it as well. -/
def progress (chars : List TtyChar) : ℕ × ℕ :=
  chars.foldl (fun p ch =>
    if ch.val = NEWLINE then (p.1 + p.2 / g.cells + 1, 0) else (p.1, p.2 + 1)) (0, 0)

/-- How many lines are finished. -/
def finished (chars : List TtyChar) : ℕ := (progress g chars).1 + (progress g chars).2 / g.cells

/-- The column of pixels at which the next character begins. -/
def column (chars : List TtyChar) : ℕ := CHAR_WIDTH * ((progress g chars).2 % g.cells)

/-- The row of pixels at which it begins. The screen shows the last lines. -/
def row (chars : List TtyChar) : ℕ := CHAR_HEIGHT * min (finished g chars) (g.lines - 1)

/-- Behind this text no lit pixel of the character is in a column or row that the screen does
not have any more. -/
def Fits (chars : List TtyChar) (ch : UInt8) : Prop :=
  ∀ r < CHAR_HEIGHT, ∀ c < CHAR_WIDTH, fontCharPixel ch r c = true →
    column g chars + c < g.screen_width ∧ row g chars + r < g.screen_height

end Asked

/-! ## Loops that draw -/

section Folds

variable {ι : Type} {f : Tty → ι → Tty} {l : List ι} {t : Tty}

/-- What no turn changes is as before. -/
theorem foldl_keeps {β : Type} {obs : Tty → β} (h : ∀ t i, obs (f t i) = obs t) :
    obs (l.foldl f t) = obs t := by
  induction l generalizing t with
  | nil => rfl
  | cons i l ih => rw [List.foldl_cons, ih, h]

/-- What some turn adds, and none takes away. -/
theorem foldl_adds {P : Tty → Prop} {Q : ι → Prop}
    (h : ∀ i ∈ l, ∀ t, P (f t i) ↔ P t ∨ Q i) : P (l.foldl f t) ↔ P t ∨ ∃ i ∈ l, Q i := by
  induction l generalizing t with
  | nil => simp
  | cons i l ih =>
      rw [List.foldl_cons, ih fun i hi => h i (List.mem_cons_of_mem _ hi),
        h i List.mem_cons_self, or_assoc]
      simp only [List.mem_cons, exists_eq_or_imp]

end Folds

section Drawing

variable {g : Screen} {x y : ℤ} {ch : UInt8} {t : Tty}

/-- The pixels that drawing a character plots. -/
def Lit (ch : UInt8) (x y : ℤ) (p : ℤ × ℤ) : Prop :=
  ∃ r < CHAR_HEIGHT, ∃ c < CHAR_WIDTH, fontCharPixel ch r c = true ∧ p = (x + c, y + r)

theorem drawRow_keeps {β : Type} {obs : Tty → β}
    (h : ∀ x y pixel t, obs (efifbPpixel g x y pixel t) = obs t) (char_y : ℕ) :
    obs (drawRow g x y ch t char_y) = obs t := by
  refine foldl_keeps fun t char_x => ?_
  split
  · exact h _ _ _ t
  · rfl

theorem efifbDrawChar_keeps {β : Type} {obs : Tty → β}
    (h : ∀ x y pixel t, obs (efifbPpixel g x y pixel t) = obs t) :
    obs (efifbDrawChar g x y ch t) = obs t :=
  foldl_keeps fun _ => drawRow_keeps h

theorem efifbDrawChar_cursor_x : (efifbDrawChar g x y ch t).cursor_x = t.cursor_x :=
  efifbDrawChar_keeps fun _ _ _ _ => rfl

theorem efifbDrawChar_cursor_y : (efifbDrawChar g x y ch t).cursor_y = t.cursor_y :=
  efifbDrawChar_keeps fun _ _ _ _ => rfl

/-- What the lit pixels add, one after the other. -/
theorem efifbDrawChar_adds {P : Tty → Prop} {Q : ℤ × ℤ → Prop}
    (h : ∀ p, Lit ch x y p → ∀ t, P (efifbPpixel g p.1 p.2 PIXEL_WHITE t) ↔ P t ∨ Q p) :
    P (efifbDrawChar g x y ch t) ↔ P t ∨ ∃ p, Lit ch x y p ∧ Q p := by
  have hrow : ∀ r ∈ List.range CHAR_HEIGHT, ∀ t, P (drawRow g x y ch t r) ↔
      P t ∨ ∃ c < CHAR_WIDTH, fontCharPixel ch r c = true ∧ Q (x + (c : ℕ), y + (r : ℕ)) := by
    intro r hr t
    have hpixel : ∀ c ∈ List.range CHAR_WIDTH, ∀ t, P (if fontCharPixel ch r c then
          efifbPpixel g (x + (c : ℕ)) (y + r) PIXEL_WHITE t else t) ↔
        P t ∨ (fontCharPixel ch r c = true ∧ Q (x + (c : ℕ), y + r)) := by
      intro c hc t
      by_cases hlit : fontCharPixel ch r c = true
      · rw [if_pos hlit, and_iff_right hlit]
        exact h _ ⟨r, List.mem_range.mp hr, c, List.mem_range.mp hc, hlit, rfl⟩ t
      · rw [if_neg hlit, or_iff_left fun hq => hlit hq.1]
    refine (foldl_adds hpixel).trans (or_congr_right ?_)
    simp only [List.mem_range]
  refine (foldl_adds hrow).trans (or_congr_right ?_)
  simp only [List.mem_range]
  constructor
  · rintro ⟨r, hr, c, hc, hlit, hq⟩
    exact ⟨_, ⟨r, hr, c, hc, hlit, rfl⟩, hq⟩
  · rintro ⟨p, ⟨r, hr, c, hc, hlit, rfl⟩, hq⟩
    exact ⟨r, hr, c, hc, hlit, hq⟩

theorem mem_plotted_drawChar {p : ℤ × ℤ} :
    p ∈ (efifbDrawChar g x y ch t).plotted ↔ p ∈ t.plotted ∨ Lit ch x y p := by
  rw [efifbDrawChar_adds (P := fun t => p ∈ t.plotted) (Q := fun q => p = q)]
  · simp
  · intro q _ t
    rw [efifbPpixel, List.mem_append, List.mem_singleton]

theorem mem_log_drawChar {a : ℕ} : a ∈ (efifbDrawChar g x y ch t).framebuffer.log ↔
    a ∈ t.framebuffer.log ∨ ∃ p, Lit ch x y p ∧
      pixelOffset g p.1 p.2 ≤ a ∧ a < pixelOffset g p.1 p.2 + 4 := by
  rw [efifbDrawChar_adds (P := fun t => a ∈ t.framebuffer.log)
    (Q := fun p => pixelOffset g p.1 p.2 ≤ a ∧ a < pixelOffset g p.1 p.2 + 4)]
  intro q _ t
  simp only [efifbPpixel, Store.mem_log_write]
  generalize pixelOffset g q.1 q.2 = p
  have hbytes : (p ≤ a ∧ a < p + 4) ↔ (a = p + 3 ∨ a = p + 2 ∨ a = p + 1 ∨ a = p) := by omega
  rw [hbytes]
  tauto

end Drawing

/-! ## The cursor -/

section Cursor

variable {g : Screen} {chars : List TtyChar} {ch : TtyChar} {t : Tty}

/-- A screen with room for a character. -/
structure Screen.Roomy (g : Screen) : Prop where
  width : 8 ≤ g.screen_width
  height : 8 ≤ g.screen_height
  pitch : 4 * g.screen_width ≤ g.pitch

/-- A screen that the types of its driver can measure: a coordinate is an `int`, a size a
`size_t`. -/
structure Screen.Measurable (g : Screen) : Prop where
  width : g.screen_width ≤ 2 ^ 31
  height : g.screen_height ≤ 2 ^ 31
  size : g.screen_height * g.pitch < 2 ^ 64

/-- The cursor is where the text ends. -/
structure AtEnd (g : Screen) (chars : List TtyChar) (t : Tty) : Prop where
  cursor_x : t.cursor_x = column g chars
  cursor_y : t.cursor_y = row g chars

theorem column_lt (hg : g.Roomy) (chars : List TtyChar) : column g chars < g.screen_width := by
  have hwidth := hg.width
  have hcells : g.cells = (g.screen_width + 7) / 8 := rfl
  have hmod : (progress g chars).2 % g.cells < g.cells := Nat.mod_lt _ (by omega)
  rw [column, CHAR_WIDTH]
  omega

theorem row_lt (hg : g.Roomy) (chars : List TtyChar) : row g chars < g.screen_height := by
  have hheight := hg.height
  have hlines : g.lines = (g.screen_height + 7) / 8 := rfl
  rw [row, CHAR_HEIGHT]
  omega

theorem progress_concat (g : Screen) (chars : List TtyChar) (ch : TtyChar) :
    progress g (chars ++ [ch]) = if ch.val = NEWLINE then (finished g chars + 1, 0)
      else ((progress g chars).1, (progress g chars).2 + 1) := by
  rw [progress, List.foldl_append]
  rfl

/-- A newline finishes a line. -/
theorem finished_newline (hch : ch.val = NEWLINE) :
    finished g (chars ++ [ch]) = finished g chars + 1 ∧ column g (chars ++ [ch]) = 0 := by
  rw [finished, column, progress_concat, if_pos hch, Nat.zero_div, Nat.zero_mod]
  exact ⟨rfl, rfl⟩

/-- So does a character in the last cell. -/
theorem finished_full (hg : g.Roomy) (hch : ch.val ≠ NEWLINE)
    (hfull : g.screen_width ≤ column g chars + 8) :
    finished g (chars ++ [ch]) = finished g chars + 1 ∧ column g (chars ++ [ch]) = 0 := by
  have hwidth := hg.width
  have hcells : g.cells = (g.screen_width + 7) / 8 := rfl
  rw [column, CHAR_WIDTH] at hfull
  rw [finished, column, progress_concat, if_neg hch, finished]
  dsimp only
  generalize (progress g chars).2 = n at hfull ⊢
  have hmod : n % g.cells < g.cells := Nat.mod_lt _ (by omega)
  have hsucc : n + 1 = g.cells * (n / g.cells + 1) := by
    have hdiv := Nat.div_add_mod n g.cells
    rw [Nat.mul_succ]
    omega
  rw [hsucc, Nat.mul_div_cancel_left _ (by omega), Nat.mul_mod_right]
  exact ⟨(Nat.add_assoc _ _ _).symm, rfl⟩

/-- In the other cells it stays in the line. -/
theorem finished_room (hch : ch.val ≠ NEWLINE) (hroom : column g chars + 8 < g.screen_width) :
    finished g (chars ++ [ch]) = finished g chars ∧
      column g (chars ++ [ch]) = column g chars + 8 := by
  have hcells : g.cells = (g.screen_width + 7) / 8 := rfl
  rw [column, CHAR_WIDTH] at hroom
  rw [finished, column, progress_concat, if_neg hch, finished, column, CHAR_WIDTH]
  dsimp only
  generalize (progress g chars).2 = n at hroom ⊢
  have hlt : n % g.cells + 1 < g.cells := by omega
  have hsucc : n % g.cells + 1 + g.cells * (n / g.cells) = n + 1 := by
    have hdiv := Nat.div_add_mod n g.cells
    omega
  obtain ⟨hdiv, hmod⟩ := (Nat.div_mod_unique (show 0 < g.cells by omega)).mpr ⟨hsucc, hlt⟩
  rw [hdiv, hmod, Nat.mul_succ]
  exact ⟨rfl, rfl⟩

/-- Scrolling takes the cursor back to the line that it was in. -/
theorem nextLine_cursor (hmeasure : g.Measurable) (hy : t.cursor_y < g.screen_height) :
    (nextLine g t).cursor_x = 0 ∧ (nextLine g t).cursor_y =
      if g.screen_height ≤ t.cursor_y + 8 then t.cursor_y else t.cursor_y + 8 := by
  have hheight := hmeasure.height
  have hadd : add64 t.cursor_y 8 = t.cursor_y + 8 := add64_eq (by omega)
  have hsub : sub64 (t.cursor_y + 8) 8 = t.cursor_y := sub64_eq (by omega) (by omega)
  rw [nextLine]
  dsimp only
  rw [CHAR_HEIGHT, hadd]
  by_cases hscroll : g.screen_height ≤ t.cursor_y + 8
  · rw [if_pos hscroll, if_pos hscroll]
    exact ⟨rfl, hsub⟩
  · rw [if_neg hscroll, if_neg hscroll]
    exact ⟨rfl, rfl⟩

/-- A line that is finished takes the cursor to the end of the text. -/
theorem AtEnd.nextLine (hg : g.Roomy) (hmeasure : g.Measurable)
    (hy : t.cursor_y = row g chars)
    (h : finished g (chars ++ [ch]) = finished g chars + 1 ∧ column g (chars ++ [ch]) = 0) :
    AtEnd g (chars ++ [ch]) (nextLine g t) := by
  have hheight := hg.height
  have hlines : g.lines = (g.screen_height + 7) / 8 := rfl
  obtain ⟨hx', hy'⟩ := nextLine_cursor (t := t) hmeasure (hy ▸ row_lt hg chars)
  refine ⟨hx'.trans h.2.symm, ?_⟩
  rw [hy', row, h.1, hy, row, CHAR_HEIGHT]
  by_cases hscroll : g.screen_height ≤ 8 * min (finished g chars) (g.lines - 1) + 8
  · rw [if_pos hscroll]
    omega
  · rw [if_neg hscroll]
    omega

/-- The tty after the character has been drawn. -/
def drawn (g : Screen) (ch : UInt8) (t : Tty) : Tty :=
  { efifbDrawChar g (intOfWord t.cursor_x) (intOfWord t.cursor_y) ch t with
    cursor_x := add64 t.cursor_x CHAR_WIDTH }

theorem efifbPutChar_printable {ch : UInt8} (hch : ch ≠ NEWLINE) : efifbPutChar g ch t =
    if g.screen_width ≤ add64 t.cursor_x 8 then nextLine g (drawn g ch t) else drawn g ch t := by
  rw [efifbPutChar, if_neg hch]
  dsimp only
  rw [efifbDrawChar_cursor_x]
  rfl

theorem AtEnd.putChar (hg : g.Roomy) (hmeasure : g.Measurable) (h : AtEnd g chars t) :
    AtEnd g (chars ++ [ch]) (efifbPutChar g ch.val t) := by
  by_cases hch : ch.val = NEWLINE
  · rw [efifbPutChar, if_pos hch]
    exact .nextLine hg hmeasure h.cursor_y (finished_newline hch)
  · have hwidth := hmeasure.width
    have hlt := column_lt hg chars
    have hy : (drawn g ch.val t).cursor_y = row g chars :=
      efifbDrawChar_cursor_y.trans h.cursor_y
    have hadd : add64 t.cursor_x 8 = column g chars + 8 := by
      rw [h.cursor_x]
      exact add64_eq (by omega)
    rw [efifbPutChar_printable hch, hadd]
    by_cases hfull : g.screen_width ≤ column g chars + 8
    · rw [if_pos hfull]
      exact .nextLine hg hmeasure hy (finished_full hg hch hfull)
    · rw [if_neg hfull]
      obtain ⟨hline, hcolumn⟩ := finished_room hch (Nat.not_le.mp hfull)
      refine ⟨hadd.trans hcolumn.symm, hy.trans ?_⟩
      rw [row, row, hline]

end Cursor

/-! ## Pixels and stores -/

section Stores

variable {g : Screen} {chars : List TtyChar} {ch : UInt8} {t : Tty}

/-- The bytes of a pixel on the screen are in the framebuffer. -/
theorem pixelOffset_lt (hg : g.Roomy) {x y : ℤ} (h : OnScreen g (x, y)) :
    pixelOffset g x y + 4 ≤ g.screen_height * g.pitch := by
  obtain ⟨hx, hwidth, hy, hheight⟩ := h
  dsimp only at hx hwidth hy hheight
  obtain ⟨x, rfl⟩ := Int.eq_ofNat_of_zero_le hx
  obtain ⟨y, rfl⟩ := Int.eq_ofNat_of_zero_le hy
  have hpitch := hg.pitch
  have hline : (y + 1) * g.pitch ≤ g.screen_height * g.pitch :=
    Nat.mul_le_mul_right _ (by omega)
  have hle : pixelOffset g x y ≤ y * g.pitch + x * 4 := by
    have hcast : (y : ℤ) * g.pitch + x * 4 = ((y * g.pitch + x * 4 : ℕ) : ℤ) := by
      rw [Int.natCast_add, Int.natCast_mul, Int.natCast_mul]
      rfl
    rw [pixelOffset, hcast, wordOfInt]
    omega
  rw [Nat.add_mul, Nat.one_mul] at hline
  omega

theorem mem_log_scroll {a : ℕ} (hg : g.Roomy) (hmeasure : g.Measurable)
    (ha : a ∈ (efifbScrollScreen g t).framebuffer.log) :
    a ∈ t.framebuffer.log ∨ a < g.screen_height * g.pitch := by
  have hheight := hg.height
  have hlt := hmeasure.height
  have hrest : sub64 g.screen_height CHAR_HEIGHT = g.screen_height - 8 :=
    sub64_eq hheight (by omega)
  have hmul : (g.screen_height - 8) * g.pitch + g.pitch * 8 = g.screen_height * g.pitch := by
    rw [Nat.mul_comm g.pitch, ← Nat.add_mul, Nat.sub_add_cancel hheight]
  have hsize : (g.screen_height - 8) * g.pitch % 2 ^ 64 ≤ (g.screen_height - 8) * g.pitch :=
    Nat.mod_le _ _
  rw [efifbScrollScreen] at ha
  dsimp only at ha
  rw [Uklib.mem_log_memset, Uklib.mem_log_memcpy, hrest, CHAR_HEIGHT] at ha
  generalize (g.screen_height - 8) * g.pitch % 2 ^ 64 = size at ha hsize
  generalize (g.screen_height - 8) * g.pitch = rest at hmul hsize
  generalize g.screen_height * g.pitch = total at hmul ⊢
  obtain ha | ha | ha := ha
  · exact .inr (by omega)
  · exact .inr (by omega)
  · exact .inl ha

theorem mem_log_nextLine {a : ℕ} (hg : g.Roomy) (hmeasure : g.Measurable)
    (ha : a ∈ (nextLine g t).framebuffer.log) :
    a ∈ t.framebuffer.log ∨ a < g.screen_height * g.pitch := by
  rw [nextLine] at ha
  dsimp only at ha
  split at ha
  · exact mem_log_scroll hg hmeasure ha
  · exact .inl ha

theorem nextLine_plotted : (nextLine g t).plotted = t.plotted := by
  rw [nextLine]
  dsimp only
  split
  · rfl
  · rfl

/-- The lit pixels are on the screen exactly if the character fits. -/
theorem onScreen_iff_fits (hg : g.Roomy) (hmeasure : g.Measurable) (h : AtEnd g chars t) :
    (∀ p, Lit ch (intOfWord t.cursor_x) (intOfWord t.cursor_y) p → OnScreen g p) ↔
      Fits g chars ch := by
  have hwidth := hmeasure.width
  have hheight := hmeasure.height
  have hx : intOfWord t.cursor_x = column g chars := by
    have hlt := column_lt hg chars
    rw [h.cursor_x, intOfWord_eq (by omega)]
  have hy : intOfWord t.cursor_y = row g chars := by
    have hlt := row_lt hg chars
    rw [h.cursor_y, intOfWord_eq (by omega)]
  rw [hx, hy]
  constructor
  · intro hall r hr c hc hlit
    obtain ⟨-, hx1, -, hy1⟩ := hall _ ⟨r, hr, c, hc, hlit, rfl⟩
    exact ⟨Int.ofNat_lt.mp hx1, Int.ofNat_lt.mp hy1⟩
  · rintro hfits p ⟨r, hr, c, hc, hlit, rfl⟩
    obtain ⟨hx1, hy1⟩ := hfits r hr c hc hlit
    exact ⟨Int.natCast_nonneg (_ + c), Int.ofNat_lt.mpr hx1, Int.natCast_nonneg (_ + r),
      Int.ofNat_lt.mpr hy1⟩

end Stores

/-! ## Runs -/

section Runs

variable {g : Screen} {chars : List TtyChar} {ch : TtyChar} {t : Tty}

theorem mem_plotted_drawn {ch : UInt8} {p : ℤ × ℤ} : p ∈ (drawn g ch t).plotted ↔
    p ∈ t.plotted ∨ Lit ch (intOfWord t.cursor_x) (intOfWord t.cursor_y) p :=
  mem_plotted_drawChar

theorem mem_log_drawn {ch : UInt8} {a : ℕ} : a ∈ (drawn g ch t).framebuffer.log ↔
    a ∈ t.framebuffer.log ∨ ∃ p, Lit ch (intOfWord t.cursor_x) (intOfWord t.cursor_y) p ∧
      pixelOffset g p.1 p.2 ≤ a ∧ a < pixelOffset g p.1 p.2 + 4 :=
  mem_log_drawChar

/-- A character leaves everything inside exactly if it is a newline, or fits. -/
theorem inside_putChar_iff (hg : g.Roomy) (hmeasure : g.Measurable) (hend : AtEnd g chars t)
    (h : Inside g t) :
    Inside g (efifbPutChar g ch.val t) ↔ ch.val = NEWLINE ∨ Fits g chars ch.val := by
  have hnext : AtEnd g (chars ++ [ch]) (efifbPutChar g ch.val t) := hend.putChar hg hmeasure
  have hx : (efifbPutChar g ch.val t).cursor_x < g.screen_width :=
    hnext.cursor_x ▸ column_lt hg _
  have hy : (efifbPutChar g ch.val t).cursor_y < g.screen_height :=
    hnext.cursor_y ▸ row_lt hg _
  by_cases hch : ch.val = NEWLINE
  · refine iff_of_true ⟨?_, ?_, hx, hy⟩ (.inl hch)
    · rw [efifbPutChar, if_pos hch, nextLine_plotted]
      exact h.plotted
    · intro a ha
      rw [efifbPutChar, if_pos hch] at ha
      exact (mem_log_nextLine hg hmeasure ha).elim (h.stored a) id
  · rw [or_iff_right hch, ← onScreen_iff_fits hg hmeasure hend]
    have hplotted : (efifbPutChar g ch.val t).plotted = (drawn g ch.val t).plotted := by
      rw [efifbPutChar_printable hch]
      split
      · exact nextLine_plotted
      · rfl
    have hlog : ∀ a ∈ (efifbPutChar g ch.val t).framebuffer.log,
        a ∈ (drawn g ch.val t).framebuffer.log ∨ a < g.screen_height * g.pitch := by
      intro a ha
      rw [efifbPutChar_printable hch] at ha
      split at ha
      · exact mem_log_nextLine hg hmeasure ha
      · exact .inl ha
    constructor
    · intro hinside p hp
      refine hinside.plotted p ?_
      rw [hplotted]
      exact mem_plotted_drawn.mpr (.inr hp)
    · intro hlit
      refine ⟨fun p hp => ?_, fun a ha => ?_, hx, hy⟩
      · rw [hplotted] at hp
        exact (mem_plotted_drawn.mp hp).elim (h.plotted p) (hlit p)
      · obtain ha | ha := hlog a ha
        · obtain ha | ⟨p, hp, -, hend⟩ := mem_log_drawn.mp ha
          · exact h.stored a ha
          · exact Nat.lt_of_lt_of_le hend (pixelOffset_lt hg (hlit p hp))
        · exact ha

theorem after_concat (g : Screen) (t : Tty) (chars : List TtyChar) (ch : TtyChar) :
    after g t (chars ++ [ch]) = efifbPutChar g ch.val (after g t chars) := by
  rw [after, after, List.foldl_append, List.foldl_cons, List.foldl_nil]

/-- The tty with the screen cleared, as `con_setup` leaves it. -/
def cleared (g : Screen) (mem : ℕ → UInt8) : Tty := efifbClearScreen g (bootTty mem)

theorem atEnd_after (hg : g.Roomy) (hmeasure : g.Measurable) (mem : ℕ → UInt8)
    (chars : List TtyChar) : AtEnd g chars (after g (cleared g mem) chars) := by
  induction chars using List.reverseRecOn with
  | nil => exact ⟨by simp [column, progress, after, cleared, efifbClearScreen],
      by simp [row, finished, progress, after, cleared, efifbClearScreen]⟩
  | append_singleton chars ch ih =>
      rw [after_concat]
      exact ih.putChar hg hmeasure

theorem inside_cleared (hg : g.Roomy) (mem : ℕ → UInt8) : Inside g (cleared g mem) where
  plotted := by simp [cleared, bootTty, efifbClearScreen]
  stored a ha := by
    have hle := Nat.mod_le (g.screen_height * g.pitch) (2 ^ 64)
    have hmem := (Uklib.mem_log_memset 0).mp ha
    rw [Nat.zero_add] at hmem
    exact hmem.elim (fun h => Nat.lt_of_lt_of_le h.2 hle) fun h => absurd h List.not_mem_nil
  cursor_x := Nat.lt_of_lt_of_le (by decide : 0 < 8) hg.width
  cursor_y := Nat.lt_of_lt_of_le (by decide : 0 < 8) hg.height

/-- Everything is inside after each character exactly if each of them is a newline, or fits
where it is drawn. -/
theorem inside_after_iff (hg : g.Roomy) (hmeasure : g.Measurable) (mem : ℕ → UInt8)
    (text : List TtyChar) :
    (∀ chars, chars <+: text → Inside g (after g (cleared g mem) chars)) ↔
      ∀ chars ch, chars ++ [ch] <+: text → ch.val = NEWLINE ∨ Fits g chars ch.val := by
  constructor
  · intro hinside chars ch hprefix
    rw [← inside_putChar_iff hg hmeasure (atEnd_after hg hmeasure mem chars)
      (hinside chars ((List.prefix_append _ _).trans hprefix)), ← after_concat]
    exact hinside _ hprefix
  · intro hfits chars hprefix
    induction chars using List.reverseRecOn with
    | nil => exact inside_cleared hg mem
    | append_singleton chars ch ih =>
        rw [after_concat, inside_putChar_iff hg hmeasure (atEnd_after hg hmeasure mem chars)
          (ih ((List.prefix_append _ _).trans hprefix))]
        exact hfits chars ch hprefix

/-- A call returns if its characters can be counted by an `int`. -/
theorem writeLoop_eq (g : Screen) {i : ℕ} {s : List TtyChar} (hi : i ≤ INT_MAX) (t : Tty) :
    writeLoop g i s t =
      if i + s.length ≤ INT_MAX then some (s.foldl (fun t ch => efifbPutChar g ch.val t) t)
      else none := by
  induction s generalizing i t with
  | nil => exact (if_pos hi).symm
  | cons ch s ih =>
      rw [writeLoop, List.length_cons]
      by_cases hlt : i < INT_MAX
      · have hiff : i + 1 + s.length ≤ INT_MAX ↔ i + (s.length + 1) ≤ INT_MAX := by
          rw [Nat.add_assoc, Nat.add_comm 1]
        rw [if_pos hlt, ih hlt, if_congr hiff rfl rfl]
        rfl
      · have hlong : ¬ i + (s.length + 1) ≤ INT_MAX := by
          intro h
          exact hlt (Nat.lt_of_lt_of_le (Nat.lt_add_of_pos_right (Nat.succ_pos _)) h)
        rw [if_neg hlt, if_neg hlong]

theorem foldlM_conWrite (g : Screen) (calls : List (List TtyChar)) (t : Tty) :
    (∃ t', calls.foldlM (fun t s => conWrite g s t) t = some t') ↔
      ∀ s ∈ calls, s.length ≤ INT_MAX := by
  induction calls generalizing t with
  | nil => simp
  | cons s calls ih =>
      rw [List.foldlM_cons, conWrite, writeLoop_eq g (Nat.zero_le _), Nat.zero_add]
      by_cases hle : s.length ≤ INT_MAX
      · rw [if_pos hle]
        refine (ih _).trans ?_
        rw [List.forall_mem_cons, and_iff_right hle]
      · rw [if_neg hle, List.forall_mem_cons, iff_false_intro hle, false_and]
        exact iff_of_false (by rintro ⟨t', ⟨⟩⟩) id

end Runs

/-! ## Setting up -/

section Setup

variable {si : ScreenInfo} {modes : CachemodeToPte} {mem : ℕ → UInt8} {t : Tty}
  {fixmap fixmap' : Fixmap}

/-- If `con_setup` succeeds, it has cleared the screen, which is mapped. -/
theorem conSetup_success (h : conSetup si modes mem fixmap = .ok (SUCCESS, t, fixmap')) :
    t = cleared si.screen mem ∧ ∃ framebuffer, MappedAt si fixmap' framebuffer := by
  rw [conSetup] at h
  generalize ioremapProt fixmap _ _ _ = mapped at h
  cases mapped with
  | error fault => exact absurd h nofun
  | ok p =>
      obtain ⟨framebuffer, fixmap₁⟩ := p
      change (if framebuffer = 0 then _ else if MappedAt si fixmap₁ framebuffer then _ else _) =
        _ at h
      split at h
      · have hresult : -ENOMEM = SUCCESS := congrArg Prod.fst (Except.ok.inj h)
        exact absurd hresult (by decide)
      · split at h
        · rename_i hmapped
          cases h
          exact ⟨rfl, framebuffer, hmapped⟩
        · exact absurd h nofun

/-- What is mapped lies in the 2 MiB of one page table. -/
theorem MappedAt.size_le {framebuffer : ℕ} (h : MappedAt si fixmap framebuffer) :
    si.screen.screen_height * si.screen.pitch % 2 ^ 64 ≤ 2 ^ 21 := by
  have hwindow : ∀ a < si.screen.screen_height * si.screen.pitch % 2 ^ 64,
      add64 framebuffer a / 2 ^ 21 = 2 ^ 43 - 2 := by
    intro a ha
    by_contra hne
    have hmapped := h a ha
    rw [Fixmap.translate, if_neg hne] at hmapped
    cases hmapped
  by_contra hlarge
  have hfirst := hwindow 0 (by omega)
  have hlast := hwindow (2 ^ 21) (by omega)
  rw [add64] at hfirst hlast
  omega

/-- A screen in a framebuffer that could be mapped is small. -/
theorem measurable_of_setup (hg : si.screen.Roomy)
    (hsize : si.screen.screen_height * si.screen.pitch ≤ si.framebuffer_size.toNat)
    (h : conSetup si modes mem fixmap = .ok (SUCCESS, t, fixmap')) : si.screen.Measurable := by
  obtain ⟨-, framebuffer, hmapped⟩ := conSetup_success h
  have hle := hmapped.size_le
  have hword := UInt64.toNat_lt si.framebuffer_size
  have hwidth := hg.width
  have hheight := hg.height
  have hpitch := hg.pitch
  have hlt : si.screen.screen_height * si.screen.pitch < 2 ^ 64 := by omega
  rw [Nat.mod_eq_of_lt hlt] at hle
  have hline : 1 * si.screen.pitch ≤ si.screen.screen_height * si.screen.pitch :=
    Nat.mul_le_mul_right _ (by omega)
  have hcolumn : si.screen.screen_height * 1 ≤ si.screen.screen_height * si.screen.pitch :=
    Nat.mul_le_mul_left _ (by omega)
  exact ⟨by omega, by omega, hlt⟩

theorem maps_UC_MINUS (modes : CachemodeToPte) :
    Mm.Maps (Mm.PAGE_KERNEL ||| cachemode2protval modes .UC_MINUS) := by
  have hall : ∀ i : Fin 8, Mm.Maps (Mm.PAGE_KERNEL ||| Mm.idxPat2pte i) := by decide
  exact hall (modes .UC_MINUS)

/-- At boot a framebuffer that holds the screen can be set up if it has at most 512 pages. -/
theorem conSetup_start (modes : CachemodeToPte) (mem : ℕ → UInt8)
    (hphys : si.framebuffer.toNat + si.framebuffer_size.toNat ≤ 2 ^ 52)
    (hpages : Mm.pageCount si.framebuffer.toNat si.framebuffer_size.toNat ≤ 512)
    (hpos : 0 < si.framebuffer_size.toNat)
    (hsize : si.screen.screen_height * si.screen.pitch ≤ si.framebuffer_size.toNat) :
    ∃ fixmap, conSetup si modes mem .start = .ok (SUCCESS, cleared si.screen mem, fixmap) := by
  have hrun := Mm.ioremapProt_start (Mm.PAGE_KERNEL ||| cachemode2protval modes .UC_MINUS)
    hpos.ne' hphys hpages
  generalize hfixmap : Fixmap.start.mapped 0 si.framebuffer.toNat si.framebuffer_size.toNat
    (Mm.PAGE_KERNEL ||| cachemode2protval modes .UC_MINUS) = fixmap at hrun
  have hmapped : MappedAt si fixmap (Mm.pageOf 0 + si.framebuffer.toNat % 2 ^ 12) := by
    intro a ha
    have hlt := UInt64.toNat_lt si.framebuffer_size
    rw [Nat.mod_eq_of_lt (by omega)] at ha
    have hcount : Mm.pageCount si.framebuffer.toNat si.framebuffer_size.toNat =
      (si.framebuffer.toNat + si.framebuffer_size.toNat + (2 ^ 12 - 1)) / 2 ^ 12 -
        si.framebuffer.toNat / 2 ^ 12 := if_neg (by omega)
    rw [add64_eq (by rw [Mm.pageOf]; omega)]
    refine Mm.translate_range (maps_UC_MINUS modes) (by omega) hphys (fun j hj => ?_)
      (ha.trans_le hsize)
    rw [← hfixmap]
    exact Fixmap.mapped_inside _ _ _ hj
  refine ⟨fixmap, ?_⟩
  rw [conSetup, hrun]
  change (if _ = 0 then _ else if _ then _ else _) = _
  rw [if_neg (by rw [Mm.pageOf]; omega), if_pos hmapped]
  rfl

/-- One with more pages is refused. -/
theorem conSetup_refused (modes : CachemodeToPte) (mem : ℕ → UInt8) (fixmap : Fixmap)
    (hpos : 0 < si.framebuffer_size.toNat)
    (hpages : 512 < Mm.narrowed si.framebuffer.toNat si.framebuffer_size.toNat) :
    conSetup si modes mem fixmap = .ok (-ENOMEM, bootTty mem, fixmap) := by
  rw [conSetup, Mm.ioremapProt_run (UInt64.toNat_lt _) (UInt64.toNat_lt _) hpos.ne', if_pos hpages]
  rfl

/-- A screen of 1366 by 768 pixels needs 1025 pages. -/
example : conSetup ⟨1366, 768, 1366, 0x80000000, 0x401000⟩ modes mem fixmap =
    .ok (-ENOMEM, bootTty mem, fixmap) :=
  conSetup_refused modes mem fixmap (by decide) (by decide)

end Setup

/-- Behind a `con_setup` that succeeds, writing stays inside of the screen exactly if no call
has more characters than an `int` can count, and every printable character fits where the text
before it ends. -/
theorem screen_staysInside_iff {si : ScreenInfo} {modes : CachemodeToPte} {mem : ℕ → UInt8}
    {fixmap fixmap' : Fixmap} {t : Tty} (hwidth : 8 ≤ si.screen.screen_width)
    (hheight : 8 ≤ si.screen.screen_height) (hpitch : 4 * si.screen.screen_width ≤ si.screen.pitch)
    (hsize : si.screen.screen_height * si.screen.pitch ≤ si.framebuffer_size.toNat)
    (hsetup : conSetup si modes mem fixmap = .ok (SUCCESS, t, fixmap'))
    (calls : List (List TtyChar)) :
    StaysInside si.screen t calls ↔ (∀ s ∈ calls, s.length ≤ INT_MAX) ∧
      ∀ chars ch, chars ++ [ch] <+: calls.flatten →
        ch.val = NEWLINE ∨ Fits si.screen chars ch.val := by
  have hg : si.screen.Roomy := ⟨hwidth, hheight, hpitch⟩
  have hmeasure := measurable_of_setup hg hsize hsetup
  obtain ⟨rfl, -⟩ := conSetup_success hsetup
  rw [← inside_after_iff hg hmeasure mem, ← foldlM_conWrite si.screen calls]
  exact ⟨fun h => ⟨h.returns, h.inside⟩, fun h => ⟨h.1, h.2⟩⟩

/-- An exclamation mark: its columns 3 and 4 are lit. -/
def mark : TtyChar := ⟨0x21, .inl (by decide)⟩

/-- A screen of two characters. -/
def twoCells : ScreenInfo := ⟨16, 8, 16, 0x80000000, 0x1000⟩

/-- A screen of one and a half. -/
def halfCell : ScreenInfo := ⟨12, 8, 12, 0x80000000, 0x1000⟩

/-- At boot a screen that fits into the page at 2 GiB can be set up. -/
theorem conSetup_onePage (si : ScreenInfo) (mem : ℕ → UInt8)
    (hbase : si.framebuffer = 0x80000000) (hframe : si.framebuffer_size = 0x1000)
    (hsize : si.screen.screen_height * si.screen.pitch ≤ 0x1000) :
    ∃ fixmap, conSetup si (fun _ => 0) mem .start =
      .ok (SUCCESS, cleared si.screen mem, fixmap) := by
  apply conSetup_start <;> rw [hframe]
  · rw [hbase]
    decide
  · rw [hbase]
    decide
  · decide
  · exact hsize

theorem staysInside_iff_twoCells :
    StaysInside twoCells.screen (cleared twoCells.screen fun _ => 0) [[mark, mark]] ↔
      (∀ s ∈ [[mark, mark]], s.length ≤ INT_MAX) ∧
        ∀ chars ch, chars ++ [ch] <+: [[mark, mark]].flatten →
          ch.val = NEWLINE ∨ Fits twoCells.screen chars ch.val := by
  obtain ⟨fixmap, hsetup⟩ := conSetup_onePage twoCells (fun _ => 0) rfl rfl (by decide)
  exact screen_staysInside_iff (by decide) (by decide) (by decide) (by decide) hsetup _

/-- The second mark reaches over the edge. -/
theorem not_staysInside_halfCell : ∃ t fixmap,
    conSetup halfCell (fun _ => 0) (fun _ => 0) .start = .ok (SUCCESS, t, fixmap) ∧
      ¬ StaysInside halfCell.screen t [[mark, mark]] := by
  obtain ⟨fixmap, hsetup⟩ := conSetup_onePage halfCell (fun _ => 0) rfl rfl (by decide)
  have hg : halfCell.screen.Roomy := ⟨by decide, by decide, by decide⟩
  have hmeasure := measurable_of_setup hg (by decide) hsetup
  refine ⟨_, fixmap, hsetup, fun h => ?_⟩
  obtain hnewline | hfits := (inside_after_iff hg hmeasure (fun _ => 0) [mark, mark]).mp h.inside
    [mark] mark (List.prefix_refl _)
  · exact absurd hnewline (by decide)
  · exact absurd (hfits 0 (by decide) 4 (by decide) (by decide)) (by decide)

end Cyanea.Framebuffer
