/-
# The console as a text terminal

What `efifb_put_char` makes visible is the text of a terminal, each character with its glyph of
the font. Drawing only sets pixels. So the cell at the cursor has to be black, and stays so
because a new line shows an empty row, be it below the others or where they have been moved up.

A screen that `con_setup` could map is small enough for the coordinates, which are of type
`int`. A call of `con_write` can be too long for its counter, which is an `int` as well.
-/

import Cyanea.Framebuffer.Efifb
import Cyanea.Math.Terminal

namespace Cyanea.Framebuffer

open Math (Terminal)
open Mm (CachemodeToPte Fixmap)
open Uklib (Store)

def PIXEL_BLACK : Pixel := ⟨0, 0, 0, 0⟩

/-! ## What is asked for -/

section Asked

variable (g : Screen)

def Screen.columns : ℕ := g.screen_width / CHAR_WIDTH

def Screen.rows : ℕ := g.screen_height / CHAR_HEIGHT

/-- The terminal after one more character. -/
def typed (t : Terminal UInt8) (ch : TtyChar) : Terminal UInt8 :=
  if ch.val = NEWLINE then t.newline else t.put g.columns ch.val

/-- The terminal after these characters. -/
def terminal (chars : List TtyChar) : Terminal UInt8 := chars.foldl (typed g) .start

/-- The glyph in the cell of the pixel has it lit. -/
def lit (t : Terminal UInt8) (x y : ℕ) : Bool :=
  (t.cell g.rows (y / CHAR_HEIGHT) (x / CHAR_WIDTH)).any fun ch =>
    fontCharPixel ch (y % CHAR_HEIGHT) (x % CHAR_WIDTH)

/-- A pixel of the glyphs, on a black background. -/
def rendered (t : Terminal UInt8) (x y : ℕ) : Pixel :=
  if lit g t x y then PIXEL_WHITE else PIXEL_BLACK

/-- The pixel that lies at an offset. -/
def pixelAt (mem : ℕ → UInt8) (p : ℕ) : Pixel := ⟨mem p, mem (p + 1), mem (p + 2), mem (p + 3)⟩

/-- All that is visible of the framebuffer is the rendering of the terminal. -/
def Renders (mem : ℕ → UInt8) (t : Terminal UInt8) : Prop :=
  ∀ y < g.screen_height, ∀ x < g.screen_width,
    pixelAt mem (y * g.pitch + x * 4) = rendered g t x y

/-- The calls return, and what is visible then is their text. -/
def ShowsText (t : Tty) (calls : List (List TtyChar)) : Prop :=
  ∃ t', afterWrites g t calls = some t' ∧ Renders g t'.framebuffer.mem (terminal g calls.flatten)

/-- A screen that is made of whole cells. -/
structure Screen.OfCells : Prop where
  width_pos : 0 < g.screen_width
  height_pos : 0 < g.screen_height
  dvd_width : 8 ∣ g.screen_width
  dvd_height : 8 ∣ g.screen_height
  pitch : 4 * g.screen_width ≤ g.pitch

end Asked

/-! ## Cells and offsets -/

section Offsets

variable {g : Screen}

theorem Screen.OfCells.width (h : g.OfCells) : 8 * g.columns = g.screen_width :=
  Nat.mul_div_cancel' h.dvd_width

theorem Screen.OfCells.height (h : g.OfCells) : 8 * g.rows = g.screen_height :=
  Nat.mul_div_cancel' h.dvd_height

theorem Screen.OfCells.rows_pos (h : g.OfCells) : 0 < g.rows := by
  have hpos := h.height_pos
  rw [← h.height] at hpos
  omega

theorem Screen.OfCells.roomy (h : g.OfCells) : g.Roomy where
  width := Nat.le_of_dvd h.width_pos h.dvd_width
  height := Nat.le_of_dvd h.height_pos h.dvd_height
  pitch := h.pitch

/-- A pixel lies in the line of its row. -/
theorem offset_le (hpitch : 4 * g.screen_width ≤ g.pitch) {x y z : ℕ} (hx : x < g.screen_width)
    (hy : y < z) : y * g.pitch + x * 4 + 4 ≤ z * g.pitch := by
  have hline : (y + 1) * g.pitch ≤ z * g.pitch := Nat.mul_le_mul_right _ hy
  rw [Nat.add_mul, Nat.one_mul] at hline
  omega

/-- Two pixels have no byte in common. -/
theorem offset_apart (hpitch : 4 * g.screen_width ≤ g.pitch) {x y x' y' : ℕ}
    (hx : x < g.screen_width) (hx' : x' < g.screen_width) (hne : (x, y) ≠ (x', y')) :
    y * g.pitch + x * 4 + 4 ≤ y' * g.pitch + x' * 4 ∨
      y' * g.pitch + x' * 4 + 4 ≤ y * g.pitch + x * 4 := by
  obtain hy | rfl | hy := Nat.lt_trichotomy y y'
  · exact .inl ((offset_le hpitch hx hy).trans (Nat.le_add_right _ _))
  · have hne' : x ≠ x' := fun h => hne (h ▸ rfl)
    omega
  · exact .inr ((offset_le hpitch hx' hy).trans (Nat.le_add_right _ _))

theorem pixelOffset_eq {x y : ℕ} (h : y * g.pitch + x * 4 < 2 ^ 64) :
    pixelOffset g x y = y * g.pitch + x * 4 := by
  refine wordOfInt_eq ?_ h
  rw [Int.natCast_add, Int.natCast_mul, Int.natCast_mul]
  rfl

/-- The pixels of a glyph that is drawn in a cell. -/
theorem lit_iff {ch : UInt8} {x y k l : ℕ} : Lit ch (8 * l : ℕ) (8 * k : ℕ) (x, y) ↔
    (y / CHAR_HEIGHT = k ∧ x / CHAR_WIDTH = l) ∧
      fontCharPixel ch (y % CHAR_HEIGHT) (x % CHAR_WIDTH) = true := by
  rw [CHAR_HEIGHT, CHAR_WIDTH]
  constructor
  · rintro ⟨r, hr, c, hc, hlit, heq⟩
    rw [CHAR_HEIGHT] at hr
    rw [CHAR_WIDTH] at hc
    obtain ⟨hx, hy⟩ := Prod.mk.inj heq
    have hx' : x = 8 * l + c := by omega
    have hy' : y = 8 * k + r := by omega
    have hxmod : x % 8 = c := by omega
    have hymod : y % 8 = r := by omega
    rw [hxmod, hymod]
    exact ⟨⟨by omega, by omega⟩, hlit⟩
  · rintro ⟨⟨rfl, rfl⟩, hlit⟩
    refine ⟨y % 8, Nat.mod_lt _ (by decide), x % 8, Nat.mod_lt _ (by decide), hlit, ?_⟩
    exact Prod.ext (by dsimp only; omega) (by dsimp only; omega)

end Offsets

/-! ## Drawing a character -/

section Drawing

variable {g : Screen} {ch : UInt8} {t : Tty} {term : Terminal UInt8}

theorem pixelAt_congr {m n : ℕ → UInt8} {p q : ℕ} (h : ∀ i < 4, m (p + i) = n (q + i)) :
    pixelAt m p = pixelAt n q := by
  have h₀ : m p = n q := h 0 (by decide)
  rw [pixelAt, h₀, h 1 (by decide), h 2 (by decide), h 3 (by decide)]
  rfl

theorem pixelAt_black {mem : ℕ → UInt8} {p : ℕ} (h : ∀ i < 4, mem (p + i) = 0) :
    pixelAt mem p = PIXEL_BLACK :=
  pixelAt_congr (n := fun _ => 0) (q := 0) h

/-- What none of the lit pixels changes is as before. -/
theorem efifbDrawChar_frame {β : Type} (obs : Tty → β) {x y : ℤ}
    (h : ∀ p, Lit ch x y p → ∀ t, obs (efifbPpixel g p.1 p.2 PIXEL_WHITE t) = obs t) :
    obs (efifbDrawChar g x y ch t) = obs t := by
  have hadds := efifbDrawChar_adds (P := fun t' => obs t' = obs t) (Q := fun _ => False)
    (g := g) (t := t) (fun p hp t' => by rw [h p hp, or_false])
  exact hadds.mpr (.inl rfl)

theorem mem_ppixel_of_apart {x y : ℤ} {pixel : Pixel} {a : ℕ}
    (h : a < pixelOffset g x y ∨ pixelOffset g x y + 4 ≤ a) :
    (efifbPpixel g x y pixel t).framebuffer.mem a = t.framebuffer.mem a := by
  rw [efifbPpixel]
  dsimp only
  rw [Store.write_of_ne _ _ (by omega), Store.write_of_ne _ _ (by omega),
    Store.write_of_ne _ _ (by omega), Store.write_of_ne _ _ (by omega)]

theorem pixelAt_ppixel_of_apart {x y : ℤ} {pixel : Pixel} {p : ℕ}
    (h : p + 4 ≤ pixelOffset g x y ∨ pixelOffset g x y + 4 ≤ p) :
    pixelAt (efifbPpixel g x y pixel t).framebuffer.mem p = pixelAt t.framebuffer.mem p :=
  pixelAt_congr fun i hi => mem_ppixel_of_apart (by omega)

theorem pixelAt_ppixel_self (x y : ℤ) (pixel : Pixel) :
    pixelAt (efifbPpixel g x y pixel t).framebuffer.mem (pixelOffset g x y) = pixel := by
  rw [efifbPpixel, pixelAt]
  dsimp only
  congr 1
  · rw [Store.write_of_ne _ _ (by omega), Store.write_of_ne _ _ (by omega),
      Store.write_of_ne _ _ (by omega), Store.write_self]
  · rw [Store.write_of_ne _ _ (by omega), Store.write_of_ne _ _ (by omega), Store.write_self]
  · rw [Store.write_of_ne _ _ (by omega), Store.write_self]
  · exact Store.write_self ..

/-- The pixels of a glyph in a cell of the screen are on it, each of them at its own offset. -/
theorem pixelOffset_of_lit (hg : g.OfCells) (hsize : g.Measurable) {k l : ℕ} (hk : k < g.rows)
    (hl : l < g.columns) {p : ℤ × ℤ} (hp : Lit ch (8 * l : ℕ) (8 * k : ℕ) p) :
    ∃ x y : ℕ, p = (↑x, ↑y) ∧ x < g.screen_width ∧
      pixelOffset g p.1 p.2 = y * g.pitch + x * 4 := by
  obtain ⟨r, hr, c, hc, -, rfl⟩ := hp
  rw [CHAR_HEIGHT] at hr
  rw [CHAR_WIDTH] at hc
  have hwidth := hg.width
  have hheight := hg.height
  have hx : 8 * l + c < g.screen_width := by omega
  have hy : 8 * k + r < g.screen_height := by omega
  have hlt := (offset_le hg.pitch hx hy).trans_lt hsize.size
  refine ⟨8 * l + c, 8 * k + r, by rw [Int.natCast_add, Int.natCast_add], hx, ?_⟩
  rw [← pixelOffset_eq (by omega), Int.natCast_add, Int.natCast_add]

/-- In a cell of the screen the pixels of the glyph become white, and no others change. -/
theorem pixelAt_drawChar (hg : g.OfCells) (hsize : g.Measurable) (ch : UInt8) (t : Tty)
    {k l x y : ℕ} (hk : k < g.rows) (hl : l < g.columns) (hx : x < g.screen_width)
    (hy : y < g.screen_height) :
    (Lit ch (8 * l : ℕ) (8 * k : ℕ) (x, y) →
      pixelAt (efifbDrawChar g (8 * l : ℕ) (8 * k : ℕ) ch t).framebuffer.mem
        (y * g.pitch + x * 4) = PIXEL_WHITE) ∧
    (¬ Lit ch (8 * l : ℕ) (8 * k : ℕ) (x, y) →
      pixelAt (efifbDrawChar g (8 * l : ℕ) (8 * k : ℕ) ch t).framebuffer.mem
        (y * g.pitch + x * 4) = pixelAt t.framebuffer.mem (y * g.pitch + x * 4)) := by
  have hother : ∀ p, Lit ch (8 * l : ℕ) (8 * k : ℕ) p → p ≠ (↑x, ↑y) → ∀ t,
      pixelAt (efifbPpixel g p.1 p.2 PIXEL_WHITE t).framebuffer.mem (y * g.pitch + x * 4) =
        pixelAt t.framebuffer.mem (y * g.pitch + x * 4) := by
    intro p hp hne t
    obtain ⟨x', y', rfl, hx', hp'⟩ := pixelOffset_of_lit hg hsize hk hl hp
    have hne' : (x, y) ≠ (x', y') := by
      intro h
      obtain ⟨rfl, rfl⟩ := Prod.mk.inj h
      exact hne rfl
    refine pixelAt_ppixel_of_apart ?_
    rw [hp']
    exact offset_apart hg.pitch hx hx' hne'
  have hself : pixelOffset g x y = y * g.pitch + x * 4 := by
    have hlt := (offset_le hg.pitch hx hy).trans_lt hsize.size
    exact pixelOffset_eq (by omega)
  constructor
  · intro hlit
    refine (efifbDrawChar_adds (Q := fun p => p = (↑x, ↑y)) (P := fun t =>
      pixelAt t.framebuffer.mem (y * g.pitch + x * 4) = PIXEL_WHITE) fun p hp t => ?_).mpr
      (.inr ⟨_, hlit, rfl⟩)
    by_cases hpixel : p = (↑x, ↑y)
    · rw [hpixel, ← hself]
      exact iff_of_true (pixelAt_ppixel_self _ _ _) (.inr rfl)
    · rw [hother p hp hpixel, or_iff_left hpixel]
  · intro hlit
    exact efifbDrawChar_frame (fun t => pixelAt t.framebuffer.mem (y * g.pitch + x * 4))
      fun p hp => hother p hp fun h => hlit (h ▸ hp)

/-- A character that is appended lights its glyph in the cell of the cursor, where nothing was
lit before. -/
theorem lit_append (hg : g.OfCells) {x y : ℕ} : lit g (term.append ch) x y = true ↔
    lit g term x y = true ∨
      Lit ch (8 * term.line.length : ℕ) (8 * term.cursorRow g.rows : ℕ) (x, y) := by
  rw [lit_iff, lit, lit, Terminal.cell_append hg.rows_pos]
  by_cases hcell : y / CHAR_HEIGHT = term.cursorRow g.rows ∧ x / CHAR_WIDTH = term.line.length
  · have hnone : term.cell g.rows (y / CHAR_HEIGHT) (x / CHAR_WIDTH) = none := by
      rw [hcell.1, hcell.2, Terminal.cell_cursorRow hg.rows_pos]
      exact List.getElem?_eq_none (Nat.le_refl _)
    rw [if_pos hcell, hnone, and_iff_right hcell, Option.any_none, or_iff_right Bool.false_ne_true]
    rfl
  · rw [if_neg hcell, or_iff_left fun h => hcell h.1]

theorem Renders.drawChar (hg : g.OfCells) (hsize : g.Measurable) (ch : UInt8)
    (h : Renders g t.framebuffer.mem term) (hline : term.line.length < g.columns) :
    Renders g (efifbDrawChar g (8 * term.line.length : ℕ) (8 * term.cursorRow g.rows : ℕ) ch
      t).framebuffer.mem (term.append ch) := by
  intro y hy x hx
  have hdraw := pixelAt_drawChar hg hsize ch t (Terminal.cursorRow_lt (t := term) hg.rows_pos)
    hline hx hy
  by_cases hlit : Lit ch (8 * term.line.length : ℕ) (8 * term.cursorRow g.rows : ℕ) (x, y)
  · rw [hdraw.1 hlit, rendered, if_pos ((lit_append hg).mpr (.inr hlit))]
  · rw [hdraw.2 hlit, h y hy x hx, rendered, rendered,
      if_congr ((lit_append hg).trans (or_iff_left hlit)) rfl rfl]

end Drawing

/-! ## Going to the next line -/

section Lines

variable {g : Screen} {t : Tty} {term : Terminal UInt8}

/-- What is below the lines that stay is cleared. -/
theorem mem_scroll (hg : g.Roomy) (hsize : g.Measurable) {a : ℕ}
    (ha : a < g.screen_height * g.pitch) : (efifbScrollScreen g t).framebuffer.mem a =
      if (g.screen_height - 8) * g.pitch ≤ a then 0 else t.framebuffer.mem (8 * g.pitch + a) := by
  have hheight := hg.height
  have hlt := hsize.height
  have hlt' := hsize.size
  have hrest : sub64 g.screen_height CHAR_HEIGHT = g.screen_height - 8 :=
    sub64_eq hheight (by omega)
  have hmul : (g.screen_height - 8) * g.pitch + g.pitch * 8 = g.screen_height * g.pitch := by
    rw [Nat.mul_comm g.pitch, ← Nat.add_mul, Nat.sub_add_cancel hheight]
  have hmod : (g.screen_height - 8) * g.pitch % 2 ^ 64 = (g.screen_height - 8) * g.pitch :=
    Nat.mod_eq_of_lt (by omega)
  rw [efifbScrollScreen]
  dsimp only
  rw [Uklib.memset_mem, Uklib.memcpy_mem (.inl (Nat.zero_le _)), hrest, hmod, CHAR_HEIGHT]
  generalize (g.screen_height - 8) * g.pitch = rest at hmul ⊢
  by_cases hlow : rest ≤ a
  · rw [if_pos hlow, if_pos ⟨hlow, by omega⟩]
    rfl
  · rw [if_neg hlow, if_neg fun h => hlow h.1, if_pos ⟨Nat.zero_le _, by omega⟩, Nat.sub_zero]

/-- A new line that is still on the screen shows the same. -/
theorem lit_newline_of_lt (h : term.cursorRow g.rows + 1 < g.rows) (x y : ℕ) :
    lit g term.newline x y = lit g term x y := by
  rw [lit, lit, Terminal.cell_newline_of_lt h]

/-- One that is not shows all of it a row higher. -/
theorem lit_newline_of_ge (hg : g.OfCells) (h : g.rows ≤ term.cursorRow g.rows + 1) (x y : ℕ) :
    lit g term.newline x y = lit g term x (y + CHAR_HEIGHT) := by
  rw [lit, lit, Terminal.cell_newline_of_ge hg.rows_pos h, Nat.add_mod_right,
    Nat.add_div_right _ (by decide)]

theorem lit_of_ge (hg : g.OfCells) {x y : ℕ} (h : g.screen_height ≤ y) :
    lit g term x y = false := by
  have hcursor : term.cursorRow g.rows < g.rows := Terminal.cursorRow_lt hg.rows_pos
  have hrow : g.rows ≤ y / CHAR_HEIGHT := Nat.div_le_div_right h
  rw [lit, Terminal.cell_of_gt hg.rows_pos (hcursor.trans_le hrow)]
  rfl

theorem Renders.scroll (hg : g.OfCells) (hsize : g.Measurable)
    (hfull : g.rows ≤ term.cursorRow g.rows + 1) (h : Renders g t.framebuffer.mem term) :
    Renders g (efifbScrollScreen g t).framebuffer.mem term.newline := by
  intro y hy x hx
  have hheight := hg.roomy.height
  have hend := offset_le hg.pitch hx hy
  rw [rendered, lit_newline_of_ge hg hfull]
  by_cases hlow : y < g.screen_height - 8
  · -- the row that was eight lines of pixels below
    have hrest := offset_le hg.pitch hx hlow
    have hbelow := h (y + 8) (by omega) x hx
    rw [rendered] at hbelow
    rw [CHAR_HEIGHT, ← hbelow]
    refine pixelAt_congr fun i hi => ?_
    have hline : 8 * g.pitch + (y * g.pitch + x * 4 + i) = (y + 8) * g.pitch + x * 4 + i := by
      rw [Nat.add_mul]
      omega
    rw [mem_scroll hg.roomy hsize (by omega), if_neg (by omega), hline]
  · have hrest : (g.screen_height - 8) * g.pitch ≤ y * g.pitch :=
      Nat.mul_le_mul_right _ (Nat.not_lt.mp hlow)
    rw [lit_of_ge hg (by rw [CHAR_HEIGHT]; omega)]
    refine pixelAt_black fun i hi => ?_
    rw [mem_scroll hg.roomy hsize (by omega), if_pos (by omega)]

end Lines

/-! ## What a character keeps -/

section Steps

variable {g : Screen} {t : Tty} {term : Terminal UInt8} {ch : TtyChar}

/-- The cursor and the framebuffer are those of the terminal. -/
structure Displays (g : Screen) (t : Tty) (term : Terminal UInt8) : Prop where
  line : term.line.length < g.columns
  cursor_x : t.cursor_x = 8 * term.line.length
  cursor_y : t.cursor_y = 8 * term.cursorRow g.rows
  renders : Renders g t.framebuffer.mem term

/-- A new line does not depend on the column of the cursor. -/
theorem displays_nextLine (hg : g.OfCells) (hsize : g.Measurable)
    (hy : t.cursor_y = 8 * term.cursorRow g.rows) (h : Renders g t.framebuffer.mem term) :
    Displays g (nextLine g t) term.newline := by
  have hwidth := hg.width
  have hheight := hg.height
  have hwidth_pos := hg.width_pos
  have hmeasure := hsize.height
  have hrow : term.cursorRow g.rows < g.rows := Terminal.cursorRow_lt hg.rows_pos
  have hnext : add64 t.cursor_y 8 = t.cursor_y + 8 := add64_eq (by omega)
  obtain ⟨hx', hy'⟩ := nextLine_cursor (t := t) hsize (by omega)
  refine ⟨show 0 < g.columns by omega, hx', ?_, ?_⟩
  · rw [hy', Terminal.cursorRow_newline]
    by_cases hfull : g.rows ≤ term.cursorRow g.rows + 1
    · rw [if_pos hfull, if_pos (by omega), hy]
    · rw [if_neg hfull, if_neg (by omega), hy, Nat.mul_succ]
  · rw [nextLine]
    dsimp only
    rw [CHAR_HEIGHT, hnext]
    by_cases hfull : g.rows ≤ term.cursorRow g.rows + 1
    · rw [if_pos (by omega)]
      exact Renders.scroll hg hsize hfull h
    · rw [if_neg (by omega)]
      intro y hy x hx
      rw [rendered, lit_newline_of_lt (by omega)]
      exact h y hy x hx

theorem Displays.putChar (hg : g.OfCells) (hsize : g.Measurable) (h : Displays g t term) :
    Displays g (efifbPutChar g ch.val t) (typed g term ch) := by
  have hwidth := hg.width
  have hheight := hg.height
  have hx_le := hsize.width
  have hy_le := hsize.height
  have hline := h.line
  have hrow : term.cursorRow g.rows < g.rows := Terminal.cursorRow_lt hg.rows_pos
  by_cases hch : ch.val = NEWLINE
  · rw [efifbPutChar, typed, if_pos hch, if_pos hch]
    exact displays_nextLine hg hsize h.cursor_y h.renders
  · have hx := h.cursor_x
    have hy := h.cursor_y
    have hnext : add64 t.cursor_x 8 = 8 * (term.append ch.val).line.length := by
      rw [Terminal.append, List.length_append, List.length_singleton, Nat.mul_succ, ← hx]
      exact add64_eq (by omega)
    have hdrawn : Renders g (drawn g ch.val t).framebuffer.mem (term.append ch.val) := by
      have hdraw := h.renders.drawChar hg hsize ch.val h.line
      rwa [← hx, ← hy, ← intOfWord_eq (by omega), ← intOfWord_eq (by omega)] at hdraw
    have hdrawn_y : (drawn g ch.val t).cursor_y = 8 * (term.append ch.val).cursorRow g.rows :=
      efifbDrawChar_cursor_y.trans hy
    rw [efifbPutChar_printable hch, typed, if_neg hch, Terminal.put, hnext]
    by_cases hfull : g.columns ≤ (term.append ch.val).line.length
    · rw [if_pos (by omega), if_pos hfull]
      exact displays_nextLine hg hsize hdrawn_y hdrawn
    · rw [if_neg (by omega), if_neg hfull]
      exact ⟨Nat.not_le.mp hfull, hnext, hdrawn_y, hdrawn⟩

theorem pixelAt_setup (hpitch : 4 * g.screen_width ≤ g.pitch)
    (hsize : g.screen_height * g.pitch < 2 ^ 64) (mem : ℕ → UInt8) {x y : ℕ}
    (hx : x < g.screen_width) (hy : y < g.screen_height) :
    pixelAt (cleared g mem).framebuffer.mem (y * g.pitch + x * 4) = PIXEL_BLACK := by
  have hend := offset_le hpitch hx hy
  refine pixelAt_black fun i hi => ?_
  rw [cleared, efifbClearScreen]
  dsimp only
  rw [Uklib.memset_mem, Nat.mod_eq_of_lt hsize, if_pos ⟨Nat.zero_le _, by omega⟩]
  rfl

theorem displays_setup (hg : g.OfCells) (hsize : g.Measurable) (mem : ℕ → UInt8) :
    Displays g (cleared g mem) .start := by
  have hwidth := hg.width
  have hwidth_pos := hg.width_pos
  have hcursor : (Terminal.start : Terminal UInt8).cursorRow g.rows = 0 := Nat.zero_min _
  refine ⟨show 0 < g.columns by omega, rfl, hcursor ▸ rfl, fun y hy x hx => ?_⟩
  have hnone : lit g .start x y = false := by
    rw [lit]
    obtain hrow | hrow := Nat.eq_zero_or_pos (y / CHAR_HEIGHT)
    · rw [hrow, ← hcursor, Terminal.cell_cursorRow hg.rows_pos]
      rfl
    · rw [Terminal.cell_of_gt hg.rows_pos (hcursor.symm ▸ hrow)]
      rfl
  rw [rendered, hnone]
  exact pixelAt_setup hg.pitch hsize.size mem hx hy

theorem terminal_concat (g : Screen) (chars : List TtyChar) (ch : TtyChar) :
    terminal g (chars ++ [ch]) = typed g (terminal g chars) ch := by
  rw [terminal, terminal, List.foldl_append, List.foldl_cons, List.foldl_nil]

theorem displays_after (hg : g.OfCells) (hsize : g.Measurable) (mem : ℕ → UInt8)
    (chars : List TtyChar) : Displays g (after g (cleared g mem) chars) (terminal g chars) := by
  induction chars using List.reverseRecOn with
  | nil => exact displays_setup hg hsize mem
  | append_singleton chars ch ih =>
      rw [after_concat, terminal_concat]
      exact ih.putChar hg hsize

/-- Calls whose characters an `int` can count write them one after the other. -/
theorem foldlM_conWrite_eq (g : Screen) {calls : List (List TtyChar)}
    (h : ∀ s ∈ calls, s.length ≤ INT_MAX) (t : Tty) :
    calls.foldlM (fun t s => conWrite g s t) t =
      some (calls.flatten.foldl (fun t ch => efifbPutChar g ch.val t) t) := by
  induction calls generalizing t with
  | nil => rfl
  | cons s calls ih =>
      obtain ⟨hs, hcalls⟩ := List.forall_mem_cons.mp h
      rw [List.foldlM_cons, conWrite, writeLoop_eq g (Nat.zero_le _), Nat.zero_add, if_pos hs,
        List.flatten_cons, List.foldl_append]
      exact ih hcalls _

end Steps

/-- Behind a `con_setup` that succeeds, a screen of whole cells shows the text that has been
written exactly if no call has more characters than an `int` can count. -/
theorem screen_showsText {si : ScreenInfo} {modes : CachemodeToPte} {mem : ℕ → UInt8}
    {fixmap fixmap' : Fixmap} {t : Tty} (hg : si.screen.OfCells)
    (hsize : si.screen.screen_height * si.screen.pitch ≤ si.framebuffer_size.toNat)
    (hsetup : conSetup si modes mem fixmap = .ok (SUCCESS, t, fixmap'))
    (calls : List (List TtyChar)) :
    ShowsText si.screen t calls ↔ ∀ s ∈ calls, s.length ≤ INT_MAX := by
  have hmeasure := measurable_of_setup hg.roomy hsize hsetup
  obtain ⟨rfl, -⟩ := conSetup_success hsetup
  constructor
  · rintro ⟨t', ht', -⟩
    exact (foldlM_conWrite si.screen calls _).mp ⟨t', ht'⟩
  · intro hcalls
    exact ⟨after si.screen (cleared si.screen mem) calls.flatten, foldlM_conWrite_eq _ hcalls _,
      (displays_after hg hmeasure mem calls.flatten).renders⟩

/-- A screen of two rows and two columns. -/
def fourCells : ScreenInfo := ⟨16, 16, 16, 0x80000000, 0x1000⟩

theorem ofCells_fourCells : fourCells.screen.OfCells :=
  ⟨by decide, by decide, by decide, by decide, by decide⟩

/-- Five characters, so that the screen scrolls. -/
theorem showsText_fourCells : ShowsText fourCells.screen
    (cleared fourCells.screen fun _ => 255) [[mark, mark], [mark, mark, mark]] := by
  obtain ⟨fixmap, hsetup⟩ := conSetup_onePage fourCells (fun _ => 255) rfl rfl (by decide)
  exact (screen_showsText ofCells_fourCells (by decide) hsetup _).mpr (by decide)

def blank : TtyChar := ⟨0x20, .inl (by decide)⟩

/-- One call with more characters than an `int` can count. -/
theorem not_showsText_long : ∃ t fixmap,
    conSetup fourCells (fun _ => 0) (fun _ => 255) .start = .ok (SUCCESS, t, fixmap) ∧
      ¬ ShowsText fourCells.screen t [List.replicate (2 ^ 31) blank] := by
  obtain ⟨fixmap, hsetup⟩ := conSetup_onePage fourCells (fun _ => 255) rfl rfl (by decide)
  refine ⟨_, fixmap, hsetup, ?_⟩
  rintro ⟨t', ht', -⟩
  have hle := (foldlM_conWrite _ _ _).mp ⟨t', ht'⟩ _ (List.mem_singleton_self _)
  rw [List.length_replicate] at hle
  exact absurd hle (by decide)

end Cyanea.Framebuffer
