/-
# The picture that the kernel is given

The model of `setup_graphics`, `efi_setup_gop`, `efi_find_gop` and `efi_set_mode` in
`efi-boot/efi.c`. The firmware answers the `n`-th call as it likes. A pointer to an interface
stands together with what the interface shows through it, which only `set_mode` changes.

On a firmware whose answers describe some displays, the screen that the kernel is told about
is the one that is set: of the first usable output that the console is shown on, or else of
the first usable one, in the smallest mode.
-/

import Cyanea.Boot.ExitBootServices
import Cyanea.Math.Transcript

namespace Cyanea.Efi

open Boot (EFI_SUCCESS)
open Math

def EFI_NOT_FOUND : ℕ := 14 ||| 1 <<< 63

/-- `EFI_GUID`: sixteen bytes, the first three numbers with their low bytes first. -/
def EFI_GUID (a b c : ℕ) (d : List ℕ) : List ℕ :=
  [a &&& 0xff, (a >>> 8) &&& 0xff, (a >>> 16) &&& 0xff, (a >>> 24) &&& 0xff,
    b &&& 0xff, (b >>> 8) &&& 0xff, c &&& 0xff, (c >>> 8) &&& 0xff] ++ d

def EFI_GRAPHICS_OUTPUT_PROTOCOL_GUID : List ℕ :=
  EFI_GUID 0x9042a9de 0x23dc 0x4a38 [0x96, 0xfb, 0x7a, 0xde, 0xd0, 0x80, 0x51, 0x6a]

def EFI_CONSOLE_OUT_DEVICE_GUID : List ℕ :=
  EFI_GUID 0xd3b36f2c 0xd551 0x11d4 [0x9a, 0x46, 0x00, 0x90, 0x27, 0x3f, 0xc1, 0x4d]

def PIXEL_BLT_ONLY : ℤ := 3

def PIXEL_FORMAT_MAX : ℤ := 4

/-- The fields of `struct efi_graphics_output_mode_info` that are read. -/
structure ModeInfo where
  horizontal_resolution : ℕ
  vertical_resolution : ℕ
  pixel_format : ℤ
  pixels_per_scan_line : ℕ
  deriving DecidableEq, Repr

/-- `horizontal_resolution * vertical_resolution`, a product of two `u32`. -/
def ModeInfo.area (info : ModeInfo) : ℕ :=
  info.horizontal_resolution * info.vertical_resolution % 2 ^ 32

/-- `struct efi_graphics_output_protocol_mode`, with what `info` points to. -/
structure GopMode where
  max_mode : ℕ
  mode : ℕ
  info : ModeInfo
  frame_buffer_base : ℕ
  frame_buffer_size : ℕ
  deriving DecidableEq, Repr

/-- A pointer to an interface, and what its `mode` points to. -/
structure Gop where
  addr : ℕ
  mode : GopMode
  deriving DecidableEq, Repr

/-- A call of the firmware, with the arguments that matter here. -/
inductive Call
  | allocate_pages (memory_type pages : ℕ)
  | free_pages (addr pages : ℕ)
  | boot (service : Boot.Service)
  | locate_handle_buffer (proto : List ℕ)
  | handle_protocol (handle : ℕ) (proto : List ℕ)
  | query_mode (gop i : ℕ)
  | set_mode (gop mode : ℕ)
  | exit (handle status : ℕ)
  deriving DecidableEq, Repr

/-- What the firmware answers: a status, and what it writes through the pointers it was
given or shows through an interface. -/
structure Answer extends Boot.Answer where
  handles : List ℕ
  mode : GopMode
  info : ModeInfo
  deriving DecidableEq, Repr

/-- The answer to the call that is made after `n` others. -/
abbrev Firmware := ℕ → Answer

/-- The calls so far, with their answers. -/
abbrev Trace := Transcript Call Answer

/-- `struct screen_info`. -/
structure ScreenInfo where
  framebuffer : ℕ
  framebuffer_size : ℕ
  screen_width : ℕ
  screen_height : ℕ
  pixels_per_scan_line : ℕ
  deriving DecidableEq, Repr

section Code

variable (firmware : Firmware)

/-- The loop of `efi_find_gop` over the handles that are left. -/
def efiFindGop : List ℕ → Option Gop → StateM Trace (Option Gop)
  | [], first_gop => return first_gop
  | handle :: handles, first_gop => do
      let answer ← ask firmware (.handle_protocol handle EFI_GRAPHICS_OUTPUT_PROTOCOL_GUID)
      if answer.status ≠ EFI_SUCCESS then
        efiFindGop handles first_gop
      else
        let gop : Gop := ⟨answer.addr, answer.mode⟩
        let info := gop.mode.info
        if info.pixel_format = PIXEL_BLT_ONLY ∨ PIXEL_FORMAT_MAX ≤ info.pixel_format then
          efiFindGop handles first_gop
        else
          let con_out ← ask firmware (.handle_protocol handle EFI_CONSOLE_OUT_DEVICE_GUID)
          if con_out.status = EFI_SUCCESS then
            return some gop
          else
            efiFindGop handles (first_gop.or (some gop))

/-- The loop of `efi_set_mode`, from mode `i` on and with `turns` turns left. It returns
`next_area` and `next_mode`. -/
def queryLoop (gop : Gop) : ℕ → ℕ → ℕ × ℕ → StateM Trace (ℕ × ℕ)
  | 0, _, next => return next
  | turns + 1, i, next => do
      let answer ← ask firmware (.query_mode gop.addr i)
      if answer.status ≠ EFI_SUCCESS then
        queryLoop gop turns (i + 1) next
      else
        let area := answer.info.area
        queryLoop gop turns (i + 1) (if area < next.1 then (area, i) else next)

/-- What the interface shows afterwards. -/
def efiSetMode (gop : Gop) : StateM Trace GopMode := do
  let mode := gop.mode
  let next ← queryLoop firmware gop mode.max_mode 0 (mode.info.area, mode.mode)
  if mode.mode ≠ next.2 then
    let answer ← ask firmware (.set_mode gop.addr next.2)
    return answer.mode
  else
    return mode

/-- The status, and the screen that is filled in. -/
def efiSetupGop (si : ScreenInfo) (gop_handles : List ℕ) : StateM Trace (ℕ × ScreenInfo) := do
  match ← efiFindGop firmware gop_handles none with
  | none => return (EFI_NOT_FOUND, si)
  | some gop =>
      let mode ← efiSetMode firmware gop
      return (EFI_SUCCESS, {
        framebuffer := mode.frame_buffer_base
        framebuffer_size := mode.frame_buffer_size
        screen_width := mode.info.horizontal_resolution
        screen_height := mode.info.vertical_resolution
        pixels_per_scan_line := mode.info.pixels_per_scan_line })

/-- `si` is what the screen of the parameters holds before. -/
def setupGraphics (si : ScreenInfo) : StateM Trace (ℕ × ScreenInfo) := do
  let si := { si with framebuffer := 0 }
  let answer ← ask firmware (.locate_handle_buffer EFI_GRAPHICS_OUTPUT_PROTOCOL_GUID)
  if answer.status = EFI_SUCCESS then
    let (status, si) ← efiSetupGop firmware si answer.handles
    let _ ← ask firmware (.boot (.free_pool answer.addr))
    return (status, si)
  else
    return (answer.status, si)

end Code

/-! ## The calls -/

/-- A call that looks for a screen or sets it up. -/
def Call.isGraphics : Call → Bool
  | .locate_handle_buffer _ | .handle_protocol _ _ | .query_mode _ _ | .set_mode _ _
  | .boot (.free_pool _) => true
  | _ => false

section Calls

variable {firmware : Firmware} {α β : Type}

/-- All calls look for a screen or set it up. -/
def Draws (firmware : Firmware) (x : StateM Trace α) : Prop :=
  Converses firmware (fun _ more => ∀ c ∈ more, c.1.isGraphics = true) x

theorem Draws.pure (a : α) : Draws firmware (Pure.pure a) := Converses.pure nofun

theorem Draws.bind {x : StateM Trace α} {f : α → StateM Trace β} (h : Draws firmware x)
    (hnext : ∀ a, Draws firmware (f a)) : Draws firmware (x >>= f) :=
  Converses.bind h fun a _ hmore => (hnext a).mono fun _ _ hlast =>
    List.forall_mem_append.mpr ⟨hmore, hlast⟩

theorem Draws.ask {call : Call} (h : call.isGraphics = true) : Draws firmware (ask firmware call) :=
  Converses.ask fun _ => List.forall_mem_singleton.mpr h

theorem draws_efiFindGop (handles : List ℕ) (first_gop : Option Gop) :
    Draws firmware (efiFindGop firmware handles first_gop) := by
  induction handles generalizing first_gop with
  | nil => exact .pure _
  | cons handle handles ih =>
      rw [efiFindGop]
      refine (Draws.ask rfl).bind fun a => ?_
      split
      · exact ih _
      · dsimp only
        split
        · exact ih _
        · refine (Draws.ask rfl).bind fun b => ?_
          split
          · exact .pure _
          · exact ih _

theorem draws_queryLoop (gop : Gop) (turns i : ℕ) (next : ℕ × ℕ) :
    Draws firmware (queryLoop firmware gop turns i next) := by
  induction turns generalizing i next with
  | zero => exact .pure _
  | succ turns ih =>
      rw [queryLoop]
      refine (Draws.ask rfl).bind fun a => ?_
      split
      · exact ih _ _
      · exact ih _ _

theorem draws_efiSetMode (gop : Gop) : Draws firmware (efiSetMode firmware gop) := by
  refine (draws_queryLoop gop _ _ _).bind fun next => ?_
  split
  · exact (Draws.ask rfl).bind fun a => .pure _
  · exact .pure _

theorem draws_setupGraphics (si : ScreenInfo) : Draws firmware (setupGraphics firmware si) := by
  refine (Draws.ask rfl).bind fun a => ?_
  split
  · refine Draws.bind ?_ fun r => (Draws.ask rfl).bind fun _ => .pure _
    refine (draws_efiFindGop _ _).bind fun found => ?_
    cases found with
    | none => exact .pure _
    | some gop => exact (draws_efiSetMode gop).bind fun mode => .pure _
  · exact .pure _

end Calls

/-! ## Displays -/

/-- What the firmware has to show: the handles with a graphics output, their interfaces, which
of them the console is shown on, the modes of an interface, and what it shows in a mode. -/
structure Displays where
  handles : Option (List ℕ)
  output : ℕ → Option Gop
  conOut : ℕ → Bool
  info : ℕ → ℕ → Option ModeInfo
  shown : ℕ → ℕ → GopMode

/-- The code can draw on the output. -/
def Gop.Usable (gop : Gop) : Prop :=
  gop.mode.info.pixel_format ≠ PIXEL_BLT_ONLY ∧ gop.mode.info.pixel_format < PIXEL_FORMAT_MAX

instance Gop.decidableUsable (gop : Gop) : Decidable gop.Usable :=
  inferInstanceAs (Decidable (_ ∧ _))

/-- The screen of what an interface shows. -/
def GopMode.screen (mode : GopMode) : ScreenInfo where
  framebuffer := mode.frame_buffer_base
  framebuffer_size := mode.frame_buffer_size
  screen_width := mode.info.horizontal_resolution
  screen_height := mode.info.vertical_resolution
  pixels_per_scan_line := mode.info.pixels_per_scan_line

namespace Displays

variable (D : Displays)

/-- The call is answered from the displays. -/
def Describes : Call × Answer → Prop
  | (.locate_handle_buffer _, a) =>
      match D.handles with
      | none => a.status ≠ EFI_SUCCESS
      | some handles => a.status = EFI_SUCCESS ∧ a.handles = handles
  | (.handle_protocol handle proto, a) =>
      if proto = EFI_GRAPHICS_OUTPUT_PROTOCOL_GUID then
        match D.output handle with
        | none => a.status ≠ EFI_SUCCESS
        | some gop => a.status = EFI_SUCCESS ∧ (⟨a.addr, a.mode⟩ : Gop) = gop
      else a.status = EFI_SUCCESS ↔ D.conOut handle = true
  | (.query_mode gop i, a) =>
      match D.info gop i with
      | none => a.status ≠ EFI_SUCCESS
      | some info => a.status = EFI_SUCCESS ∧ a.info = info
  | (.set_mode gop mode, a) => a.mode = D.shown gop mode
  | _ => True

/-- The output of a handle, if it is usable. -/
def usable (handle : ℕ) : Option Gop := (D.output handle).filter fun gop => gop.Usable

/-- The output of a handle, if it is usable and the console is shown on it. -/
def console (handle : ℕ) : Option Gop := if D.conOut handle then D.usable handle else none

/-- The first usable output that the console is shown on, or else the first usable one. -/
def chosen (handles : List ℕ) : Option Gop :=
  (handles.findSome? D.console).or (handles.findSome? D.usable)

/-- Mode `m`, with `area` pixels, is the mode that is set, or a smaller one; among the first
`n` modes none is smaller. -/
structure Smallest (gop : Gop) (n m area : ℕ) : Prop where
  offered : (m = gop.mode.mode ∧ area = gop.mode.info.area) ∨
    (m < n ∧ area < gop.mode.info.area ∧ ∃ info, D.info gop.addr m = some info ∧ info.area = area)
  least : ∀ i < n, ∀ info, D.info gop.addr i = some info → area ≤ info.area

variable {D} {firmware : Firmware}

theorem Describes.usable_eq {handle : ℕ} {a : Answer}
    (h : D.Describes (.handle_protocol handle EFI_GRAPHICS_OUTPUT_PROTOCOL_GUID, a)) :
    D.usable handle = if a.status = EFI_SUCCESS ∧ (⟨a.addr, a.mode⟩ : Gop).Usable then
      some ⟨a.addr, a.mode⟩ else none := by
  rw [Describes, if_pos rfl] at h
  rw [usable]
  cases hout : D.output handle with
  | none =>
      rw [hout] at h
      simp [h]
  | some gop =>
      rw [hout] at h
      obtain ⟨hstatus, rfl⟩ := h
      simp [hstatus, Option.filter]

theorem Describes.conOut_iff {handle : ℕ} {a : Answer}
    (h : D.Describes (.handle_protocol handle EFI_CONSOLE_OUT_DEVICE_GUID, a)) :
    a.status = EFI_SUCCESS ↔ D.conOut handle = true := by
  rwa [Describes, if_neg (by decide)] at h

theorem efiFindGop_converses (handles : List ℕ) (first_gop : Option Gop) :
    Converses firmware (fun r more => (∀ c ∈ more, D.Describes c) →
      r = (handles.findSome? D.console).or (first_gop.or (handles.findSome? D.usable)))
      (efiFindGop firmware handles first_gop) := by
  induction handles generalizing first_gop with
  | nil => exact .pure fun _ => by simp
  | cons handle handles ih =>
      rw [efiFindGop]
      refine .ask_bind fun a => ?_
      -- a handle without a usable output is passed over
      have hskip (hno : ¬ (a.status = EFI_SUCCESS ∧ (⟨a.addr, a.mode⟩ : Gop).Usable)) :
          Converses firmware (fun r more => (∀ c ∈ (Call.handle_protocol handle
            EFI_GRAPHICS_OUTPUT_PROTOCOL_GUID, a) :: more, D.Describes c) →
            r = ((handle :: handles).findSome? D.console).or
              (first_gop.or ((handle :: handles).findSome? D.usable)))
            (efiFindGop firmware handles first_gop) := by
        refine (ih first_gop).mono fun r more hr hall => ?_
        obtain ⟨ha, hmore⟩ := List.forall_mem_cons.mp hall
        have husable := ha.usable_eq
        rw [if_neg hno] at husable
        rw [hr hmore, List.findSome?_cons, List.findSome?_cons, console, husable, ite_self]
      by_cases hstatus : a.status = EFI_SUCCESS
      · rw [if_neg (not_not.mpr hstatus)]
        by_cases hformat : (⟨a.addr, a.mode⟩ : Gop).Usable
        · rw [if_neg (fun h => h.elim hformat.1 (Int.not_le.mpr hformat.2))]
          refine .ask_bind fun b => ?_
          by_cases hcon : b.status = EFI_SUCCESS
          · rw [if_pos hcon]
            refine .pure fun hall => ?_
            have husable := (hall _ List.mem_cons_self).usable_eq
            have hconsole := (hall (.handle_protocol handle EFI_CONSOLE_OUT_DEVICE_GUID, b)
              (by simp)).conOut_iff.mp hcon
            rw [if_pos ⟨hstatus, hformat⟩] at husable
            rw [List.findSome?_cons, console, if_pos hconsole, husable]
            rfl
          · rw [if_neg hcon]
            refine (ih _).mono fun r more hr hall => ?_
            obtain ⟨ha, hrest⟩ := List.forall_mem_cons.mp hall
            obtain ⟨hb, hmore⟩ := List.forall_mem_cons.mp hrest
            have husable := ha.usable_eq
            rw [if_pos ⟨hstatus, hformat⟩] at husable
            have hconsole : D.console handle = none :=
              if_neg fun h => hcon (hb.conOut_iff.mpr h)
            rw [hr hmore, List.findSome?_cons, List.findSome?_cons, hconsole, husable]
            cases first_gop <;> rfl
        · rw [if_pos]
          · exact hskip fun h => hformat h.2
          · rw [Gop.Usable, not_and_or, not_not, Int.not_lt] at hformat
            exact hformat
      · rw [if_pos hstatus]
        exact hskip fun h => hstatus h.1

theorem Smallest.succ {gop : Gop} {n m area : ℕ} (h : D.Smallest gop n m area)
    (hn : ∀ info, D.info gop.addr n = some info → area ≤ info.area) :
    D.Smallest gop (n + 1) m area := by
  refine ⟨h.offered.imp_right fun ⟨hm, hrest⟩ => ⟨Nat.lt_succ_of_lt hm, hrest⟩, fun i hi => ?_⟩
  obtain hlt | rfl := Nat.lt_succ_iff_lt_or_eq.mp hi
  · exact h.least i hlt
  · exact hn

theorem Smallest.replace {gop : Gop} {n m area : ℕ} {info : ModeInfo}
    (h : D.Smallest gop n m area) (hinfo : D.info gop.addr n = some info)
    (hlt : info.area < area) : D.Smallest gop (n + 1) n info.area := by
  have hcurrent : area ≤ gop.mode.info.area := by
    obtain ⟨-, rfl⟩ | ⟨-, hless, -⟩ := h.offered
    · exact Nat.le_refl _
    · exact Nat.le_of_lt hless
  refine ⟨.inr ⟨Nat.lt_succ_self n, Nat.lt_of_lt_of_le hlt hcurrent, info, hinfo, rfl⟩,
    fun i hi info' hinfo' => ?_⟩
  obtain hi | rfl := Nat.lt_succ_iff_lt_or_eq.mp hi
  · exact Nat.le_trans (Nat.le_of_lt hlt) (h.least i hi info' hinfo')
  · obtain rfl := Option.some.inj (hinfo.symm.trans hinfo')
    exact Nat.le_refl _

/-- What the answer to `query_mode` for mode `i` makes of the mode found before. -/
theorem Describes.smallest {gop : Gop} {i : ℕ} {a : Answer} {next : ℕ × ℕ}
    (h : D.Describes (.query_mode gop.addr i, a)) (hnext : D.Smallest gop i next.2 next.1) :
    (a.status ≠ EFI_SUCCESS → D.Smallest gop (i + 1) next.2 next.1) ∧
      (a.status = EFI_SUCCESS → D.Smallest gop (i + 1)
        (if a.info.area < next.1 then (a.info.area, i) else next).2
        (if a.info.area < next.1 then (a.info.area, i) else next).1) := by
  rw [Describes] at h
  cases hinfo : D.info gop.addr i with
  | none =>
      rw [hinfo] at h
      exact ⟨fun _ => hnext.succ fun _ hsome => (by rw [hinfo] at hsome; cases hsome),
        fun hstatus => absurd hstatus h⟩
  | some info =>
      rw [hinfo] at h
      obtain ⟨hstatus, rfl⟩ := h
      refine ⟨fun hfail => absurd hstatus hfail, fun _ => ?_⟩
      split
      · next hlt => exact hnext.replace hinfo hlt
      · next hge =>
          refine hnext.succ fun info' hsome => ?_
          obtain rfl := Option.some.inj (hinfo.symm.trans hsome)
          exact Nat.not_lt.mp hge

/-- Each turn looks at one mode more. -/
theorem queryLoop_converses {gop : Gop} (turns i : ℕ) (next : ℕ × ℕ) :
    Converses firmware (fun r more => D.Smallest gop i next.2 next.1 →
      (∀ c ∈ more, D.Describes c) → D.Smallest gop (i + turns) r.2 r.1)
      (queryLoop firmware gop turns i next) := by
  induction turns generalizing i next with
  | zero => exact .pure fun h _ => h
  | succ turns ih =>
      rw [queryLoop, show i + (turns + 1) = i + 1 + turns by omega]
      refine .ask_bind fun a => ?_
      by_cases hstatus : a.status = EFI_SUCCESS
      · rw [if_neg (not_not.mpr hstatus)]
        refine (ih (i + 1) _).mono fun r more hr hnext hall => ?_
        obtain ⟨ha, hmore⟩ := List.forall_mem_cons.mp hall
        exact hr ((ha.smallest hnext).2 hstatus) hmore
      · rw [if_pos hstatus]
        refine (ih (i + 1) _).mono fun r more hr hnext hall => ?_
        obtain ⟨ha, hmore⟩ := List.forall_mem_cons.mp hall
        exact hr ((ha.smallest hnext).1 hstatus) hmore

variable (D) in
/-- What the interface shows in the smallest mode. -/
def Settled (gop : Gop) (mode : GopMode) : Prop :=
  ∃ m area, D.Smallest gop gop.mode.max_mode m area ∧
    mode = if m = gop.mode.mode then gop.mode else D.shown gop.addr m

theorem efiSetMode_converses (gop : Gop) :
    Converses firmware (fun r more => (∀ c ∈ more, D.Describes c) → D.Settled gop r)
      (efiSetMode firmware gop) := by
  have hstart : D.Smallest gop 0 gop.mode.mode gop.mode.info.area :=
    ⟨.inl ⟨rfl, rfl⟩, fun i hi => absurd hi (Nat.not_lt_zero i)⟩
  refine (queryLoop_converses (D := D) gop.mode.max_mode 0 _).bind fun next queried hnext => ?_
  rw [Nat.zero_add] at hnext
  by_cases hsame : gop.mode.mode = next.2
  · rw [if_neg (not_not.mpr hsame)]
    refine .pure fun hall => ⟨_, _, hnext hstart fun c hc => hall c (by simp [hc]), ?_⟩
    rw [if_pos hsame.symm]
  · rw [if_pos hsame]
    refine .ask_bind fun a => .pure fun hall => ?_
    refine ⟨_, _, hnext hstart fun c hc => hall c (by simp [hc]), ?_⟩
    rw [if_neg fun h => hsame h.symm]
    exact hall (.set_mode gop.addr next.2, a) (by simp)

variable (D) in
/-- What becomes of a screen: it is the one that is set, if there is a usable output, and
otherwise it has no framebuffer. -/
def Fills (si : ScreenInfo) (r : ℕ × ScreenInfo) : Prop :=
  match D.handles.bind D.chosen with
  | none => r.1 ≠ EFI_SUCCESS ∧ r.2 = { si with framebuffer := 0 }
  | some gop => r.1 = EFI_SUCCESS ∧ ∃ mode, D.Settled gop mode ∧ r.2 = mode.screen

theorem efiSetupGop_converses (si : ScreenInfo) (handles : List ℕ) :
    Converses firmware (fun r more => (∀ c ∈ more, D.Describes c) →
      match D.chosen handles with
      | none => r.1 ≠ EFI_SUCCESS ∧ r.2 = si
      | some gop => r.1 = EFI_SUCCESS ∧ ∃ mode, D.Settled gop mode ∧ r.2 = mode.screen)
      (efiSetupGop firmware si handles) := by
  refine (efiFindGop_converses (D := D) handles none).bind fun found asked hfound => ?_
  cases found with
  | none =>
      refine .pure fun hall => ?_
      rw [← show none = D.chosen handles from hfound fun c hc => hall c (by simp [hc])]
      exact ⟨(by decide : EFI_NOT_FOUND ≠ EFI_SUCCESS), rfl⟩
  | some gop =>
      refine (efiSetMode_converses (D := D) gop).bind fun mode set hmode => .pure fun hall => ?_
      rw [← show some gop = D.chosen handles from hfound fun c hc => hall c (by simp [hc])]
      exact ⟨rfl, mode, hmode fun c hc => hall c (by simp [hc]), rfl⟩

theorem setupGraphics_converses (si : ScreenInfo) :
    Converses firmware (fun r more => (∀ c ∈ more, D.Describes c) → D.Fills si r)
      (setupGraphics firmware si) := by
  refine .ask_bind fun a => ?_
  by_cases hstatus : a.status = EFI_SUCCESS
  · rw [if_pos hstatus]
    refine (efiSetupGop_converses (D := D) _ _).bind fun r asked hr => .ask_bind fun _ =>
      .pure fun hall => ?_
    have hlocated := hall (.locate_handle_buffer _, a) List.mem_cons_self
    rw [Describes] at hlocated
    rw [Fills]
    cases hhandles : D.handles with
    | none =>
        rw [hhandles] at hlocated
        exact absurd hstatus hlocated
    | some handles =>
        rw [hhandles] at hlocated
        rw [hlocated.2] at hr
        exact hr fun c hc => hall c (by simp [hc])
  · rw [if_neg hstatus]
    refine .pure fun hall => ?_
    have hlocated := hall _ List.mem_cons_self
    rw [Describes] at hlocated
    rw [Fills]
    cases hhandles : D.handles with
    | none => exact ⟨hstatus, rfl⟩
    | some handles =>
        rw [hhandles] at hlocated
        exact absurd hlocated.1 hstatus

/-- Where every call is answered from the displays, the screen is filled in from them. -/
theorem setupGraphics_fills {si : ScreenInfo} {trace calls : Trace}
    (hrun : ((setupGraphics firmware si).run trace).2 = trace ++ calls)
    (h : ∀ c ∈ calls, D.Describes c) : D.Fills si ((setupGraphics firmware si).run trace).1 := by
  have hconverses : Converses firmware (fun r more => (∀ c ∈ more, D.Describes c) → D.Fills si r)
      (setupGraphics firmware si) := setupGraphics_converses si
  obtain ⟨more, hmore, -, hfills⟩ := hconverses trace
  obtain rfl := List.append_cancel_left (hmore.symm.trans hrun)
  exact hfills h

end Displays

/-- Two outputs, of which the second has the console. -/
def twoDisplays : Displays where
  handles := some [7, 9]
  output
    | 7 => some ⟨0x70, ⟨1, 0, ⟨1024, 768, 1, 1024⟩, 0xc0000000, 0x300000⟩⟩
    | 9 => some ⟨0x90, ⟨2, 0, ⟨1920, 1080, 1, 1920⟩, 0xd0000000, 0x7e9000⟩⟩
    | _ => none
  conOut handle := handle == 9
  info
    | 0x90, 0 => some ⟨1920, 1080, 1, 1920⟩
    | 0x90, 1 => some ⟨640, 480, 1, 640⟩
    | _, _ => none
  shown
    | _, _ => ⟨2, 1, ⟨640, 480, 1, 640⟩, 0xd0000000, 0x12c000⟩

/-- The answers of such a firmware: a status, an address, what the interface shows, and a mode. -/
def twoAnswers : Firmware := fun n =>
  let answer (status addr : ℕ) (mode : GopMode) (info : ModeInfo) : Answer :=
    ⟨⟨status, ⟨0, 0, 0, 0, []⟩, addr⟩, [7, 9], mode, info⟩
  let small : GopMode := ⟨1, 0, ⟨1024, 768, 1, 1024⟩, 0xc0000000, 0x300000⟩
  let large : GopMode := ⟨2, 0, ⟨1920, 1080, 1, 1920⟩, 0xd0000000, 0x7e9000⟩
  let set : GopMode := ⟨2, 1, ⟨640, 480, 1, 640⟩, 0xd0000000, 0x12c000⟩
  match n with
  | 1 => answer EFI_SUCCESS 0x70 small small.info
  | 2 => answer EFI_NOT_FOUND 0 small small.info
  | 3 => answer EFI_SUCCESS 0x90 large large.info
  | 5 => answer EFI_SUCCESS 0 large large.info
  | 6 => answer EFI_SUCCESS 0 large set.info
  | _ => answer EFI_SUCCESS 0 set set.info

theorem setupGraphics_fills_two :
    twoDisplays.Fills ⟨1, 0, 0, 0, 0⟩ ((setupGraphics twoAnswers ⟨1, 0, 0, 0, 0⟩).run []).1 := by
  have hcalls : ((setupGraphics twoAnswers ⟨1, 0, 0, 0, 0⟩).run []).2 = [] ++
      [(.locate_handle_buffer EFI_GRAPHICS_OUTPUT_PROTOCOL_GUID, twoAnswers 0),
        (.handle_protocol 7 EFI_GRAPHICS_OUTPUT_PROTOCOL_GUID, twoAnswers 1),
        (.handle_protocol 7 EFI_CONSOLE_OUT_DEVICE_GUID, twoAnswers 2),
        (.handle_protocol 9 EFI_GRAPHICS_OUTPUT_PROTOCOL_GUID, twoAnswers 3),
        (.handle_protocol 9 EFI_CONSOLE_OUT_DEVICE_GUID, twoAnswers 4),
        (.query_mode 0x90 0, twoAnswers 5), (.query_mode 0x90 1, twoAnswers 6),
        (.set_mode 0x90 1, twoAnswers 7), (.boot (.free_pool 0), twoAnswers 8)] := rfl
  have hguid : EFI_CONSOLE_OUT_DEVICE_GUID ≠ EFI_GRAPHICS_OUTPUT_PROTOCOL_GUID := by decide
  refine Displays.setupGraphics_fills hcalls ?_
  simp [Displays.Describes, twoDisplays, twoAnswers, hguid, EFI_SUCCESS, EFI_NOT_FOUND]

example : ((setupGraphics twoAnswers ⟨1, 0, 0, 0, 0⟩).run []).1 =
    (EFI_SUCCESS, ⟨0xd0000000, 0x12c000, 640, 480, 640⟩) := by
  decide

end Cyanea.Efi
