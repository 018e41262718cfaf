/-
# Ranges that the direct mapping cannot show

The direct mapping has room for 510 GiB. `physical_mapping_init` asserts that the range it
is to map ends below the kernel's window, but compares virtual addresses, which start again
at zero from 512 GiB on. A range that ends there passes the assertion: it is skipped when it
begins below 512 GiB, and mapped in the lower half of the addresses when it does not.
-/

import Cyanea.Mm.Builders

namespace Cyanea.Mm

open Cyanea.Math (Ends)
open Cyanea.Math.Simulation (ok_bind error_bind)
open X86

section Mapping

variable {img : Image} {s s' : InitTables} {start rangeEnd : ℕ} {ps : PageSize}

/-- The address was not translated before, and is translated now. -/
structure MapsTo (img : Image) (s s' : InitTables) (vaddr paddr : ℕ) : Prop where
  before : img.walk s vaddr = none
  after : img.walk s' vaddr = some paddr

/-- The call stops at its overlap assertion; or it maps every page of its range, and nothing
outside of the direct mapping. -/
def StaysInWindow (img : Image) (s : InitTables) (start rangeEnd : ℕ) (ps : PageSize) : Prop :=
  img.physicalMappingInit start rangeEnd ps s = .error .overlap ∨
    ∃ s', img.physicalMappingInit start rangeEnd ps s = .ok s' ∧
      (∀ paddr, start ≤ paddr → paddr < rangeEnd → MapsTo img s s' (va paddr) paddr) ∧
      ∀ {vaddr paddr}, MapsTo img s s' vaddr paddr → InDirectMap vaddr

/-- The direct mapping is empty: its part of the root's last entry has no present entry. -/
def DirectEmpty (img : Image) (s : InitTables) : Prop :=
  (s.mem (img.pa img.init_top_pgt) 511).testBit 0 = false ∨
    ∃ c, entry 3 (s.mem (img.pa img.init_top_pgt) 511) = .table c ∧
      ∀ i < 510, (s.mem c i).testBit 0 = false

/-- Nothing of the direct mapping is mapped yet, and the other entries of the root are empty. -/
structure Fresh (img : Image) (s : InitTables) : Prop where
  laid : ∃ f, Laid img s f ∧ f.place (img.pa img.init_top_pgt) = some (3, 0)
  other : ∀ i < 511, (s.mem (img.pa img.init_top_pgt) i).testBit 0 = false
  direct : DirectEmpty img s

/-! ## The assertion -/

theorem entryLoop_ne_overlap {mask size w : ℕ} {body : ℕ → ℕ → InitTables → Except Stop InitTables}
    (hbody : ∀ i v s, body i v s ≠ .error .overlap) (turns i v : ℕ) (s : InitTables) :
    Image.entryLoop mask size w body turns i v s ≠ .error .overlap := by
  induction turns generalizing i v s with
  | zero => simp [Image.entryLoop]
  | succ turns ih =>
      rw [Image.entryLoop]
      split
      · cases hturn : body i v s with
        | ok s₁ => exact ih _ _ s₁
        | error stop =>
            intro heq
            rw [error_bind] at heq
            exact hbody i v s (hturn.trans heq)
      · simp

/-- Filling a table never stops at the overlap assertion. -/
def NoOverlap (build : Image.Builder) : Prop :=
  ∀ table start rangeEnd ps s, build table start rangeEnd ps s ≠ .error .overlap

theorem physicalPtInit_noOverlap : NoOverlap img.physicalPtInit := by
  intro table start rangeEnd ps s
  refine entryLoop_ne_overlap (fun i v s => ?_) _ _ _ s
  rw [Image.pageTurn]
  split <;> simp

theorem newTable_ne_overlap {init : Image.Builder} (hinit : NoOverlap init) (table w i v : ℕ) :
    img.newTable init table w ps i v s ≠ .error .overlap := by
  rw [Image.newTable, Image.allocPages_one]
  split
  · rw [ok_bind]
    dsimp only
    cases hrun : init (img.brkPage s.next_page) (img.pa v) (img.pa w) ps
        ⟨img.clear s.mem (img.brkPage s.next_page), s.next_page + 1⟩ with
    | ok s₂ => simp
    | error stop =>
        intro heq
        rw [error_bind] at heq
        exact hinit _ _ _ _ _ (hrun.trans heq)
  · simp

theorem largeTurn_ne_overlap {own : PageSize} {largeMask : ℕ} {init : Image.Builder}
    (hinit : NoOverlap init) (table w i v : ℕ) :
    img.largeTurn own largeMask init table w ps i v s ≠ .error .overlap := by
  rw [Image.largeTurn]
  split
  · split
    · simp
    · split
      · simp
      · exact hinit _ _ _ _ _
  · split
    · simp
    · exact newTable_ne_overlap hinit table w i v

theorem physicalPmdInit_noOverlap : NoOverlap img.physicalPmdInit := fun _ _ _ _ s =>
  entryLoop_ne_overlap (fun _ _ _ => largeTurn_ne_overlap physicalPtInit_noOverlap _ _ _ _) _ _ _ s

theorem physicalPudInit_noOverlap : NoOverlap img.physicalPudInit := fun _ _ _ _ s =>
  entryLoop_ne_overlap (fun _ _ _ => largeTurn_ne_overlap physicalPmdInit_noOverlap _ _ _ _) _ _ _ s

/-- Only the assertion stops a call with `overlap`. -/
theorem physicalMappingInit_overlap_iff :
    img.physicalMappingInit start rangeEnd ps s = .error .overlap ↔
      START_KERNEL_map ≤ va rangeEnd := by
  by_cases hlt : va rangeEnd < START_KERNEL_map
  · rw [Image.physicalMappingInit_below hlt]
    refine iff_of_false (entryLoop_ne_overlap (fun i v s => ?_) _ _ _ s) (not_le.mpr hlt)
    rw [Image.rootTurn]
    split
    · exact physicalPudInit_noOverlap _ _ _ _ _
    · exact newTable_ne_overlap physicalPudInit_noOverlap _ _ _ _
  · have hge := not_lt.mp hlt
    exact iff_of_true (Image.physicalMappingInit_above hge) hge

/-! ## The window -/

theorem walk_of_inDirectMap {x : ℕ} (hx : InDirectMap x) :
    img.walk s x = translate s.mem 3 (img.pa img.init_top_pgt) x := by
  have hcanonical : Canonical x := by
    obtain ⟨hlow, hhigh⟩ := hx
    rw [PAGE_OFFSET_eq] at hlow
    rw [START_KERNEL_map_eq] at hhigh
    exact .inr (by omega)
  rw [Image.walk, X86.walk, if_pos hcanonical]

theorem span_inDirectMap {x : ℕ} (hend : rangeEnd < DIRECT_SIZE)
    (hx : x ∈ Span (va start) (va rangeEnd) 4 0) (hlt : start < rangeEnd) : InDirectMap x :=
  ⟨(inDirectMap_va (hlt.trans hend)).1.trans hx.1, hx.2.1.trans (inDirectMap_va hend).2⟩

/-- An address that shares its page with one of the direct mapping belongs to it. -/
theorem inDirectMap_of_block {a x : ℕ} (ha : InDirectMap a) (hx : Canonical x)
    (hblock : block 0 a = block 0 x) : InDirectMap x := by
  obtain ⟨hlow, hhigh⟩ := ha
  rw [InDirectMap, PAGE_OFFSET_eq, START_KERNEL_map_eq]
  rw [PAGE_OFFSET_eq] at hlow
  rw [START_KERNEL_map_eq] at hhigh
  simp only [block, pageShift] at hblock
  obtain hx | hx := hx <;> omega

theorem over_root {f : Forest} (hroot : f.place (img.pa img.init_top_pgt) = some (3, 0)) (x : ℕ) :
    f.Over (img.pa img.init_top_pgt) 3 x := by
  rw [Forest.Over, block_four, hroot]

/-- What a call has filled, it has mapped; and it has mapped nothing else. -/
theorem Filled.maps {f : Forest} {R : Set ℕ} (h : Filled img f 3 (img.pa img.init_top_pgt) R s')
    (hlaid : Laid img s f) (hroot : f.place (img.pa img.init_top_pgt) = some (3, 0))
    (hin : ∀ a ∈ R, InDirectMap a) (hvacant : ∀ a ∈ R, Vacant s.mem 0 3 (img.pa img.init_top_pgt) a) :
    (∀ a ∈ R, MapsTo img s s' a (a - PAGE_OFFSET)) ∧
      ∀ {vaddr paddr}, MapsTo img s s' vaddr paddr → ∃ a ∈ R, block 0 a = block 0 vaddr := by
  obtain ⟨g, hlaid', hext, -, hmaps⟩ := h
  constructor
  · intro a ha
    refine ⟨?_, ?_⟩
    · rw [walk_of_inDirectMap (hin a ha), (hvacant a ha).translate]
    · rw [walk_of_inDirectMap (hin a ha), ← hlaid'.mem, hmaps a ha]
  · rintro vaddr paddr ⟨hbefore, hafter⟩
    by_contra hnone
    push Not at hnone
    have hsame := hext.translate_untouched (over_root hroot vaddr) hnone
    rw [hlaid.mem, hlaid'.mem] at hsame
    rw [Image.walk, X86.walk, hsame] at hafter
    rw [Image.walk, X86.walk, hafter] at hbefore
    cases hbefore

theorem DirectEmpty.vacant (h : DirectEmpty img s) {x p : ℕ} (hx : InDirectMap x) (hp : p ≤ 2) :
    Vacant s.mem p 3 (img.pa img.init_top_pgt) x := by
  have hindex : index 3 x = 511 ∧ index 2 x < 510 := by
    obtain ⟨hlow, hhigh⟩ := hx
    rw [PAGE_OFFSET_eq] at hlow
    rw [START_KERNEL_map_eq] at hhigh
    simp only [index, pageShift]
    omega
  obtain habsent | ⟨c, hentry, hempty⟩ := h
  · exact vacant_of_absent (hp.trans (by decide)) (by rw [hindex.1, habsent])
  · refine vacant_iff.mpr ⟨hp.trans (by decide), .inr ⟨2, c, rfl, by rw [hindex.1, hentry], ?_⟩⟩
    exact vacant_of_absent hp (hempty _ hindex.2)

/-- Below the kernel's window the call maps its range, and only that. -/
theorem Fresh.staysInWindow (h : Fresh img s) (hlt : start < rangeEnd) (hend : rangeEnd < DIRECT_SIZE)
    (hstart : 2 ^ pageShift ps.level ∣ start) (hrangeEnd : 2 ^ pageShift ps.level ∣ rangeEnd)
    (henough : img.physicalMappingInit start rangeEnd ps s ≠ .error .notEnoughMemory) :
    StaysInWindow img s start rangeEnd ps := by
  obtain ⟨f, hlaid, hroot⟩ := h.laid
  have hin : ∀ a ∈ Span (va start) (va rangeEnd) 4 0, InDirectMap a :=
    fun a ha => span_inDirectMap hend ha hlt
  have hps : ps.level ≤ 2 := by
    cases ps <;> decide
  have hvacant : ∀ a ∈ Span (va start) (va rangeEnd) 4 0,
      Vacant s.mem ps.level 3 (img.pa img.init_top_pgt) a :=
    fun a ha => h.direct.vacant (hin a ha) hps
  have hends : Ends (Filled img f 3 (img.pa img.init_top_pgt) (Span (va start) (va rangeEnd) 4 0))
      (· = .notEnoughMemory) (img.physicalMappingInit start rangeEnd ps s) :=
    physicalMappingInit_ends hlaid hroot hlt hend hstart hrangeEnd hvacant
  cases hrun : img.physicalMappingInit start rangeEnd ps s with
  | error stop =>
      rw [hrun] at hends
      exact absurd (hrun.trans (congrArg Except.error hends)) henough
  | ok s' =>
      rw [hrun] at hends
      obtain ⟨hmaps, honly⟩ := Filled.maps hends hlaid hroot hin
        fun a ha => h.direct.vacant (hin a ha) (Nat.zero_le 2)
      refine .inr ⟨s', hrun, fun paddr hle hlt' => ?_, fun {vaddr paddr} hnew => ?_⟩
      · have hsize := DIRECT_SIZE_eq
        have hva : va paddr = PAGE_OFFSET + paddr := va_eq (by omega)
        have hmapped := hmaps (va paddr) ⟨?_, ?_, block_four _⟩
        · rwa [hva, Nat.add_sub_cancel_left, ← hva] at hmapped
        · rw [hva, va_eq (by omega)]
          omega
        · rw [hva, va_eq (by omega)]
          omega
      · obtain ⟨a, ha, hblock⟩ := honly hnew
        refine inDirectMap_of_block (hin a ha) ?_ hblock
        by_contra hcanonical
        have hafter := hnew.after
        rw [Image.walk, X86.walk, if_neg hcanonical] at hafter
        cases hafter

/-- A range across the wrap is skipped. -/
theorem physicalMappingInit_skips (hstart : start < 2 ^ 39) (hend : 2 ^ 39 ≤ rangeEnd)
    (hlt : rangeEnd < 2 ^ 52) : img.physicalMappingInit start rangeEnd ps s = .ok s := by
  have hw : va rangeEnd = rangeEnd - 2 ^ 39 := va_wraps hend (by omega)
  have hv : va start = PAGE_OFFSET + start := va_eq hstart
  rw [Image.physicalMappingInit_below (by rw [hw, START_KERNEL_map_eq]; omega)]
  cases PTRS_PER_PGD - pgdIndex (va start) with
  | zero => rfl
  | succ turns =>
      rw [Image.entryLoop, if_neg]
      rw [hv, hw, PAGE_OFFSET_eq]
      omega

/-- When the end of the range wraps around, the assertion does not stop the call. -/
theorem not_staysInWindow (hlt : start < rangeEnd) (hwraps : 2 ^ 39 ≤ rangeEnd)
    (hend : rangeEnd < 2 ^ 52) : ¬ StaysInWindow img s start rangeEnd ps := by
  have hw : va rangeEnd = rangeEnd - 2 ^ 39 := va_wraps hwraps (by omega)
  rintro (hstop | ⟨s', hrun, hmaps, hwindow⟩)
  · rw [physicalMappingInit_overlap_iff, hw, START_KERNEL_map_eq] at hstop
    omega
  · have hfirst := hmaps start (Nat.le_refl _) hlt
    by_cases hlow : start < 2 ^ 39
    · rw [physicalMappingInit_skips hlow hwraps hend] at hrun
      obtain rfl := Except.ok.inj hrun
      have hafter := hfirst.after
      rw [hfirst.before] at hafter
      cases hafter
    · have hin := (hwindow hfirst).1
      rw [va_wraps (by omega) (by omega), PAGE_OFFSET_eq] at hin
      omega

/-- The direct mapping is not left exactly if the end of the range does not wrap around. -/
theorem physicalMappingInit_stays_iff (hfresh : Fresh img s) (hlt : start < rangeEnd)
    (hend : rangeEnd < 2 ^ 52) (hstart : 2 ^ pageShift ps.level ∣ start)
    (hrangeEnd : 2 ^ pageShift ps.level ∣ rangeEnd)
    (henough : img.physicalMappingInit start rangeEnd ps s ≠ .error .notEnoughMemory) :
    StaysInWindow img s start rangeEnd ps ↔ rangeEnd + PAGE_OFFSET < 2 ^ 64 := by
  have hsize := DIRECT_SIZE_eq
  rw [PAGE_OFFSET_eq]
  constructor
  · intro hstays
    by_contra hwraps
    exact not_staysInWindow hlt (by omega) hend hstays
  · intro hbelow
    by_cases hdirect : rangeEnd < DIRECT_SIZE
    · exact hfresh.staysInWindow hlt hdirect hstart hrangeEnd henough
    · refine .inl (physicalMappingInit_overlap_iff.mpr ?_)
      rw [va_eq (by omega), PAGE_OFFSET_eq, START_KERNEL_map_eq]
      omega

end Mapping

/-! ## An image -/

/-- A kernel with 64 pages for tables, loaded where it was linked. -/
def linkedImage : Image where
  phys_base := 0
  init_top_pgt := START_KERNEL_map + 0x1000000
  brk_base := START_KERNEL_map + 0x2000000
  BRK_ALLOC_PAGES := 64
  brk_kernel := by decide
  brk_limit := by decide
  brk_aligned := by decide
  brk_low := by decide

def emptyTables : InitTables := ⟨fun _ _ => 0, 0⟩

/-- The root is the only table. -/
def emptyForest : Forest where
  mem := emptyTables.mem
  place := fun b => if b = 0x1000000 then some (3, 0) else none
  level_le {b level q} hplace := by
    obtain ⟨-, hroot⟩ := Option.ite_none_right_eq_some.mp hplace
    cases hroot
    exact Nat.le_refl 3
  child {b level q i c} _ _ hentry := by
    rw [show emptyTables.mem b i = 0 from rfl, entry_zero] at hentry
    cases hentry

theorem pa_root_linkedImage : linkedImage.pa linkedImage.init_top_pgt = 0x1000000 := by
  decide +kernel

theorem pa_brkPage_linkedImage {j : ℕ} (hj : j < linkedImage.BRK_ALLOC_PAGES) :
    linkedImage.pa (linkedImage.brkPage j) = 0x2000000 + 4096 * j := by
  have hbase : linkedImage.pa linkedImage.brk_base = 0x2000000 := by decide +kernel
  rw [Image.pa_brkPage hj, hbase]
  rfl

theorem fresh_emptyTables : Fresh linkedImage emptyTables where
  laid := by
    refine ⟨emptyForest, ⟨rfl, fun {b p} hplace => ?_, fun {j} _ hj => ?_⟩, ?_⟩
    · obtain ⟨rfl, -⟩ := Option.ite_none_right_eq_some.mp hplace
      decide
    · refine if_neg ?_
      rw [pa_brkPage_linkedImage hj]
      omega
    · rw [pa_root_linkedImage]
      rfl
  other _ _ := Nat.zero_testBit 0
  direct := .inl (Nat.zero_testBit 0)

theorem stays_firstPage : StaysInWindow linkedImage emptyTables 0 (2 ^ 12) .PAGE_SIZE_4K := by
  refine (physicalMappingInit_stays_iff fresh_emptyTables (by decide) (by decide) (by decide)
    (by decide) fun hstop => ?_).mpr (by decide)
  have hruns : (linkedImage.physicalMappingInit 0 (2 ^ 12) .PAGE_SIZE_4K emptyTables).isOk := by
    rw [Image.physicalMappingInit_below (by decide)]
    decide +kernel
  rw [hstop] at hruns
  cases hruns

/-- A page at 512 GiB is mapped at the address zero. -/
theorem not_stays_wrapped : Fresh linkedImage emptyTables ∧
    (linkedImage.physicalMappingInit (2 ^ 39) (2 ^ 39 + 2 ^ 12) .PAGE_SIZE_4K emptyTables).map
      (fun s => linkedImage.walk s 0) = .ok (some (2 ^ 39)) ∧
    ¬ StaysInWindow linkedImage emptyTables (2 ^ 39) (2 ^ 39 + 2 ^ 12) .PAGE_SIZE_4K := by
  refine ⟨fresh_emptyTables, ?_, not_staysInWindow (by decide) (by decide) (by decide)⟩
  rw [Image.physicalMappingInit_below (by decide)]
  decide +kernel

end Cyanea.Mm
