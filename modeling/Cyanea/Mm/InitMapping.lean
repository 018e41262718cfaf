/-
# The direct mapping of the memory

`init_range_memory_mapping` fills the direct mapping range by range and piece by piece. The
pieces do not meet, and a piece of large pages is made of whole large pages. So a piece finds
nothing mapped in its way, however far the pieces before it have filled the tables they
share; and what they mapped stays.
-/

import Cyanea.Mm.DirectMapping
import Cyanea.Mm.MappedRange

namespace Cyanea.Mm

open Cyanea.Math (Ends)
open Cyanea.Math.Simulation (ok_bind error_bind)
open Memory (eightPages Memblock PfnRange Walks Listed forEachMemPfnRange pfnDown pfnDown_eq clamp)
open X86

/-- How `init_range_memory_mapping` ends without returning. -/
inductive InitStop where
  | walk (fault : Memory.Fault)
  | mapping (stop : Stop)
  deriving DecidableEq, Repr

/-- The calls of `physical_mapping_init`, one after the other. -/
def Image.mapCalls (img : Image) : List MappingCall → InitTables → Except Stop InitTables
  | [], s => .ok s
  | c :: calls, s => do
      let s ← img.physicalMappingInit c.start c.rangeEnd c.ps s
      img.mapCalls calls s

/-- `init_range_memory_mapping` with what it does to the tables. Which calls it makes does not
depend on what the calls do. -/
def Image.initTables (img : Image) (m : Memblock) (range_start range_end : ℕ) (mapped : Mapped)
    (s : InitTables) : Except InitStop (InitTables × Mapped) :=
  match initRangeMemoryMapping m range_start range_end mapped with
  | .error fault => .error (.walk fault)
  | .ok (calls, mapped) =>
    match img.mapCalls calls s with
    | .error stop => .error (.mapping stop)
    | .ok s => .ok (s, mapped)

/-! ## The calls -/

/-- Calls that ascend without meeting, each aligned to its pages, below the kernel's window. -/
structure Schedule (calls : List MappingCall) : Prop where
  nonempty : ∀ c ∈ calls, c.start < c.rangeEnd
  low : ∀ c ∈ calls, c.rangeEnd < DIRECT_SIZE
  dvd_start : ∀ c ∈ calls, 2 ^ pageShift c.ps.level ∣ c.start
  dvd_end : ∀ c ∈ calls, 2 ^ pageShift c.ps.level ∣ c.rangeEnd
  ascending : calls.Pairwise fun c c' => c.rangeEnd ≤ c'.start

theorem Schedule.tail {c : MappingCall} {calls : List MappingCall} (h : Schedule (c :: calls)) :
    Schedule calls where
  nonempty d hd := h.nonempty d (List.mem_cons_of_mem c hd)
  low d hd := h.low d (List.mem_cons_of_mem c hd)
  dvd_start d hd := h.dvd_start d (List.mem_cons_of_mem c hd)
  dvd_end d hd := h.dvd_end d (List.mem_cons_of_mem c hd)
  ascending := h.ascending.of_cons

/-- The addresses at which a call maps. -/
def MappingCall.span (c : MappingCall) : Set ℕ := Span (va c.start) (va c.rangeEnd) 4 0

/-- The addresses at which one of the calls maps. -/
def spans (calls : List MappingCall) : Set ℕ := {a | ∃ c ∈ calls, a ∈ c.span}

theorem spans_nil : spans [] = ∅ := by
  ext a
  simp [spans]

theorem mem_spans_cons {c : MappingCall} {calls : List MappingCall} {a : ℕ} :
    a ∈ spans (c :: calls) ↔ a ∈ c.span ∨ a ∈ spans calls := by
  simp [spans]

theorem mem_span_iff {c : MappingCall} (hlt : c.start < c.rangeEnd) (hlow : c.rangeEnd < DIRECT_SIZE)
    {a : ℕ} : a ∈ c.span ↔ PAGE_OFFSET + c.start ≤ a ∧ a < PAGE_OFFSET + c.rangeEnd := by
  have hsize := DIRECT_SIZE_eq
  rw [MappingCall.span, Span, va_eq (by omega), va_eq (by omega)]
  exact ⟨fun h => ⟨h.1, h.2.1⟩, fun h => ⟨h.1, h.2, block_four a⟩⟩

/-- A block of a call's pages does not reach before the call. -/
theorem block_ne {level start a x : ℕ} (hlevel : level ≤ 3) (hdvd : 2 ^ pageShift level ∣ start)
    (hx : PAGE_OFFSET ≤ x) (hbefore : x < PAGE_OFFSET + start) (hle : PAGE_OFFSET + start ≤ a)
    (hlt : a < 2 ^ 64) : block level x ≠ block level a := by
  rw [PAGE_OFFSET_eq] at hx hbefore hle
  obtain rfl | rfl | rfl | rfl := le_three hlevel <;>
    simp only [block, pageShift] at hdvd ⊢ <;> omega

section Run

variable {img : Image} {s : InitTables} {f : Forest} {calls : List MappingCall}

theorem level_le_two (ps : PageSize) : ps.level ≤ 2 := by
  cases ps <;> decide

/-- The calls map their spans, if these are vacant to begin with and the pages last. -/
theorem mapCalls_ends (hlaid : Laid img s f)
    (hroot : f.place (img.pa img.init_top_pgt) = some (3, 0)) (hcalls : Schedule calls)
    (hvacant : ∀ c ∈ calls, ∀ a ∈ c.span,
      Vacant s.mem c.ps.level 3 (img.pa img.init_top_pgt) a) :
    Ends (Filled img f 3 (img.pa img.init_top_pgt) (spans calls)) (· = .notEnoughMemory)
      (img.mapCalls calls s) := by
  induction calls generalizing s f with
  | nil =>
      exact filled_empty hlaid spans_nil
  | cons c calls ih =>
      have hc := List.mem_cons_self (a := c) (l := calls)
      rw [Image.mapCalls]
      refine (physicalMappingInit_ends hlaid hroot (hcalls.nonempty c hc) (hcalls.low c hc)
        (hcalls.dvd_start c hc) (hcalls.dvd_end c hc) (hvacant c hc)).bind ?_
      rintro s₁ ⟨g, hg⟩
      have hvacant₁ : ∀ d ∈ calls, ∀ a ∈ d.span,
          Vacant s₁.mem d.ps.level 3 (img.pa img.init_top_pgt) a := by
        intro d hd a ha
        have hd' := List.mem_cons_of_mem c hd
        have hbefore := hvacant d hd' a ha
        rw [← hlaid.mem] at hbefore
        rw [← hg.laid.mem]
        refine hg.grows.vacant (over_root hroot a) (fun x hx => ?_) hbefore
        obtain ⟨hle, hlt⟩ := (mem_span_iff (hcalls.nonempty d hd') (hcalls.low d hd')).mp ha
        obtain ⟨hle', hlt'⟩ := (mem_span_iff (hcalls.nonempty c hc) (hcalls.low c hc)).mp hx
        have horder := (List.pairwise_cons.mp hcalls.ascending).1 d hd
        have hlow := hcalls.low d hd'
        have hkernel : PAGE_OFFSET + DIRECT_SIZE < 2 ^ 64 := by decide
        exact block_ne ((level_le_two d.ps).trans (by decide)) (hcalls.dvd_start d hd')
          ((Nat.le_add_right _ _).trans hle') (by omega) hle (by omega)
      refine (ih hg.laid (hg.grows.placed hroot) hcalls.tail hvacant₁).mono ?_ fun _ h => h
      rintro s₂ ⟨k, hk⟩
      refine ⟨k, hg.trans hk (fun a _ => over_root (hg.grows.placed hroot) a) ?_ ?_ ?_⟩
      · exact fun a ha => mem_spans_cons.mpr (.inl ha)
      · exact fun a ha => mem_spans_cons.mpr (.inr ha)
      · exact fun a ha => mem_spans_cons.mp ha

end Run

/-! ## The calls for the memory -/

section Frames

variable {m : Memblock} {l : List PfnRange} {r : PfnRange} {c : MappingCall}

/-- The bytes of a range are those of its calls. -/
theorem rangeCalls_union (hlt : r.start_pfn < r.end_pfn) (hend : r.end_pfn < 2 ^ 52) (x : ℕ) :
    (∃ c ∈ rangeCalls 0 (2 ^ 64 - 1) r, c.start ≤ x ∧ x < c.rangeEnd) ↔ r.Has (x / 4096) := by
  have hle : r.start_pfn * 4096 ≤ r.end_pfn * 4096 := Nat.mul_le_mul_right 4096 hlt.le
  have hpieces := mapRange_ascends hle (by omega)
  rw [← rangeCalls_has hlt hend, rangeCalls_eq hlt hend]
  exact exists_congr fun c => and_congr_right fun hc => hpieces.has_iff hc x

/-- The calls for a range stay in it. -/
theorem rangeCalls_within (hlt : r.start_pfn < r.end_pfn) (hend : r.end_pfn < 2 ^ 52)
    (hc : c ∈ rangeCalls 0 (2 ^ 64 - 1) r) (hnonempty : c.start < c.rangeEnd) :
    r.start_pfn * 4096 ≤ c.start ∧ c.rangeEnd ≤ r.end_pfn * 4096 := by
  have hfirst := (rangeCalls_union hlt hend c.start).mp ⟨c, hc, Nat.le_refl _, hnonempty⟩
  have hlast := (rangeCalls_union hlt hend (c.rangeEnd - 1)).mp ⟨c, hc, by omega, by omega⟩
  obtain ⟨hfrom, -⟩ := hfirst
  obtain ⟨-, hto⟩ := hlast
  omega

theorem schedule_rangeCalls (hlt : r.start_pfn < r.end_pfn)
    (hend : r.end_pfn * 4096 < DIRECT_SIZE) : Schedule (rangeCalls 0 (2 ^ 64 - 1) r) := by
  have hsize := DIRECT_SIZE_eq
  have hfits : r.end_pfn < 2 ^ 52 := by omega
  have hbytes := Nat.mul_lt_mul_of_pos_right hlt (show 0 < 4096 by decide)
  have hword := hend.trans (show DIRECT_SIZE < 2 ^ 64 by decide)
  have hascends := mapRange_ascends hbytes.le hword
  have hpieces := mapRange_pieces hbytes hword
  rw [← rangeCalls_eq hlt hfits] at hpieces
  have hdvd : ∀ c ∈ rangeCalls 0 (2 ^ 64 - 1) r,
      2 ^ pageShift c.ps.level ∣ c.start ∧ 2 ^ pageShift c.ps.level ∣ c.rangeEnd := by
    intro c hc
    have hsmall := hascends.whole c (by rwa [← rangeCalls_eq hlt hfits])
    cases hps : c.ps with
    | PAGE_SIZE_4K =>
        exact ⟨Nat.dvd_of_mod_eq_zero hsmall.1, Nat.dvd_of_mod_eq_zero hsmall.2⟩
    | PAGE_SIZE_2M =>
        have hlarge := hpieces.pmd_aligned c hc hps
        exact ⟨Nat.dvd_of_mod_eq_zero hlarge.1, Nat.dvd_of_mod_eq_zero hlarge.2⟩
    | PAGE_SIZE_1G =>
        have hhuge := hpieces.pud_aligned c hc hps
        exact ⟨Nat.dvd_of_mod_eq_zero hhuge.1, Nat.dvd_of_mod_eq_zero hhuge.2⟩
  refine ⟨hpieces.nonempty, fun c hc => ?_, fun c hc => (hdvd c hc).1, fun c hc => (hdvd c hc).2,
    hpieces.ascending⟩
  exact (rangeCalls_within hlt hfits hc (hpieces.nonempty c hc)).2.trans_lt hend

/-- The calls for ranges that ascend without meeting do so too. -/
theorem schedule_flatMap (hlt : ∀ r ∈ l, r.start_pfn < r.end_pfn)
    (hend : ∀ r ∈ l, r.end_pfn * 4096 < DIRECT_SIZE)
    (hascending : l.Pairwise fun r r' => r.end_pfn ≤ r'.start_pfn) :
    Schedule (l.flatMap (rangeCalls 0 (2 ^ 64 - 1))) := by
  have hsize := DIRECT_SIZE_eq
  have hfits : ∀ r ∈ l, r.end_pfn < 2 ^ 52 := by
    intro r hr
    have hlow := hend r hr
    omega
  have hall {P : MappingCall → Prop}
      (hone : ∀ r ∈ l, ∀ c ∈ rangeCalls 0 (2 ^ 64 - 1) r, P c) :
      ∀ c ∈ l.flatMap (rangeCalls 0 (2 ^ 64 - 1)), P c := by
    intro c hc
    obtain ⟨r, hr, hcr⟩ := List.mem_flatMap.mp hc
    exact hone r hr c hcr
  have hsched := fun r hr => schedule_rangeCalls (hlt r hr) (hend r hr)
  refine ⟨hall fun r hr => (hsched r hr).nonempty, hall fun r hr => (hsched r hr).low,
    hall fun r hr => (hsched r hr).dvd_start, hall fun r hr => (hsched r hr).dvd_end, ?_⟩
  refine List.pairwise_flatMap.mpr ⟨fun r hr => (hsched r hr).ascending, ?_⟩
  refine hascending.imp_of_mem fun {r r'} hr hr' hle c hc c' hc' => ?_
  have hupto := (rangeCalls_within (hlt r hr) (hfits r hr) hc ((hsched r hr).nonempty c hc)).2
  have hfrom := (rangeCalls_within (hlt r' hr') (hfits r' hr') hc'
    ((hsched r' hr').nonempty c' hc')).1
  exact hupto.trans ((Nat.mul_le_mul_right 4096 hle).trans hfrom)

/-- The frame is in one of the ranges of the walk over the memory. -/
def Iterates (m : Memblock) (f : ℕ) : Prop :=
  ∃ l, forEachMemPfnRange m (-1) (m.n + 1) (-1) = .ok l ∧ ∃ r ∈ l, r.Has f

theorem mem_spans_iff (hlt : ∀ r ∈ l, r.start_pfn < r.end_pfn)
    (hend : ∀ r ∈ l, r.end_pfn * 4096 < DIRECT_SIZE)
    (hsched : Schedule (l.flatMap (rangeCalls 0 (2 ^ 64 - 1)))) (x : ℕ) :
    x ∈ spans (l.flatMap (rangeCalls 0 (2 ^ 64 - 1))) ↔
      PAGE_OFFSET ≤ x ∧ ∃ r ∈ l, r.Has ((x - PAGE_OFFSET) / 4096) := by
  have hsize := DIRECT_SIZE_eq
  constructor
  · rintro ⟨c, hc, hx⟩
    rw [mem_span_iff (hsched.nonempty c hc) (hsched.low c hc)] at hx
    obtain ⟨r, hr, hcr⟩ := List.mem_flatMap.mp hc
    have hlow := hend r hr
    refine ⟨by omega, r, hr, (rangeCalls_union (hlt r hr) (by omega) _).mp ⟨c, hcr, ?_⟩⟩
    omega
  · rintro ⟨hoffset, r, hr, hhas⟩
    have hlow := hend r hr
    obtain ⟨c, hcr, hx⟩ := (rangeCalls_union (hlt r hr) (by omega) _).mpr hhas
    have hc : c ∈ l.flatMap (rangeCalls 0 (2 ^ 64 - 1)) := List.mem_flatMap.mpr ⟨r, hr, hcr⟩
    refine ⟨c, hc, (mem_span_iff (hsched.nonempty c hc) (hsched.low c hc)).mpr ?_⟩
    omega

end Frames

/-! ## The whole mapping -/

section Whole

variable {img : Image} {m : Memblock} {s s' : InitTables} {level3 : ℕ}

/-- Addresses of the direct mapping that share their page show the same frame. -/
theorem frame_of_block {a x : ℕ} (ha : InDirectMap a) (hx : InDirectMap x)
    (hblock : block 0 a = block 0 x) : (a - PAGE_OFFSET) / 4096 = (x - PAGE_OFFSET) / 4096 := by
  obtain ⟨halow, hahigh⟩ := ha
  obtain ⟨hlow, hhigh⟩ := hx
  rw [PAGE_OFFSET_eq] at *
  rw [START_KERNEL_map_eq] at *
  simp only [block, pageShift] at hblock
  omega

/-- `init_top_pgt` as `init__init_top_pgt` leaves it: its last entry points to a table of which
only the last two entries, for the kernel image and for the fixmap, are present. -/
structure Prepared (img : Image) (s : InitTables) (level3 : ℕ) : Prop where
  laid : ∃ f, Laid img s f ∧ f.place (img.pa img.init_top_pgt) = some (3, 0)
  pgd : entry 3 (s.mem (img.pa img.init_top_pgt) 511) = .table level3
  direct : ∀ i < 510, (s.mem level3 i).testBit 0 = false
  kernel : (s.mem level3 510).testBit 0 = true
  fixmap : (s.mem level3 511).testBit 0 = true

/-- The direct mapping shows the frames of the walk, byte for byte, and nothing else; what the
table held for the kernel image and the fixmap is as before. -/
structure DirectlyMapped (img : Image) (m : Memblock) (s s' : InitTables) (level3 : ℕ) : Prop where
  shows : ∀ p, Iterates m (p / 4096) → img.walk s' (PAGE_OFFSET + p) = some p
  nothing : ∀ x, InDirectMap x → ¬ Iterates m ((x - PAGE_OFFSET) / 4096) → img.walk s' x = none
  pgd : s'.mem (img.pa img.init_top_pgt) 511 = s.mem (img.pa img.init_top_pgt) 511
  kernel : s'.mem level3 510 = s.mem level3 510
  fixmap : s'.mem level3 511 = s.mem level3 511

/-- For sorted memory below 510 GiB, no assertion but the one about the pages is tripped, and
the direct mapping is complete when none is. -/
theorem initTables_directlyMapped (h : Listed m) (hlow : ∀ r ∈ m.live, r.base + r.size < DIRECT_SIZE)
    (hprepared : Prepared img s level3) (mapped : Mapped) :
    Ends (fun r : InitTables × Mapped => DirectlyMapped img m s r.1 level3)
      (· = .mapping .notEnoughMemory) (img.initTables m 0 (2 ^ 64 - 1) mapped s) := by
  obtain ⟨f, hlaid, hroot⟩ := hprepared.laid
  obtain ⟨l, hrun, hwalk⟩ := h.walks (-1)
  have hend : ∀ r ∈ l, r.end_pfn * 4096 < DIRECT_SIZE := by
    intro r hr
    have hlt := hwalk.nonempty r hr
    obtain ⟨reg, hreg, -, hframe⟩ := (hwalk.frames (r.end_pfn - 1)).mp ⟨r, hr, by omega, by omega⟩
    have hbelow := hlow reg hreg
    have hlast : (r.end_pfn - 1) * 4096 + 4096 ≤ reg.base + reg.size := hframe.2
    omega
  have hsched := schedule_flatMap hwalk.nonempty hend hwalk.ascending
  have hspans := mem_spans_iff hwalk.nonempty hend hsched
  have hempty : DirectEmpty img s := .inr ⟨level3, hprepared.pgd, hprepared.direct⟩
  have hin : ∀ c ∈ l.flatMap (rangeCalls 0 (2 ^ 64 - 1)), ∀ a ∈ c.span, InDirectMap a :=
    fun c hc a ha => span_inDirectMap (hsched.low c hc) ha (hsched.nonempty c hc)
  have hends := mapCalls_ends hlaid hroot hsched
    fun c hc a ha => hempty.vacant (hin c hc a ha) (level_le_two c.ps)
  rw [Image.initTables, initRangeMemoryMapping_eq hrun]
  dsimp only
  rw [foldl_mapTurn, List.nil_append]
  cases hcalls : img.mapCalls (l.flatMap (rangeCalls 0 (2 ^ 64 - 1))) s with
  | error stop =>
      rw [hcalls] at hends
      exact congrArg InitStop.mapping hends
  | ok s' =>
      rw [hcalls] at hends
      obtain ⟨g, hg⟩ := hends
      have hsome : ∀ a ∈ spans (l.flatMap (rangeCalls 0 (2 ^ 64 - 1))), InDirectMap a := by
        rintro a ⟨c, hc, ha⟩
        exact hin c hc a ha
      have hkept {b level q i : ℕ} (hplace : f.place b = some (level, q))
          (hpresent : (s.mem b i).testBit 0 = true) : s'.mem b i = s.mem b i := by
        rw [← hlaid.mem] at hpresent ⊢
        rw [← hg.laid.mem]
        exact hg.grows.keeps hplace hpresent
      have hlevel3 : f.place level3 = some (2, 511) := by
        have hpgd := hprepared.pgd
        rw [← hlaid.mem] at hpgd
        exact f.child hroot (by decide) hpgd
      refine ⟨?_, ?_, hkept hroot (of_entry_table hprepared.pgd).1,
        hkept hlevel3 hprepared.kernel, hkept hlevel3 hprepared.fixmap⟩
      · rintro p ⟨l', hrun', r, hr, hhas⟩
        obtain rfl := Except.ok.inj (hrun.symm.trans hrun')
        have hp : PAGE_OFFSET + p ∈ spans (l.flatMap (rangeCalls 0 (2 ^ 64 - 1))) :=
          (hspans _).mpr ⟨Nat.le_add_right _ _, r, hr, by rwa [Nat.add_sub_cancel_left]⟩
        rw [walk_of_inDirectMap (hsome _ hp), ← hg.laid.mem, hg.maps _ hp, Nat.add_sub_cancel_left]
      · intro x hx hnot
        rw [walk_of_inDirectMap hx, ← hg.laid.mem,
          hg.grows.translate_untouched (over_root hroot x) ?_, hlaid.mem,
          (hempty.vacant hx (Nat.zero_le 2)).translate]
        intro a ha hblock
        obtain ⟨hoffset, r, hr, hhas⟩ := (hspans a).mp ha
        refine hnot ⟨l, hrun, r, hr, ?_⟩
        rwa [← frame_of_block (hsome a ha) hx hblock]

end Whole

/-! ## An image -/

theorem link_of_place {f : Forest} {c level n : ℕ} (hdvd : 2 ^ 12 ∣ c) (hlt : c < 2 ^ 52)
    (hplace : f.place c = some (level, n)) {l d : ℕ} (hl : level + 1 = l + 1)
    (hd : entry (level + 1) (c ||| KERNPG_TABLE) = .table d) : f.place d = some (l, n) := by
  rw [entry_table level hdvd hlt (by decide) (by decide) (by decide)] at hd
  obtain rfl := Entry.table.inj hd
  obtain rfl := Nat.succ.inj hl
  exact hplace

/-- The tables of the kernel image and of the fixmap, below one table, below the root. -/
def preparedForest : Forest :=
  let f₁ := emptyForest.add 0x1001000 2 511 (by decide) (by decide)
  let f₂ := f₁.add 0x1002000 1 (512 * 511 + 510) (by decide) (by decide)
  let f₃ := f₂.add 0x1003000 1 (512 * 511 + 511) (by decide) (by decide)
  let f₄ := f₃.set 0x1001000 2 511 510 (0x1002000 ||| KERNPG_TABLE) (by decide)
    (link_of_place (by decide) (by decide) (by decide))
  let f₅ := f₄.set 0x1001000 2 511 511 (0x1003000 ||| KERNPG_TABLE) (by decide)
    (link_of_place (by decide) (by decide) (by decide))
  f₅.set 0x1000000 3 0 511 (0x1001000 ||| KERNPG_TABLE) (by decide)
    (link_of_place (by decide) (by decide) (by decide))

def preparedTables : InitTables := ⟨preparedForest.mem, 0⟩

theorem place_preparedForest {b : ℕ} (hb : 0x1003000 < b) : preparedForest.place b = none := by
  show Function.update (Function.update (Function.update emptyForest.place _ _) _ _) _ _ b = none
  rw [Function.update_of_ne (by omega), Function.update_of_ne (by omega),
    Function.update_of_ne (by omega)]
  exact if_neg (by omega)

theorem prepared_preparedTables : Prepared linkedImage preparedTables 0x1001000 where
  laid := by
    refine ⟨preparedForest, ⟨rfl, fun {b p} hplace => ?_, fun {j} _ hj => ?_⟩, ?_⟩
    · have hsize := DIRECT_SIZE_eq
      by_contra hlow
      rw [place_preparedForest (by omega)] at hplace
      cases hplace
    · refine place_preparedForest ?_
      rw [pa_brkPage_linkedImage hj]
      omega
    · rw [pa_root_linkedImage]
      decide
  pgd := by
    rw [pa_root_linkedImage]
    decide +kernel
  direct := by decide +kernel
  kernel := by decide +kernel
  fixmap := by decide +kernel

/-- Eight pages of memory. -/
theorem directlyMapped_eightPages :
    Ends (fun r : InitTables × Mapped =>
        DirectlyMapped linkedImage eightPages preparedTables r.1 0x1001000)
      (· = .mapping .notEnoughMemory)
      (linkedImage.initTables eightPages 0 (2 ^ 64 - 1) ⟨0, 0⟩ preparedTables) := by
  refine initTables_directlyMapped listed_eightPages ?_ prepared_preparedTables ⟨0, 0⟩
  rw [live_eightPages]
  decide

end Cyanea.Mm
