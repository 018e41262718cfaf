/-
# Walking the page frames

`for_each_mem_pfn_range` goes over the table and yields, for each region with whole page
frames in it, the range of these frames. Every region is rounded inwards on its own: what
the walk yields are the frames that lie in one region.
-/

import Cyanea.Math.Simulation
import Cyanea.Memory.Allocate
import Cyanea.Memory.MemoryMap

namespace Cyanea.Memory

open Cyanea.Math.Simulation (ok_bind)

/-! ## Rounding -/

def PAGE_SHIFT : ℕ := 12

/-- `ROUND_UP(x, pow)`. -/
def roundUp (x pow : ℕ) : ℕ := alignKernel x pow

/-- `ROUND_DOWN(x, pow)`. -/
def roundDown (x pow : ℕ) : ℕ := alignKernel (sub64 x (sub64 pow 1)) pow

/-- `PFN_UP(x)`. -/
def pfnUp (x : ℕ) : ℕ := roundUp x PAGE_SIZE >>> PAGE_SHIFT

/-- `PFN_DOWN(x)`. -/
def pfnDown (x : ℕ) : ℕ := roundDown x PAGE_SIZE >>> PAGE_SHIFT

theorem roundUp_eq {x k : ℕ} (hk : k < 64) (hx : x + (2 ^ k - 1) < 2 ^ 64) :
    roundUp x (2 ^ k) = 2 ^ k * ((x + (2 ^ k - 1)) / 2 ^ k) := by
  rw [roundUp, alignKernel_eq hk, add64_eq hx]

/-- Rounding down may wrap around on its way, and wraps back. -/
theorem roundDown_eq {x k : ℕ} (hk : k < 64) (hx : x < 2 ^ 64) :
    roundDown x (2 ^ k) = 2 ^ k * (x / 2 ^ k) := by
  have hpos : 0 < 2 ^ k := Nat.two_pow_pos k
  have hpow : 2 ^ k < 2 ^ 64 := Nat.pow_lt_pow_right (by decide) hk
  have hback : add64 (sub64 x (2 ^ k - 1)) (2 ^ k - 1) = x := by
    rw [add64, sub64]
    omega
  rw [roundDown, alignKernel_eq hk, sub64_eq hpos hpow, hback]

theorem pfnUp_eq {x : ℕ} (hx : x + 4095 < 2 ^ 64) : pfnUp x = (x + 4095) / 4096 := by
  rw [pfnUp, Nat.shiftRight_eq_div_pow, show PAGE_SIZE = 2 ^ 12 from rfl,
    roundUp_eq (by decide) hx]
  exact Nat.mul_div_cancel_left _ (by decide)

theorem pfnDown_eq {x : ℕ} (hx : x < 2 ^ 64) : pfnDown x = x / 4096 := by
  rw [pfnDown, Nat.shiftRight_eq_div_pow, show PAGE_SIZE = 2 ^ 12 from rfl,
    roundDown_eq (by decide) hx]
  exact Nat.mul_div_cancel_left _ (by decide)

/-! ## The walk -/

/-- What `__next_mem_pfn_range` stores for its caller. -/
structure PfnRange where
  start_pfn : ℕ
  end_pfn : ℕ
  out_nid : ℤ
  deriving DecidableEq, Repr

/-- `while (++*i < memory.n)` from the index `i` on: the index at which the loop ends. -/
def nextLoop (m : Memblock) (nid : ℤ) : ℕ → ℕ → Except Fault ℕ
  | 0, i => if i < m.n then throw .unfinished else return i
  | turns + 1, i => do
      if i < m.n then
        let reg ← loadRegion m.regions i
        if pfnDown reg.regionEnd ≤ pfnUp reg.base then
          nextLoop m nid turns (i + 1)
        else if nid = -1 ∨ nid = reg.nid then
          return i
        else
          nextLoop m nid turns (i + 1)
      else
        return i

/-- `__next_mem_pfn_range`: the new index, and what is stored unless it is -1. -/
def nextMemPfnRange (m : Memblock) (i nid : ℤ) : Except Fault (ℤ × Option PfnRange) := do
  let next ← nextLoop m nid m.n (i + 1).toNat
  if next < m.n then
    let reg ← loadRegion m.regions next
    return (next, some ⟨pfnUp reg.base, pfnDown reg.regionEnd, reg.nid⟩)
  else
    return (-1, none)

/-- The ranges that `for_each_mem_pfn_range` runs its body for, from the index `i` on. -/
def forEachMemPfnRange (m : Memblock) (nid : ℤ) : ℕ → ℤ → Except Fault (List PfnRange)
  | 0, _ => throw .unfinished
  | turns + 1, i => do
      let (i, range) ← nextMemPfnRange m i nid
      if 0 ≤ i then
        return range.toList ++ (← forEachMemPfnRange m nid turns i)
      else
        return []

/-- The range of frames that a region yields, if it has any and is asked for. -/
def frameRange (nid : ℤ) (r : MemblockRegion) : Option PfnRange :=
  if pfnUp r.base < pfnDown r.regionEnd ∧ (nid = -1 ∨ nid = r.nid) then
    some ⟨pfnUp r.base, pfnDown r.regionEnd, r.nid⟩
  else none

section Walk

variable {m : Memblock} {nid : ℤ} {turns i : ℕ}

theorem drop_live (h : m.n ≤ m.regions.length) (hi : i < m.n) :
    ∃ r, loadRegion m.regions i = .ok r ∧ m.live.drop i = r :: m.live.drop (i + 1) := by
  have hlength : i < m.live.length := by
    rw [Memblock.live, List.length_take]
    omega
  have hget : m.regions[i]? = some m.live[i] := by
    rw [← List.getElem?_eq_getElem hlength, Memblock.live, List.getElem?_take_of_lt hi]
  refine ⟨m.live[i], ?_, List.drop_eq_getElem_cons hlength⟩
  rw [loadRegion, hget]

theorem drop_live_eq_nil (h : m.n ≤ i) : m.live.drop i = [] := by
  rw [Memblock.live, List.drop_eq_nil_iff, List.length_take]
  omega

/-- A call goes on to the next region that has a range, or to the end. -/
theorem nextLoop_eq (nid : ℤ) (h : m.n ≤ m.regions.length) (hturns : m.n ≤ i + turns) :
    ∃ j, i ≤ j ∧ nextLoop m nid turns i = .ok j ∧
      ((∃ r s, j < m.n ∧ loadRegion m.regions j = .ok r ∧ frameRange nid r = some s ∧
        (m.live.drop i).filterMap (frameRange nid) =
          s :: (m.live.drop (j + 1)).filterMap (frameRange nid)) ∨
      m.n ≤ j ∧ (m.live.drop i).filterMap (frameRange nid) = []) := by
  induction turns generalizing i with
  | zero =>
      have hend : m.n ≤ i := hturns
      refine ⟨i, le_rfl, ?_, .inr ⟨hend, ?_⟩⟩
      · rw [nextLoop, if_neg (not_lt.mpr hend)]
        rfl
      · rw [drop_live_eq_nil hend, List.filterMap_nil]
  | succ turns ih =>
      have hturns' : m.n ≤ i + 1 + turns := by omega
      rw [nextLoop]
      by_cases hi : i < m.n
      · obtain ⟨r, hload, hdrop⟩ := drop_live h hi
        rw [if_pos hi, hload, hdrop, List.filterMap_cons]
        by_cases hyields : pfnUp r.base < pfnDown r.regionEnd ∧ (nid = -1 ∨ nid = r.nid)
        · have hrange : frameRange nid r =
              some ⟨pfnUp r.base, pfnDown r.regionEnd, r.nid⟩ := by
            rw [frameRange, if_pos hyields]
          refine ⟨i, le_rfl, ?_, .inl ⟨r, _, hi, hload, hrange, ?_⟩⟩
          · rw [ok_bind, if_neg (not_le.mpr hyields.1), if_pos hyields.2]
            rfl
          · rw [hrange]
        · have hrange : frameRange nid r = none := by
            rw [frameRange, if_neg hyields]
          obtain ⟨j, hij, hnext, hrest⟩ := ih hturns'
          rw [hrange]
          refine ⟨j, Nat.le_of_succ_le hij, ?_, hrest⟩
          rw [ok_bind]
          by_cases hempty : pfnDown r.regionEnd ≤ pfnUp r.base
          · rw [if_pos hempty, hnext]
          · rw [if_neg hempty, if_neg fun hnid => hyields ⟨not_le.mp hempty, hnid⟩, hnext]
      · refine ⟨i, le_rfl, ?_, .inr ⟨not_lt.mp hi, ?_⟩⟩
        · rw [if_neg hi]
          rfl
        · rw [drop_live_eq_nil (not_lt.mp hi), List.filterMap_nil]

/-- The walk ends, and has yielded the ranges of the regions in their order. -/
theorem forEachMemPfnRange_eq (nid : ℤ) (h : m.n ≤ m.regions.length) (hi : i ≤ m.n)
    (hturns : m.n < i + turns) :
    forEachMemPfnRange m nid turns ((i : ℤ) - 1) =
      .ok ((m.live.drop i).filterMap (frameRange nid)) := by
  induction turns generalizing i with
  | zero => omega
  | succ turns ih =>
      have hstart : ((i : ℤ) - 1 + 1).toNat = i := by omega
      obtain ⟨j, hij, hnext, hcases⟩ := nextLoop_eq nid h (Nat.le_add_left m.n i)
      rw [forEachMemPfnRange, nextMemPfnRange, hstart, hnext, ok_bind]
      rcases hcases with ⟨r, s, hj, hload, hrange, hyields⟩ | ⟨hj, hnone⟩
      · have hrest := ih (i := j + 1) (by omega) (by omega)
        have hback : ((j + 1 : ℕ) : ℤ) - 1 = j := by omega
        rw [hback] at hrest
        have hs : frameRange nid r = some ⟨pfnUp r.base, pfnDown r.regionEnd, r.nid⟩ := by
          rw [frameRange] at hrange ⊢
          split at hrange
          · rename_i hyes
            exact if_pos hyes
          · exact absurd hrange nofun
        obtain rfl := Option.some.inj (hs.symm.trans hrange)
        rw [if_pos hj, hload]
        simp only [ok_bind, pure, Except.pure]
        rw [if_pos (Int.natCast_nonneg j), hrest, hyields]
        rfl
      · rw [if_neg (not_lt.mpr hj), hnone]
        rfl

end Walk

/-! ## The frames -/

/-- A table whose regions are sorted and disjoint, and end two pages before 2^64. A region
may be empty. -/
structure Listed (m : Memblock) : Prop where
  room : m.n ≤ m.regions.length
  sorted : m.live.Pairwise fun r r' => r.base + r.size ≤ r'.base
  below : ∀ r ∈ m.live, r.base + r.size < 2 ^ 64 - 2 * PAGE_SIZE

/-- The page frame lies in the region. -/
def MemblockRegion.HasFrame (r : MemblockRegion) (f : ℕ) : Prop :=
  r.base ≤ f * PAGE_SIZE ∧ f * PAGE_SIZE + PAGE_SIZE ≤ r.base + r.size

instance (r : MemblockRegion) (f : ℕ) : Decidable (r.HasFrame f) :=
  inferInstanceAs (Decidable (_ ∧ _))

/-- All bytes of the page frame are memory. -/
def Memblock.HasFrame (m : Memblock) (f : ℕ) : Prop :=
  ∀ a, f * PAGE_SIZE ≤ a → a < f * PAGE_SIZE + PAGE_SIZE → ∃ r ∈ m.live, r.Covers a

def PfnRange.Has (s : PfnRange) (f : ℕ) : Prop := s.start_pfn ≤ f ∧ f < s.end_pfn

instance PfnRange.decidableHas (s : PfnRange) (f : ℕ) : Decidable (s.Has f) :=
  inferInstanceAs (Decidable (_ ∧ _))

section Frames

variable {m : Memblock} {r : MemblockRegion} {s : PfnRange} {nid : ℤ} {f : ℕ}

theorem pfn_eq (h : r.base + r.size < 2 ^ 64 - 2 * PAGE_SIZE) :
    pfnUp r.base = (r.base + 4095) / 4096 ∧ pfnDown r.regionEnd = (r.base + r.size) / 4096 := by
  have hpage : PAGE_SIZE = 4096 := rfl
  have hend : r.regionEnd = r.base + r.size := add64_eq (by omega)
  rw [hend, pfnUp_eq (by omega), pfnDown_eq (by omega)]
  exact ⟨rfl, rfl⟩

/-- What a region yields. -/
theorem frameRange_eq_some (h : r.base + r.size < 2 ^ 64 - 2 * PAGE_SIZE)
    (hs : frameRange nid r = some s) : (nid = -1 ∨ nid = r.nid) ∧ s.out_nid = r.nid ∧
      s.start_pfn < s.end_pfn ∧ r.base ≤ s.start_pfn * PAGE_SIZE ∧
      s.end_pfn * PAGE_SIZE ≤ r.base + r.size ∧ ∀ f, s.Has f ↔ r.HasFrame f := by
  obtain ⟨hup, hdown⟩ := pfn_eq h
  rw [frameRange, hup, hdown] at hs
  split at hs
  · rename_i hyields
    obtain rfl := Option.some.inj hs
    refine ⟨hyields.2, rfl, hyields.1, ?_, ?_, fun f => ?_⟩
    · show r.base ≤ (r.base + 4095) / 4096 * 4096
      omega
    · show (r.base + r.size) / 4096 * 4096 ≤ r.base + r.size
      omega
    · show (r.base + 4095) / 4096 ≤ f ∧ f < (r.base + r.size) / 4096 ↔
        r.base ≤ f * 4096 ∧ f * 4096 + 4096 ≤ r.base + r.size
      omega
  · exact absurd hs nofun

/-- A region that is asked for and has a frame yields a range. -/
theorem exists_frameRange (h : r.base + r.size < 2 ^ 64 - 2 * PAGE_SIZE)
    (hnid : nid = -1 ∨ nid = r.nid) (hf : r.HasFrame f) : ∃ s, frameRange nid r = some s := by
  obtain ⟨hup, hdown⟩ := pfn_eq h
  have hinside : r.base ≤ f * 4096 ∧ f * 4096 + 4096 ≤ r.base + r.size := hf
  have hlt : (r.base + 4095) / 4096 < (r.base + r.size) / 4096 := by omega
  exact ⟨_, if_pos ⟨by rw [hup, hdown]; exact hlt, hnid⟩⟩

/-- A walk yields ranges that are inhabited and ascend without meeting, and in them just the
frames that lie in one of the regions asked for. -/
structure Walks (m : Memblock) (nid : ℤ) (l : List PfnRange) : Prop where
  nonempty : ∀ s ∈ l, s.start_pfn < s.end_pfn
  ascending : l.Pairwise fun s s' => s.end_pfn ≤ s'.start_pfn
  frames : ∀ f, (∃ s ∈ l, s.Has f) ↔ ∃ r ∈ m.live, (nid = -1 ∨ nid = r.nid) ∧ r.HasFrame f

theorem Listed.walks (h : Listed m) (nid : ℤ) :
    ∃ l, forEachMemPfnRange m nid (m.n + 1) (-1) = .ok l ∧ Walks m nid l := by
  have hrun := forEachMemPfnRange_eq nid h.room (Nat.zero_le _)
    (show m.n < 0 + (m.n + 1) by omega)
  refine ⟨m.live.filterMap (frameRange nid), hrun, ?_, ?_, ?_⟩
  · intro s hs
    obtain ⟨r, hr, hrange⟩ := List.mem_filterMap.mp hs
    exact (frameRange_eq_some (h.below r hr) hrange).2.2.1
  · refine List.pairwise_filterMap.mpr ?_
    refine h.sorted.imp_of_mem fun {r r'} hr hr' hle s hs s' hs' => ?_
    obtain ⟨-, -, -, -, hend, -⟩ := frameRange_eq_some (h.below r hr) hs
    obtain ⟨-, -, -, hstart, -⟩ := frameRange_eq_some (h.below r' hr') hs'
    exact Nat.le_of_mul_le_mul_right (hend.trans (hle.trans hstart)) (by decide)
  · intro f
    constructor
    · rintro ⟨s, hs, hf⟩
      obtain ⟨r, hr, hrange⟩ := List.mem_filterMap.mp hs
      obtain ⟨hnid, -, -, -, -, hframes⟩ := frameRange_eq_some (h.below r hr) hrange
      exact ⟨r, hr, hnid, (hframes f).mp hf⟩
    · rintro ⟨r, hr, hnid, hf⟩
      obtain ⟨s, hrange⟩ := exists_frameRange (h.below r hr) hnid hf
      obtain ⟨-, -, -, -, -, hframes⟩ := frameRange_eq_some (h.below r hr) hrange
      exact ⟨s, List.mem_filterMap.mpr ⟨r, hr, hrange⟩, (hframes f).mpr hf⟩

end Frames

end Cyanea.Memory
