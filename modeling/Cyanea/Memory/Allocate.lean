/-
# Allocation, on lists

`find_in_range_node` returns what the first suitable region offers. The search
of `memblock_alloc` marks nothing unless it succeeds, and the marking fails only
for want of slots, in which case a second search fails as well; so an allocation
is one marked range or no change at all.
-/

import Cyanea.Memory.Operations

namespace Cyanea.Memory

/-! ## Aligning -/

theorem alignKernel_eq {x k : ℕ} (hk : k < 64) :
    alignKernel x (2 ^ k) = 2 ^ k * (add64 x (2 ^ k - 1) / 2 ^ k) := by
  have hpow : 2 ^ k < 2 ^ 64 := Nat.pow_lt_pow_right (by decide) hk
  have hmask : sub64 (2 ^ k) 1 = 2 ^ k - 1 := sub64_eq (Nat.two_pow_pos k) hpow
  rw [alignKernel, hmask, and_not64_eq (add64_lt _ _) hk.le]

/-- Aligning to a power of two goes up, or wraps around to zero. -/
theorem le_alignKernel {x k : ℕ} (hx : x < 2 ^ 64) (hk : k < 64) :
    x ≤ alignKernel x (2 ^ k) ∨ alignKernel x (2 ^ k) = 0 := by
  have hpos : 0 < 2 ^ k := Nat.two_pow_pos k
  rw [alignKernel_eq hk]
  by_cases hwrap : x + (2 ^ k - 1) < 2 ^ 64
  · left
    rw [add64_eq hwrap]
    have hdiv := Nat.div_add_mod (x + (2 ^ k - 1)) (2 ^ k)
    have hmod := Nat.mod_lt (x + (2 ^ k - 1)) hpos
    omega
  · right
    have hsmall : add64 x (2 ^ k - 1) < 2 ^ k := by
      rw [add64]
      omega
    rw [Nat.div_eq_of_lt hsmall, Nat.mul_zero]

/-- Aligning does not go beyond an aligned address. -/
theorem alignKernel_le {x q k : ℕ} (hq : q < 2 ^ 64) (hk : k < 64) (hxq : x ≤ q)
    (hdvd : 2 ^ k ∣ q) : x ≤ alignKernel x (2 ^ k) ∧ alignKernel x (2 ^ k) ≤ q := by
  have hpos := Nat.two_pow_pos k
  obtain ⟨t, rfl⟩ := hdvd
  obtain ⟨n, hn⟩ : 2 ^ k ∣ 2 ^ 64 := Nat.pow_dvd_pow 2 hk.le
  rw [hn] at hq
  have ht : t < n := Nat.lt_of_mul_lt_mul_left hq
  have hwrap : x + (2 ^ k - 1) < 2 ^ 64 := by
    have hmul := Nat.mul_le_mul_left (2 ^ k) ht
    rw [Nat.mul_succ] at hmul
    omega
  rw [alignKernel_eq hk, add64_eq hwrap]
  constructor
  · have hdiv := Nat.div_add_mod (x + (2 ^ k - 1)) (2 ^ k)
    have hmod := Nat.mod_lt (x + (2 ^ k - 1)) hpos
    omega
  · have hlt : x + (2 ^ k - 1) < (t + 1) * 2 ^ k := by
      rw [Nat.add_mul, Nat.mul_comm]
      omega
    exact Nat.mul_le_mul_left _ (Nat.lt_succ_iff.mp (Nat.div_lt_of_lt_mul (Nat.mul_comm _ _ ▸ hlt)))

theorem dvd_alignKernel {x k : ℕ} (hk : k < 64) : 2 ^ k ∣ alignKernel x (2 ^ k) := by
  rw [alignKernel_eq hk]
  exact Nat.dvd_mul_right _ _

/-- A start that wraps around when it is aligned has no aligned address behind it. -/
theorem lt_of_alignKernel_eq_zero {x q k : ℕ} (hq : q < 2 ^ 64) (hk : k < 64) (hx : x ≠ 0)
    (hzero : alignKernel x (2 ^ k) = 0) (hdvd : 2 ^ k ∣ q) : q < x := by
  by_contra hxq
  have hle := (alignKernel_le hq hk (not_lt.mp hxq) hdvd).1
  omega

/-! ## The search -/

section Search

variable (size align start rangeEnd : ℕ) (nid : ℤ) (flags : MemblockFlags)

/-- The address a region offers for the block, if it is large enough. -/
def offer (r : MemblockRegion) : Option ℕ :=
  if r.flags = flags ∧ ¬ (nid ≠ -1 ∧ nid ≠ r.nid) then
    let rBase := clamp r.base start rangeEnd
    let rEnd := clamp r.regionEnd start rangeEnd
    let base := alignKernel rBase align
    if base < rEnd ∧ size ≤ rEnd - base then some base else none
  else none

/-- The address that `find_in_range_node` returns, 0 if there is none. -/
def firstFit (live : List MemblockRegion) : ℕ :=
  let start := max start PAGE_SIZE
  let rangeEnd := max start rangeEnd
  (live.findSome? (offer size align start rangeEnd nid flags)).getD 0

theorem findLoop_succ {regions : List MemblockRegion} {i : ℕ} {r : MemblockRegion}
    (hload : loadRegion regions i = .ok r) (turns : ℕ) :
    findLoop regions size align start rangeEnd nid flags (turns + 1) i =
      match offer size align start rangeEnd nid flags r with
      | some base => .ok base
      | none => findLoop regions size align start rangeEnd nid flags turns (i + 1) := by
  rw [findLoop, hload, offer]
  by_cases hmatch : r.flags = flags ∧ ¬ (nid ≠ -1 ∧ nid ≠ r.nid)
  · simp only [if_pos hmatch, bind, Except.bind]
    by_cases hfits : alignKernel (clamp r.base start rangeEnd) align <
        clamp r.regionEnd start rangeEnd ∧ size ≤ clamp r.regionEnd start rangeEnd -
          alignKernel (clamp r.base start rangeEnd) align
    · simp only [if_pos hfits, pure, Except.pure]
    · simp only [if_neg hfits]
  · simp only [if_neg hmatch, bind, Except.bind]

theorem findLoop_append (pre live slots : List MemblockRegion) :
    findLoop (pre ++ live ++ slots) size align start rangeEnd nid flags live.length
        pre.length =
      .ok ((live.findSome? (offer size align start rangeEnd nid flags)).getD 0) := by
  induction live generalizing pre with
  | nil =>
      simp only [List.length_nil, findLoop, List.findSome?_nil, Option.getD_none, pure,
        Except.pure]
  | cons r live ih =>
      have hrest := ih (pre ++ [r])
      have hload : loadRegion (pre ++ r :: live ++ slots) pre.length = .ok r := by
        simp only [List.append_assoc, List.cons_append, loadRegion_append]
      simp only [List.length_append, List.length_singleton, List.append_assoc,
        List.cons_append, List.nil_append] at hrest hload
      rw [List.append_assoc, List.cons_append, List.length_cons,
        findLoop_succ _ _ _ _ _ _ hload, hrest, List.findSome?_cons]
      cases offer size align start rangeEnd nid flags r with
      | some base => simp only [Option.getD_some]
      | none => simp only

theorem findInRangeNode_table (live slots : List MemblockRegion) (drift : ℕ) :
    findInRangeNode (table live slots drift) size align start rangeEnd nid flags =
      .ok (firstFit size align start rangeEnd nid flags live) := by
  have hloop := findLoop_append size align (max start PAGE_SIZE)
    (max (max start PAGE_SIZE) rangeEnd) nid flags [] live slots
  rw [findInRangeNode, firstFit]
  exact hloop

/-- A block that is found comes from a live region. -/
theorem exists_offer_of_firstFit_ne_zero {live : List MemblockRegion}
    (h : firstFit size align start rangeEnd nid flags live ≠ 0) :
    ∃ r ∈ live, offer size align (max start PAGE_SIZE)
      (max (max start PAGE_SIZE) rangeEnd) nid flags r =
        some (firstFit size align start rangeEnd nid flags live) := by
  simp only [firstFit] at h ⊢
  cases hfind : live.findSome? (offer size align (max start PAGE_SIZE)
      (max (max start PAGE_SIZE) rangeEnd) nid flags) with
  | none =>
      rw [hfind] at h
      exact absurd rfl h
  | some paddr =>
      obtain ⟨r, hr, hoffer⟩ := List.exists_of_findSome?_eq_some hfind
      exact ⟨r, hr, hoffer⟩

/-- An offer is the aligned start of the region, with room for the block behind it. -/
theorem offer_eq_some {r : MemblockRegion} {paddr : ℕ}
    (h : offer size align start rangeEnd nid flags r = some paddr) :
    (r.flags = flags ∧ (nid = -1 ∨ nid = r.nid)) ∧
      paddr = alignKernel (clamp r.base start rangeEnd) align ∧
      paddr < clamp r.regionEnd start rangeEnd ∧
      paddr + size ≤ clamp r.regionEnd start rangeEnd := by
  rw [offer] at h
  by_cases hmatch : r.flags = flags ∧ ¬ (nid ≠ -1 ∧ nid ≠ r.nid)
  · rw [if_pos hmatch] at h
    by_cases hfits : alignKernel (clamp r.base start rangeEnd) align <
        clamp r.regionEnd start rangeEnd ∧ size ≤ clamp r.regionEnd start rangeEnd -
          alignKernel (clamp r.base start rangeEnd) align
    · simp only [if_pos hfits, Option.some.injEq] at h
      subst h
      refine ⟨⟨hmatch.1, by tauto⟩, rfl, hfits.1, ?_⟩
      have := hfits.2
      have := hfits.1
      omega
    · simp only [if_neg hfits, reduceCtorEq] at h
  · simp only [if_neg hmatch, reduceCtorEq] at h

/-- The block that is tried lies below the end of the search. -/
theorem firstFit_add_le {live : List MemblockRegion}
    (h : firstFit size align start rangeEnd nid flags live ≠ 0) :
    firstFit size align start rangeEnd nid flags live + size ≤
      max (max start PAGE_SIZE) rangeEnd := by
  obtain ⟨r, -, hoffer⟩ := exists_offer_of_firstFit_ne_zero _ _ _ _ _ _ h
  obtain ⟨-, -, -, hle⟩ := offer_eq_some _ _ _ _ _ _ hoffer
  exact hle.trans (min_le_right _ _)

/-- The block that `memblock_alloc` tries to mark: the one for the node, else the
one for any node unless the node was exact. -/
def target (exactNid : Bool) (live : List MemblockRegion) : ℕ :=
  if firstFit size align start rangeEnd nid MEMBLOCK_NONE live ≠ 0 then
    firstFit size align start rangeEnd nid MEMBLOCK_NONE live
  else if nid ≠ -1 ∧ exactNid = false then
    firstFit size align start rangeEnd (-1) MEMBLOCK_NONE live
  else 0

/-- A block that is tried was found for some node. -/
theorem exists_firstFit_of_target_ne_zero {exactNid : Bool} {live : List MemblockRegion}
    (h : target size align start rangeEnd nid exactNid live ≠ 0) :
    ∃ nid', firstFit size align start rangeEnd nid' MEMBLOCK_NONE live =
      target size align start rangeEnd nid exactNid live := by
  simp only [target] at h ⊢
  split_ifs at h ⊢ with hfirst hany
  · exact ⟨nid, rfl⟩
  · exact ⟨-1, rfl⟩
  · exact absurd rfl h

/-- The block that is tried ends below 2^64. -/
theorem target_add_lt {exactNid : Bool} {live : List MemblockRegion} (hstart : start < 2 ^ 64)
    (hend : rangeEnd < 2 ^ 64) (h : target size align start rangeEnd nid exactNid live ≠ 0) :
    target size align start rangeEnd nid exactNid live + size < 2 ^ 64 := by
  obtain ⟨nid', hfirst⟩ := exists_firstFit_of_target_ne_zero _ _ _ _ _ h
  have hle := firstFit_add_le size align start rangeEnd nid' MEMBLOCK_NONE (hfirst.symm ▸ h)
  have hpage : PAGE_SIZE < 2 ^ 64 := by decide
  rw [hfirst] at hle
  omega

end Search

/-! ## The marking -/

section Mark

variable (behind : Option MemblockRegion)

theorem setclr_size (set : Bool) (flags : MemblockFlags) (r : MemblockRegion) :
    (setclr set flags r).size = r.size := rfl

/-- Too few slots for a range of this size to be isolated. -/
def NoSpace (size : ℕ) (slots : List MemblockRegion) : Prop := size ≠ 0 ∧ slots.length < 2

instance (size : ℕ) (slots : List MemblockRegion) : Decidable (NoSpace size slots) :=
  inferInstanceAs (Decidable (_ ∧ _))

theorem updateRange_noSpace {f : MemblockRegion → MemblockRegion} {size : ℕ}
    {slots : List MemblockRegion} (hf : ∀ r, (f r).size = r.size) (h : NoSpace size slots)
    (live : List MemblockRegion) (drift base : ℕ) :
    updateRange behind f (table live slots drift) base size =
      .ok (table live slots drift, -ENOSPC) := by
  rw [updateRange_table behind hf h.1, if_pos h.2]

/-- With enough slots, changing a range succeeds unless it stops. -/
theorem updateRange_success {f : MemblockRegion → MemblockRegion} {size : ℕ}
    {slots : List MemblockRegion} (hf : ∀ r, (f r).size = r.size) (h : ¬ NoSpace size slots)
    {live : List MemblockRegion} {drift base : ℕ} {m : Memblock} {err : ℤ}
    (hrun : updateRange behind f (table live slots drift) base size = .ok (m, err)) :
    err = SUCCESS := by
  by_cases hsize : size = 0
  · subst hsize
    rw [updateRange_empty] at hrun
    simp only [Except.ok.injEq, Prod.mk.injEq] at hrun
    exact hrun.2.symm
  · rw [updateRange_table behind hf hsize, if_neg fun hs => h ⟨hsize, hs⟩] at hrun
    split_ifs at hrun
    obtain ⟨_, -, hreply⟩ := Math.bind_eq_ok.mp hrun
    exact (Prod.mk.inj (Except.ok.inj hreply)).2.symm

theorem allocPass_table (size align start rangeEnd : ℕ) (nid : ℤ)
    (live slots : List MemblockRegion) (drift : ℕ) :
    let paddr := firstFit size align start rangeEnd nid MEMBLOCK_NONE live
    allocPass behind (table live slots drift) size align start rangeEnd nid =
      if paddr = 0 ∨ NoSpace size slots then .ok (table live slots drift, none)
      else do
        let (m, _) ← memblockSetclrFlag behind (table live slots drift) paddr size true
          MEMBLOCK_RESERVED
        return (m, some paddr) := by
  intro paddr
  rw [allocPass, findInRangeNode_table]
  change (if paddr ≠ 0 then _ else _) = _
  by_cases hzero : paddr = 0
  · rw [if_neg (not_not.mpr hzero), if_pos (.inl hzero)]
    rfl
  rw [if_pos hzero]
  by_cases hspace : NoSpace size slots
  · rw [if_pos (.inr hspace), memblockSetclrFlag,
      updateRange_noSpace behind (setclr_size true MEMBLOCK_RESERVED) hspace]
    rfl
  · rw [if_neg (by tauto)]
    cases hrun : memblockSetclrFlag behind (table live slots drift) paddr size true
        MEMBLOCK_RESERVED with
    | error f => rfl
    | ok next =>
        have herr : next.2 = SUCCESS :=
          updateRange_success behind (setclr_size true MEMBLOCK_RESERVED) hspace hrun
        simp only [bind, Except.bind, if_pos herr]
        rfl

/-- An allocation marks the block it tries, or changes nothing. -/
theorem memblockAlloc_table (size align start rangeEnd : ℕ) (nid : ℤ) (exactNid : Bool)
    (live slots : List MemblockRegion) (drift : ℕ) :
    let paddr := target size align start rangeEnd nid exactNid live
    memblockAlloc behind (table live slots drift) size align start rangeEnd nid exactNid =
      if paddr = 0 ∨ NoSpace size slots then .ok (table live slots drift, 0)
      else do
        let (m, _) ← memblockSetclrFlag behind (table live slots drift) paddr size true
          MEMBLOCK_RESERVED
        return (m, paddr) := by
  intro paddr
  rw [memblockAlloc, allocPass_table]
  by_cases hspace : NoSpace size slots
  · rw [if_pos (.inr hspace), if_pos (.inr hspace)]
    simp only [bind, Except.bind]
    split_ifs with hany
    · rw [allocPass_table, if_pos (.inr hspace)]
      rfl
    · rfl
  by_cases hfirst : firstFit size align start rangeEnd nid MEMBLOCK_NONE live = 0
  · have hpaddr : paddr = if nid ≠ -1 ∧ exactNid = false then
        firstFit size align start rangeEnd (-1) MEMBLOCK_NONE live else 0 := by
      simp only [paddr, target, hfirst, ne_eq, not_true_eq_false, if_false]
    rw [if_pos (.inl hfirst)]
    simp only [bind, Except.bind]
    by_cases hany : nid ≠ -1 ∧ exactNid = false
    · rw [if_pos hany] at hpaddr ⊢
      rw [allocPass_table, ← hpaddr]
      split_ifs
      · rfl
      · cases memblockSetclrFlag behind (table live slots drift) paddr size true
            MEMBLOCK_RESERVED with
        | error f => rfl
        | ok next => rfl
    · rw [if_neg hany] at hpaddr ⊢
      rw [if_pos (.inl hpaddr)]
      rfl
  · have hpaddr : paddr = firstFit size align start rangeEnd nid MEMBLOCK_NONE live := by
      simp only [paddr, target, ne_eq, hfirst, not_false_eq_true, if_true]
    rw [← hpaddr] at hfirst ⊢
    rw [if_neg (by tauto), if_neg (by tauto)]
    cases memblockSetclrFlag behind (table live slots drift) paddr size true
        MEMBLOCK_RESERVED with
    | error f => rfl
    | ok next => rfl

end Mark

end Cyanea.Memory
