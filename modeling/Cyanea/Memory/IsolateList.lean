/-
# Isolating a range, on lists

The list form of `isolate_range`. A region that begins before the range is cut
there, and the loop goes on with the part behind the cut; a region that ends
behind the range is cut at the end, and the loop looks at the part before the
cut again. Both parts are handled by the recursion in one step.
-/

import Cyanea.Memory.RegionList

namespace Cyanea.Memory

open Cyanea.Math

section Isolate

/-- The part of a region before `cut`, as `isolate_range` inserts it. -/
def MemblockRegion.before (r : MemblockRegion) (cut : ℕ) : MemblockRegion :=
  { r with size := sub64 cut r.base }

/-- What `isolate_range` leaves of a region behind `cut`. -/
def MemblockRegion.after (r : MemblockRegion) (cut : ℕ) : MemblockRegion :=
  { r with base := cut, size := sub64 r.size (sub64 cut r.base) }

theorem cutRegion_table (pre rest slots : List MemblockRegion) (r z : MemblockRegion)
    (drift cut : ℕ) :
    cutRegion (table (pre ++ r :: rest) (z :: slots) drift) pre.length cut r =
      .ok (table (pre ++ r.before cut :: r.after cut :: rest) slots drift) := by
  have hlen : (pre ++ r.after cut :: rest).length = (pre ++ r :: rest).length := by simp
  have hsize : sub64 ((sizeSum (pre ++ r :: rest) + drift) % 2 ^ 64) (sub64 cut r.base) =
      (sizeSum (pre ++ r.after cut :: rest) + drift) % 2 ^ 64 := by
    simp only [sizeSum_append, sizeSum_cons, MemblockRegion.after, sub64]
    omega
  have htrim : table (pre ++ r.after cut :: rest) (z :: slots) drift =
      { table (pre ++ r :: rest) (z :: slots) drift with
        regions := pre ++ r.after cut :: (rest ++ z :: slots)
        size := sub64 (table (pre ++ r :: rest) (z :: slots) drift).size
          (sub64 cut r.base) } := by
    simp only [table, hsize, hlen, List.append_assoc, List.cons_append]
  rw [cutRegion]
  simp only [table_regions, List.append_assoc, List.cons_append, storeRegion_append, bind,
    Except.bind]
  have hinsert := insertRegion_table pre (r.after cut :: rest) slots z drift r.base
    (sub64 cut r.base) r.nid r.flags
  rw [htrim] at hinsert
  exact hinsert

theorem cutRegion_full (pre rest : List MemblockRegion) (r : MemblockRegion)
    (drift cut : ℕ) :
    cutRegion (table (pre ++ r :: rest) [] drift) pre.length cut r =
      .error .outOfSpace := by
  rw [cutRegion]
  simp only [table_regions, List.append_assoc, List.cons_append, storeRegion_append, bind,
    Except.bind]
  rw [insertRegion, if_pos (by simp)]
  rfl

variable (base rangeEnd : ℕ)

/-- A region that does not begin before the range, followed by `rest`, of which
`isolated` is the isolated form. -/
def isolateInner (r : MemblockRegion) (rest isolated : List MemblockRegion) :
    List MemblockRegion :=
  if rangeEnd ≤ r.base then r :: rest
  else if r.regionEnd ≤ base then r :: isolated
  else if rangeEnd < r.regionEnd then r.before rangeEnd :: r.after rangeEnd :: rest
  else r :: isolated

/-- The live regions after `isolate_range`. -/
def isolateRegions : List MemblockRegion → List MemblockRegion
  | [] => []
  | r :: rest =>
      if rangeEnd ≤ r.base then r :: rest
      else if r.regionEnd ≤ base then r :: isolateRegions rest
      else if r.base < base then
        r.before base ::
          isolateInner base rangeEnd (r.after base) rest (isolateRegions rest)
      else isolateInner base rangeEnd r rest (isolateRegions rest)

/-- Record in the results that region `i` lies inside the range. -/
def mark (i : ℕ) (range : ℕ × ℕ) : ℕ × ℕ := (if range.2 = 0 then i else range.1, i + 1)

/-- The counterpart of `isolateInner` for the two indices that are returned. -/
def isolateIndicesInner (r : MemblockRegion) (i : ℕ) (range : ℕ × ℕ)
    (indices : ℕ → ℕ × ℕ → ℕ × ℕ) : ℕ × ℕ :=
  if rangeEnd ≤ r.base then range
  else if r.regionEnd ≤ base then indices (i + 1) range
  else if rangeEnd < r.regionEnd then mark i range
  else indices (i + 1) (mark i range)

/-- `*start_range` and `*end_range` for regions that begin at index `i`. -/
def isolateIndices : List MemblockRegion → ℕ → ℕ × ℕ → ℕ × ℕ
  | [], _, range => range
  | r :: rest, i, range =>
      if rangeEnd ≤ r.base then range
      else if r.regionEnd ≤ base then isolateIndices rest (i + 1) range
      else if r.base < base then
        isolateIndicesInner base rangeEnd (r.after base) (i + 1) range (isolateIndices rest)
      else isolateIndicesInner base rangeEnd r i range (isolateIndices rest)

/-- The part of a region behind the start of the range is treated as a region of its
own. -/
theorem isolateRegions_after (r : MemblockRegion) (rest : List MemblockRegion) :
    isolateRegions base rangeEnd (r.after base :: rest) =
      isolateInner base rangeEnd (r.after base) rest (isolateRegions base rangeEnd rest) := by
  have hbase : ¬ (r.after base).base < base := lt_irrefl base
  rw [isolateRegions, if_neg hbase, isolateInner]
  split_ifs <;> rfl

theorem isolateIndices_after (r : MemblockRegion) (rest : List MemblockRegion) (i : ℕ)
    (range : ℕ × ℕ) :
    isolateIndices base rangeEnd (r.after base :: rest) i range =
      isolateIndicesInner base rangeEnd (r.after base) i range
        (isolateIndices base rangeEnd rest) := by
  have hbase : ¬ (r.after base).base < base := lt_irrefl base
  rw [isolateIndices, if_neg hbase, isolateIndicesInner]
  split_ifs <;> rfl

theorem length_isolateInner_le (r : MemblockRegion) {rest isolated : List MemblockRegion}
    (h : rest.length ≤ isolated.length) :
    rest.length + 1 ≤ (isolateInner base rangeEnd r rest isolated).length := by
  rw [isolateInner]
  split_ifs <;> simp only [List.length_cons] <;> omega

theorem length_le_isolateRegions (live : List MemblockRegion) :
    live.length ≤ (isolateRegions base rangeEnd live).length := by
  induction live with
  | nil => simp
  | cons r rest ih =>
      have hinner := length_isolateInner_le base rangeEnd r ih
      have hafter := length_isolateInner_le base rangeEnd (r.after base) ih
      rw [isolateRegions]
      split_ifs <;> simp only [List.length_cons] <;> omega

section Turn

variable (turns start stop drift : ℕ) (pre rest slots : List MemblockRegion)
  (r z : MemblockRegion)

theorem isolateLoop_nil :
    isolateLoop base rangeEnd turns ⟨pre.length, start, stop, table pre slots drift⟩ =
      .ok ⟨pre.length, start, stop, table pre slots drift⟩ := by
  cases turns with
  | zero => simp [isolateLoop]; rfl
  | succ turns => simp [isolateLoop]; rfl

theorem isolateLoop_behind (h : rangeEnd ≤ r.base) :
    isolateLoop base rangeEnd (turns + 1)
        ⟨pre.length, start, stop, table (pre ++ r :: rest) slots drift⟩ =
      .ok ⟨pre.length, start, stop, table (pre ++ r :: rest) slots drift⟩ := by
  simp [isolateLoop, h, bind, Except.bind]
  rfl

theorem isolateLoop_before (h : ¬ rangeEnd ≤ r.base) (hend : r.regionEnd ≤ base) :
    isolateLoop base rangeEnd (turns + 1)
        ⟨pre.length, start, stop, table (pre ++ r :: rest) slots drift⟩ =
      isolateLoop base rangeEnd turns
        ⟨(pre ++ [r]).length, start, stop, table ((pre ++ [r]) ++ rest) slots drift⟩ := by
  simp [isolateLoop, h, hend, bind, Except.bind]

theorem isolateLoop_low (h : ¬ rangeEnd ≤ r.base) (hend : ¬ r.regionEnd ≤ base)
    (hlow : r.base < base) :
    isolateLoop base rangeEnd (turns + 1)
        ⟨pre.length, start, stop, table (pre ++ r :: rest) (z :: slots) drift⟩ =
      isolateLoop base rangeEnd turns ⟨(pre ++ [r.before base]).length, start, stop,
        table ((pre ++ [r.before base]) ++ r.after base :: rest) slots drift⟩ := by
  have hcut := cutRegion_table pre rest slots r z drift base
  simp [isolateLoop, h, hend, hlow, hcut, bind, Except.bind]

theorem isolateLoop_low_full (h : ¬ rangeEnd ≤ r.base) (hend : ¬ r.regionEnd ≤ base)
    (hlow : r.base < base) :
    isolateLoop base rangeEnd (turns + 1)
        ⟨pre.length, start, stop, table (pre ++ r :: rest) [] drift⟩ =
      .error .outOfSpace := by
  have hcut := cutRegion_full pre rest r drift base
  rw [isolateLoop]
  simp [h, hend, hlow, hcut, bind, Except.bind]

theorem isolateLoop_high (h : ¬ rangeEnd ≤ r.base) (hend : ¬ r.regionEnd ≤ base)
    (hlow : ¬ r.base < base) (hhigh : rangeEnd < r.regionEnd) :
    isolateLoop base rangeEnd (turns + 1)
        ⟨pre.length, start, stop, table (pre ++ r :: rest) (z :: slots) drift⟩ =
      isolateLoop base rangeEnd turns ⟨pre.length, start, stop,
        table (pre ++ r.before rangeEnd :: r.after rangeEnd :: rest) slots drift⟩ := by
  have hcut := cutRegion_table pre rest slots r z drift rangeEnd
  simp [isolateLoop, h, hend, hlow, hhigh, hcut, bind, Except.bind]

theorem isolateLoop_high_full (h : ¬ rangeEnd ≤ r.base) (hend : ¬ r.regionEnd ≤ base)
    (hlow : ¬ r.base < base) (hhigh : rangeEnd < r.regionEnd) :
    isolateLoop base rangeEnd (turns + 1)
        ⟨pre.length, start, stop, table (pre ++ r :: rest) [] drift⟩ =
      .error .outOfSpace := by
  have hcut := cutRegion_full pre rest r drift rangeEnd
  rw [isolateLoop]
  simp [h, hend, hlow, hhigh, hcut, bind, Except.bind]

theorem isolateLoop_inside (h : ¬ rangeEnd ≤ r.base) (hend : ¬ r.regionEnd ≤ base)
    (hlow : ¬ r.base < base) (hhigh : ¬ rangeEnd < r.regionEnd) :
    isolateLoop base rangeEnd (turns + 1)
        ⟨pre.length, start, stop, table (pre ++ r :: rest) slots drift⟩ =
      isolateLoop base rangeEnd turns ⟨(pre ++ [r]).length, (mark pre.length (start, stop)).1,
        (mark pre.length (start, stop)).2, table ((pre ++ [r]) ++ rest) slots drift⟩ := by
  simp [isolateLoop, h, hend, hlow, hhigh, mark, bind, Except.bind]

end Turn

/-- The loop over `rest` ends with `isolated` in its place, and turns the two
results as `indices` says. -/
def IsolatesTo (rest isolated : List MemblockRegion) (indices : ℕ → ℕ × ℕ → ℕ × ℕ) : Prop :=
  ∀ (slots pre : List MemblockRegion) (turns : ℕ) (range : ℕ × ℕ) (drift : ℕ),
    rest.length + 2 * slots.length ≤ turns →
    Ends
      (fun s => (s.startRange, s.endRange) = indices pre.length range ∧
        s.memory = table (pre ++ isolated) (slots.drop (isolated.length - rest.length)) drift ∧
        isolated.length ≤ rest.length + slots.length)
      (fun f => f = .outOfSpace ∧ rest.length + slots.length < isolated.length)
      (isolateLoop base rangeEnd turns
        ⟨pre.length, range.1, range.2, table (pre ++ rest) slots drift⟩)

variable {base rangeEnd}

/-- Stepping over one region that stays as it is. -/
theorem IsolatesTo.cons {r : MemblockRegion} {rest isolated : List MemblockRegion}
    {indices indices' : ℕ → ℕ × ℕ → ℕ × ℕ} (h : IsolatesTo base rangeEnd rest isolated indices)
    (next : ℕ → ℕ × ℕ → ℕ × ℕ) (hindices : ∀ i range, indices' i range = indices (i + 1) (next i range))
    (hstep : ∀ (slots pre : List MemblockRegion) (turns : ℕ) (range : ℕ × ℕ) (drift : ℕ),
      isolateLoop base rangeEnd (turns + 1)
          ⟨pre.length, range.1, range.2, table (pre ++ r :: rest) slots drift⟩ =
        isolateLoop base rangeEnd turns ⟨(pre ++ [r]).length, (next pre.length range).1,
          (next pre.length range).2, table ((pre ++ [r]) ++ rest) slots drift⟩) :
    IsolatesTo base rangeEnd (r :: rest) (r :: isolated) indices' := by
  intro slots pre turns range drift hturns
  simp only [List.length_cons] at hturns
  obtain ⟨turns, rfl⟩ : ∃ t, turns = t + 1 := ⟨turns - 1, by omega⟩
  rw [hstep]
  refine (h slots (pre ++ [r]) turns (next pre.length range) drift (by omega)).mono ?_ ?_
  · rintro s ⟨hrange, hmemory, hlen⟩
    simp only [List.length_append, List.length_singleton, List.append_assoc,
      List.singleton_append] at hrange hmemory
    simp only [List.length_cons, Nat.add_sub_add_right, hindices]
    exact ⟨hrange, hmemory, by omega⟩
  · rintro f ⟨hf, hlen⟩
    simp only [List.length_cons]
    exact ⟨hf, by omega⟩

/-- The loop ends at a region that lies behind the range. -/
theorem isolatesTo_behind (base : ℕ) {r : MemblockRegion} (rest : List MemblockRegion)
    (h : rangeEnd ≤ r.base) :
    IsolatesTo base rangeEnd (r :: rest) (r :: rest) (fun _ range => range) := by
  intro slots pre turns range drift hturns
  simp only [List.length_cons] at hturns
  obtain ⟨turns, rfl⟩ : ∃ t, turns = t + 1 := ⟨turns - 1, by omega⟩
  rw [isolateLoop_behind _ _ _ _ _ _ _ _ _ _ h]
  simp

theorem isolatesTo_high {r : MemblockRegion} (rest : List MemblockRegion)
    (h : ¬ rangeEnd ≤ r.base) (hend : ¬ r.regionEnd ≤ base)
    (hlow : ¬ r.base < base) (hhigh : rangeEnd < r.regionEnd) (hlt : rangeEnd < 2 ^ 64) :
    IsolatesTo base rangeEnd (r :: rest) (r.before rangeEnd :: r.after rangeEnd :: rest)
      mark := by
  intro slots pre turns range drift hturns
  simp only [List.length_cons] at hturns
  obtain ⟨turns, rfl⟩ : ∃ t, turns = t + 1 := ⟨turns - 1, by omega⟩
  cases slots with
  | nil =>
      rw [isolateLoop_high_full _ _ _ _ _ _ _ _ _ h hend hlow hhigh]
      simp
  | cons z slots =>
      simp only [List.length_cons] at hturns
      -- the part before the cut is inside the range, the part behind it ends the loop
      have hbefore : (r.before rangeEnd).regionEnd = rangeEnd := by
        simp only [MemblockRegion.before, MemblockRegion.regionEnd, add64, sub64]
        omega
      have hbase : (r.before rangeEnd).base = r.base := rfl
      have hafter : rangeEnd ≤ (r.after rangeEnd).base := le_rfl
      obtain ⟨turns, rfl⟩ : ∃ t, turns = t + 2 := ⟨turns - 2, by omega⟩
      rw [isolateLoop_high _ _ _ _ _ _ _ _ _ _ _ h hend hlow hhigh,
        isolateLoop_inside _ _ _ _ _ _ _ _ _ _ (by rwa [hbase]) (by rw [hbefore]; omega)
          (by rwa [hbase]) (by rw [hbefore]; omega),
        isolateLoop_behind _ _ _ _ _ _ _ _ _ _ hafter]
      simp

theorem isolatesTo_inner {r : MemblockRegion} {rest isolated : List MemblockRegion}
    {indices : ℕ → ℕ × ℕ → ℕ × ℕ} (hrest : IsolatesTo base rangeEnd rest isolated indices)
    (hlow : ¬ r.base < base) (hlt : rangeEnd < 2 ^ 64) :
    IsolatesTo base rangeEnd (r :: rest) (isolateInner base rangeEnd r rest isolated)
      (fun i range => isolateIndicesInner base rangeEnd r i range indices) := by
  simp only [isolateInner, isolateIndicesInner]
  by_cases h : rangeEnd ≤ r.base
  · simpa only [if_pos h] using isolatesTo_behind base rest h
  simp only [if_neg h]
  by_cases hend : r.regionEnd ≤ base
  · simp only [if_pos hend]
    exact hrest.cons (fun _ range => range) (fun _ _ => rfl) fun slots pre turns range drift =>
      isolateLoop_before _ _ _ _ _ _ _ _ _ _ h hend
  simp only [if_neg hend]
  by_cases hhigh : rangeEnd < r.regionEnd
  · simpa only [if_pos hhigh] using isolatesTo_high rest h hend hlow hhigh hlt
  · simp only [if_neg hhigh]
    exact hrest.cons mark (fun _ _ => rfl) fun slots pre turns range drift =>
      isolateLoop_inside _ _ _ _ _ _ _ _ _ _ h hend hlow hhigh

theorem isolatesTo_low {r : MemblockRegion} {rest isolated : List MemblockRegion}
    {indices : ℕ → ℕ × ℕ → ℕ × ℕ}
    (hrest : IsolatesTo base rangeEnd (r.after base :: rest) isolated indices)
    (hle : rest.length + 1 ≤ isolated.length)
    (h : ¬ rangeEnd ≤ r.base) (hend : ¬ r.regionEnd ≤ base) (hlow : r.base < base) :
    IsolatesTo base rangeEnd (r :: rest) (r.before base :: isolated)
      (fun i range => indices (i + 1) range) := by
  intro slots pre turns range drift hturns
  simp only [List.length_cons] at hturns
  obtain ⟨turns, rfl⟩ : ∃ t, turns = t + 1 := ⟨turns - 1, by omega⟩
  cases slots with
  | nil =>
      rw [isolateLoop_low_full _ _ _ _ _ _ _ _ _ h hend hlow]
      refine ⟨rfl, ?_⟩
      simp only [List.length_cons, List.length_nil]
      omega
  | cons z slots =>
      simp only [List.length_cons] at hturns
      rw [isolateLoop_low _ _ _ _ _ _ _ _ _ _ _ h hend hlow]
      refine (hrest slots (pre ++ [r.before base]) turns range drift
        (by simp only [List.length_cons]; omega)).mono ?_ ?_
      · rintro s ⟨hrange, hmemory, hlen⟩
        have hcount : isolated.length + 1 - (rest.length + 1) =
            isolated.length - (rest.length + 1) + 1 := by omega
        simp only [List.length_append, List.append_assoc, List.singleton_append,
          List.length_cons] at hrange hmemory hlen
        simp only [List.length_cons, hcount, List.drop_succ_cons]
        exact ⟨hrange, hmemory, by omega⟩
      · rintro f ⟨hf, hlen⟩
        simp only [List.length_cons] at hlen ⊢
        exact ⟨hf, by omega⟩

/-- The loop of `isolate_range` cuts the regions as `isolateRegions` says, or runs
out of slots. -/
theorem isolateLoop_table (base : ℕ) (hlt : rangeEnd < 2 ^ 64) (live : List MemblockRegion) :
    IsolatesTo base rangeEnd live (isolateRegions base rangeEnd live)
      (isolateIndices base rangeEnd live) := by
  induction live with
  | nil =>
      intro slots pre turns range drift hturns
      rw [List.append_nil, isolateLoop_nil]
      simp [isolateRegions, isolateIndices]
  | cons r rest ih =>
      by_cases h : rangeEnd ≤ r.base
      · have := isolatesTo_behind base rest h
        simpa only [IsolatesTo, isolateRegions, isolateIndices, if_pos h] using this
      by_cases hend : r.regionEnd ≤ base
      · have := ih.cons (fun _ range => range) (fun _ _ => rfl)
          fun slots pre turns range drift => isolateLoop_before _ _ _ _ _ _ _ _ _ _ h hend
        simpa only [IsolatesTo, isolateRegions, isolateIndices, if_neg h, if_pos hend] using this
      by_cases hlow : r.base < base
      · have hinner := isolatesTo_inner ih (r := r.after base) (lt_irrefl _) hlt
        have hle := length_isolateInner_le base rangeEnd (r.after base)
          (length_le_isolateRegions base rangeEnd rest)
        have := isolatesTo_low hinner hle h hend hlow
        simpa only [IsolatesTo, isolateRegions, isolateIndices, if_neg h, if_neg hend,
          if_pos hlow] using this
      · have := isolatesTo_inner ih hlow hlt
        simpa only [IsolatesTo, isolateRegions, isolateIndices, if_neg h, if_neg hend,
          if_neg hlow] using this

/-! ### The indices of the regions inside -/

/-- The results either still mark nothing, or are a window of the first `n`
entries. -/
def RangeIn (n : ℕ) (range : ℕ × ℕ) : Prop := range = (0, 0) ∨ WindowIn n range

theorem RangeIn.mono {k n : ℕ} {range : ℕ × ℕ} (h : RangeIn k range) (hkn : k ≤ n) :
    RangeIn n range :=
  h.imp id fun hw => ⟨hw.1, hw.2.trans hkn⟩

theorem RangeIn.mark {i : ℕ} {range : ℕ × ℕ} (h : RangeIn i range) :
    RangeIn (i + 1) (mark i range) := by
  refine .inr ⟨?_, le_rfl⟩
  rcases h with rfl | ⟨hlt, hle⟩
  · simp [Memory.mark]
  · have hne : range.2 ≠ 0 := by omega
    simp only [Memory.mark, if_neg hne]
    omega

theorem rangeIn_isolateIndicesInner (r : MemblockRegion) (rest : List MemblockRegion)
    {isolated : List MemblockRegion}
    {indices : ℕ → ℕ × ℕ → ℕ × ℕ} {i : ℕ} {range : ℕ × ℕ} (h : RangeIn i range)
    (hrest : ∀ j range, RangeIn j range → RangeIn (j + isolated.length) (indices j range)) :
    RangeIn (i + (isolateInner base rangeEnd r rest isolated).length)
      (isolateIndicesInner base rangeEnd r i range indices) := by
  rw [isolateInner, isolateIndicesInner]
  split_ifs with hbehind hend hhigh
  · exact h.mono (by omega)
  · exact (hrest (i + 1) range (h.mono (by omega))).mono
      (by simp only [List.length_cons]; omega)
  · exact h.mark.mono (by simp only [List.length_cons]; omega)
  · exact (hrest (i + 1) _ h.mark).mono (by simp only [List.length_cons]; omega)

theorem rangeIn_isolateIndices (base rangeEnd : ℕ) (live : List MemblockRegion) {i : ℕ}
    {range : ℕ × ℕ}
    (h : RangeIn i range) :
    RangeIn (i + (isolateRegions base rangeEnd live).length)
      (isolateIndices base rangeEnd live i range) := by
  induction live generalizing i range with
  | nil => exact h
  | cons r rest ih =>
      rw [isolateRegions, isolateIndices]
      split_ifs with hbehind hend hlow
      · exact h.mono (by omega)
      · exact (ih (h.mono (by omega))).mono (by simp only [List.length_cons]; omega)
      · have hnext : RangeIn (i + 1) range := h.mono (by omega)
        refine RangeIn.mono (rangeIn_isolateIndicesInner (r.after base) rest hnext
          fun _ _ hr => ih hr) ?_
        simp only [List.length_cons]
        omega
      · exact rangeIn_isolateIndicesInner r rest h fun _ _ hr => ih hr

end Isolate

end Cyanea.Memory
