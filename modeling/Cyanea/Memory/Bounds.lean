/-
# Staying inside the array

Which calls touch an element beyond `regions[]`, or hand `memmove` a negative
count. Only the scan of `merge_regions` can do so, and only when it reaches the
last live region: it then compares that region with the slot behind it. The
condition `Clear` says of a table and a call that this comparison is not made or
is harmless, and `run_ends_iff` that it is exact for every run.
-/

import Cyanea.Memory.Allocate

namespace Cyanea.Memory

open Cyanea.Math

/-! ## The last comparison of a scan -/

/-- The entry that stands for a missing one. -/
def noRegion : MemblockRegion := ⟨0, 0, 0, 0⟩

/-- The two regions look the same to a region that follows them. -/
def SameEnd (r r' : MemblockRegion) : Prop :=
  r.regionEnd = r'.regionEnd ∧ r.nid = r'.nid ∧ r.flags = r'.flags

theorem SameEnd.refl (r : MemblockRegion) : SameEnd r r := ⟨rfl, rfl, rfl⟩

theorem SameEnd.apart_iff {r r' : MemblockRegion} (h : SameEnd r r') (next : MemblockRegion) :
    Apart r next ↔ Apart r' next := by
  obtain ⟨hend, hnid, hflags⟩ := h
  rw [Apart, Apart, hend, hnid, hflags]

/-- Extending a region by the one it joins gives it the end of that one. -/
theorem sameEnd_extend {curr next : MemblockRegion} (h : ¬ Apart curr next) :
    SameEnd (curr.extend next) next := by
  simp only [Apart, not_or, not_not] at h
  obtain ⟨hend, hnid, hflags⟩ := h
  refine ⟨?_, hnid, hflags⟩
  simp only [MemblockRegion.regionEnd, MemblockRegion.extend, add64] at hend ⊢
  rw [← hend]
  omega

/-- A scan keeps the end of the last live region. -/
theorem sameEnd_mergeScan (turns : ℕ) (live : List MemblockRegion) :
    SameEnd ((mergeScan turns live).getLastD noRegion) (live.getLastD noRegion) := by
  induction turns generalizing live with
  | zero =>
      match live with
      | [] | [_] | _ :: _ :: _ => exact .refl _
  | succ turns ih =>
      match live with
      | [] | [_] => exact .refl _
      | curr :: next :: rest =>
          rw [mergeScan]
          split
          · have hrest := ih (next :: rest)
            obtain ⟨last, merged, hmerged⟩ :=
              List.exists_cons_of_ne_nil (mergeScan_ne_nil turns next rest)
            rw [hmerged] at hrest ⊢
            simpa only [List.getLastD_cons] using hrest
          · rename_i hjoin
            have hrest := ih (curr.extend next :: rest)
            cases rest with
            | nil =>
                obtain ⟨hend, hnid, hflags⟩ := sameEnd_extend hjoin
                simp only [List.getLastD_cons, List.getLastD_nil] at hrest ⊢
                exact ⟨hrest.1.trans hend, hrest.2.1.trans hnid, hrest.2.2.trans hflags⟩
            | cons y rest => simpa only [List.getLastD_cons] using hrest

theorem mergeScan_eq_self {live : List MemblockRegion} (h : live.IsChain Apart) (turns : ℕ) :
    mergeScan turns live = live := by
  induction turns generalizing live with
  | zero =>
      match live with
      | [] | [_] | _ :: _ :: _ => rfl
  | succ turns ih =>
      match live, h with
      | [], _ | [_], _ => rfl
      | curr :: next :: rest, h =>
          obtain ⟨hapart, hrest⟩ := List.isChain_cons_cons.mp h
          rw [mergeScan, if_pos hapart, ih hrest]

/-- A scan of the whole list shortens it unless nothing joins. -/
theorem length_mergeScan_lt {turns : ℕ} {live : List MemblockRegion}
    (h : ¬ live.IsChain Apart) (hturns : live.length ≤ turns + 1) :
    (mergeScan turns live).length < live.length := by
  induction turns generalizing live with
  | zero =>
      match live, h, hturns with
      | [], h, _ => exact absurd .nil h
      | [_], h, _ => exact absurd (.singleton _) h
  | succ turns ih =>
      match live, h, hturns with
      | [], h, _ => exact absurd .nil h
      | [_], h, _ => exact absurd (.singleton _) h
      | curr :: next :: rest, h, hturns =>
          rw [mergeScan]
          split
          · rename_i hapart
            have hrest : ¬ (next :: rest).IsChain Apart := fun hrest =>
              h (List.isChain_cons_cons.mpr ⟨hapart, hrest⟩)
            simpa using ih hrest (by simpa using hturns)
          · have := length_mergeScan_le turns (curr.extend next :: rest)
            simp only [List.length_cons] at this ⊢
            omega

section Clear

variable (behind : Option MemblockRegion)

/-- The comparison of the last region with the slot behind it does no harm. If
some regions of the scan join, that slot is by then the copy of the last region
that `memmove` has left there. -/
def TailClear (live slots : List MemblockRegion) : Prop :=
  let last := live.getLastD noRegion
  if live.IsChain Apart then ∃ z, slots.head?.or behind = some z ∧ Apart last z
  else last.regionEnd ≠ last.base

theorem slotFault_eq_none_iff (last : MemblockRegion) (slot : Option MemblockRegion) :
    slotFault last slot = none ↔ ∃ z, slot = some z ∧ Apart last z := by
  cases slot with
  | none => simp [slotFault]
  | some z => by_cases h : Apart last z <;> simp [slotFault, h]

theorem slotFault_ne_outOfSpace (last : MemblockRegion) (slot : Option MemblockRegion) :
    slotFault last slot ≠ some .outOfSpace := by
  cases slot with
  | none => simp [slotFault]
  | some z => by_cases h : Apart last z <;> simp [slotFault, h]

theorem scanFault_eq_none_iff (live slots : List MemblockRegion) :
    scanFault behind live slots = none ↔ TailClear behind live slots := by
  have hend := sameEnd_mergeScan live.length live
  simp only [scanFault, TailClear, slotFault_eq_none_iff]
  by_cases hchain : live.IsChain Apart
  · rw [if_pos hchain, mergeScan_eq_self hchain]
    simp [slotsAfter, noRegion]
  · have hlt := length_mergeScan_lt hchain (Nat.le_succ _)
    obtain ⟨k, hk⟩ : ∃ k, live.length - (mergeScan live.length live).length = k + 1 :=
      ⟨live.length - (mergeScan live.length live).length - 1, by omega⟩
    rw [if_neg hchain]
    simp only [slotsAfter, hk, List.replicate_succ, List.cons_append, List.head?_cons,
      Option.some_or, Option.some.injEq, exists_eq_left']
    exact (hend.apart_iff _).trans (by simp [Apart, noRegion])

/-- A scan of a window does no harm. -/
def WindowClear (window : ℕ × ℕ) (live slots : List MemblockRegion) : Prop :=
  window.2 = live.length → TailClear behind (live.drop (window.1 - 1)) slots

theorem windowFault_eq_none_iff (window : ℕ × ℕ) (live slots : List MemblockRegion) :
    windowFault behind window live slots = none ↔ WindowClear behind window live slots := by
  rw [windowFault, WindowClear, ← scanFault_eq_none_iff]
  split <;> simp_all

theorem windowFault_ne_outOfSpace (window : ℕ × ℕ) (live slots : List MemblockRegion) :
    windowFault behind window live slots ≠ some .outOfSpace := by
  rw [windowFault]
  split
  · exact slotFault_ne_outOfSpace _ _
  · simp

/-- The table is laid out well, over an array of the given length. -/
def Within (max : ℕ) (m : Memblock) : Prop := Fits m ∧ m.max = max

theorem within_table {live slots : List MemblockRegion} {drift max : ℕ}
    (h : live.length + slots.length = max) : Within max (table live slots drift) :=
  ⟨fits_table live slots drift, h⟩

/-- Returning a status or an address beside the table changes nothing. -/
theorem EndsIff.reply {P : Prop} {max : ℕ} {x : Except Fault Memblock} {R : Type} {r : R}
    (h : EndsIff P (Within max) (fun f => f = .outOfSpace) x) :
    EndsIff P (fun next => Within max next.1) (fun f => f = .outOfSpace)
      (do let m ← x; return (m, r)) :=
  h.map fun _ hm => hm

theorem length_mergedBy_le (window : ℕ × ℕ) (live : List MemblockRegion) :
    (mergedBy window live).length ≤ live.length := by
  have hscan := length_mergeScan_le (window.2 - (window.1 - 1)) (live.drop (window.1 - 1))
  simp only [mergedBy, List.length_append, List.length_take, List.length_drop] at hscan ⊢
  omega

theorem length_slotsAfter (live merged slots : List MemblockRegion) :
    (slotsAfter live merged slots).length = live.length - merged.length + slots.length := by
  simp [slotsAfter]

theorem mergeResult_endsIff (window : ℕ × ℕ) (live slots : List MemblockRegion)
    (drift : ℕ) :
    EndsIff (WindowClear behind window live slots) (Within (live.length + slots.length))
      (fun f => f = .outOfSpace) (mergeResult behind window live slots drift) := by
  rw [← windowFault_eq_none_iff, mergeResult]
  cases hfault : windowFault behind window live slots with
  | none =>
      have hle := length_mergedBy_le window live
      refine ⟨rfl, within_table ?_⟩
      rw [length_slotsAfter]
      omega
  | some f =>
      refine iff_of_false (fun hf => ?_) (by simp)
      exact windowFault_ne_outOfSpace behind window live slots (hf ▸ hfault)

/-! ## One call -/

/-- The scan behind an addition does no harm. -/
def AddClear (base size : ℕ) (nid : ℤ) (flags : MemblockFlags)
    (live slots : List MemblockRegion) : Prop :=
  let filled := fillRegions (add64 base size) nid flags base live
  size ≠ 0 → live ≠ [] → filled.length ≤ live.length + slots.length →
    ∀ window ∈ fillWindow (add64 base size) 0 base none live,
      WindowClear behind window filled (slots.drop (filled.length - live.length))

/-- The scan behind a change of a range does no harm. -/
def UpdateClear (f : MemblockRegion → MemblockRegion) (base size : ℕ)
    (live slots : List MemblockRegion) : Prop :=
  let isolated := isolateRegions base (add64 base size) live
  let range := isolateIndices base (add64 base size) live 0 (0, 0)
  size ≠ 0 → 2 ≤ slots.length → isolated.length ≤ live.length + slots.length →
    range ≠ (0, 0) →
      WindowClear behind range (updateWindow f range isolated)
        (slots.drop (isolated.length - live.length))

theorem addRange_endsIff (base : ℕ) {size : ℕ} (hlt : size < 2 ^ 64) (nid : ℤ)
    (flags : MemblockFlags) (live slots : List MemblockRegion) (drift : ℕ)
    (hmax : 0 < live.length + slots.length) :
    EndsIff (AddClear behind base size nid flags live slots)
      (fun next => Within (live.length + slots.length) next.1) (fun f => f = .outOfSpace)
      (addRange behind (table live slots drift) base size nid flags) := by
  by_cases hsize : size = 0
  · subst hsize
    rw [addRange_empty]
    exact ⟨fun h => absurd rfl h, within_table rfl⟩
  by_cases hlive : live = []
  · subst hlive
    obtain ⟨z, slots, rfl⟩ := List.exists_cons_of_length_pos (by simpa using hmax)
    rw [addRange_first behind hsize hlt]
    refine ⟨fun _ h => absurd rfl h, within_table ?_⟩
    simp only [List.length_cons, List.length_nil]
    omega
  have hle := length_le_fillRegions (add64 base size) nid flags base live
  rw [addRange_table behind hsize hlive]
  by_cases hfits : (fillRegions (add64 base size) nid flags base live).length ≤
      live.length + slots.length
  · rw [if_pos hfits]
    refine EndsIff.reply ?_
    cases hwindow : fillWindow (add64 base size) 0 base none live with
    | none =>
        refine ⟨fun _ _ _ window h => ?_, within_table ?_⟩
        · simp [hwindow] at h
        · rw [List.length_drop]
          omega
    | some window =>
        have hmerge := mergeResult_endsIff behind window
          (fillRegions (add64 base size) nid flags base live)
          (slots.drop ((fillRegions (add64 base size) nid flags base live).length -
            live.length)) drift
        have hlength : (fillRegions (add64 base size) nid flags base live).length +
            (slots.drop ((fillRegions (add64 base size) nid flags base live).length -
              live.length)).length = live.length + slots.length := by
          rw [List.length_drop]
          omega
        rw [hlength] at hmerge
        refine hmerge.congr ?_
        simp only [AddClear, hwindow, Option.mem_some, forall_eq']
        tauto
  · rw [if_neg hfits]
    exact iff_of_true rfl fun _ _ h => absurd h hfits

theorem updateRange_endsIff {f : MemblockRegion → MemblockRegion}
    (hf : ∀ r, (f r).size = r.size) (base size : ℕ)
    (live slots : List MemblockRegion) (drift : ℕ) :
    EndsIff (UpdateClear behind f base size live slots)
      (fun next => Within (live.length + slots.length) next.1) (fun f => f = .outOfSpace)
      (updateRange behind f (table live slots drift) base size) := by
  by_cases hsize : size = 0
  · subst hsize
    rw [updateRange_empty]
    exact ⟨fun h => absurd rfl h, within_table rfl⟩
  rw [updateRange_table behind hf hsize]
  by_cases hspace : slots.length < 2
  · rw [if_pos hspace]
    exact ⟨fun _ h => absurd hspace (not_lt.mpr h), within_table rfl⟩
  rw [if_neg hspace]
  have hle := length_le_isolateRegions base (add64 base size) live
  by_cases hfits : (isolateRegions base (add64 base size) live).length ≤
      live.length + slots.length
  · rw [if_pos hfits]
    refine EndsIff.reply ?_
    have hlength : (isolateRegions base (add64 base size) live).length +
        (slots.drop ((isolateRegions base (add64 base size) live).length -
          live.length)).length = live.length + slots.length := by
      rw [List.length_drop]
      omega
    rw [updateResult]
    by_cases hrange : isolateIndices base (add64 base size) live 0 (0, 0) = (0, 0)
    · rw [if_pos hrange]
      exact ⟨fun _ _ _ h => absurd hrange h, within_table hlength⟩
    · rw [if_neg hrange]
      have hwindow : WindowIn (isolateRegions base (add64 base size) live).length
          (isolateIndices base (add64 base size) live 0 (0, 0)) := by
        have hin := rangeIn_isolateIndices base (add64 base size) live
          (.inl rfl : RangeIn 0 (0, 0))
        rw [Nat.zero_add] at hin
        exact hin.resolve_left hrange
      have hmerge := mergeResult_endsIff behind
        (isolateIndices base (add64 base size) live 0 (0, 0))
        (updateWindow f (isolateIndices base (add64 base size) live 0 (0, 0))
          (isolateRegions base (add64 base size) live))
        (slots.drop ((isolateRegions base (add64 base size) live).length - live.length)) drift
      rw [length_updateWindow hwindow, hlength] at hmerge
      refine hmerge.congr ?_
      simp only [UpdateClear]
      have hspace' := not_lt.mp hspace
      tauto
  · rw [if_neg hfits]
    exact iff_of_true rfl fun _ _ h => absurd h hfits

theorem memblockRemove_endsIff (base size : ℕ) (live slots : List MemblockRegion)
    (drift : ℕ) :
    EndsIff True (fun next => Within (live.length + slots.length) next.1)
      (fun f => f = .outOfSpace) (memblockRemove (table live slots drift) base size) := by
  by_cases hsize : size = 0
  · subst hsize
    rw [memblockRemove_empty]
    exact ⟨trivial, within_table rfl⟩
  have hremove := memblockRemove_table base hsize live slots drift
  simp only at hremove
  split_ifs at hremove
  · rw [hremove]
    exact ⟨trivial, within_table rfl⟩
  · obtain ⟨slots', drift', hlength, hremove⟩ := hremove
    rw [hremove]
    exact ⟨trivial, within_table hlength⟩
  · rw [hremove]
    exact iff_of_true rfl trivial

/-- The comparison behind the scan of a call, if there is one, does no harm. -/
def Clear (m : Memblock) : Call → Prop
  | .add base size nid flags =>
      AddClear behind base.toNat size.toNat nid (flags &&& ~~~ MEMBLOCK_RESERVED) m.live m.unused
  | .remove _ _ => True
  | .setclrFlag base size set flags =>
      UpdateClear behind (setclr set flags) base.toNat size.toNat m.live m.unused
  | .setNode base size nid =>
      UpdateClear behind (fun r => { r with nid }) base.toNat size.toNat m.live m.unused
  | .reserve base size =>
      UpdateClear behind (setclr true MEMBLOCK_RESERVED) base.toNat size.toNat m.live m.unused
  | .alloc size align start rangeEnd nid exactNid =>
      let paddr := target size.toNat align.toNat start.toNat rangeEnd.toNat nid exactNid m.live
      paddr ≠ 0 →
        UpdateClear behind (setclr true MEMBLOCK_RESERVED) paddr size.toNat m.live m.unused
  | .free base size =>
      UpdateClear behind (setclr false MEMBLOCK_RESERVED) base.toNat size.toNat m.live m.unused

theorem memblockAlloc_endsIff (size align start rangeEnd : ℕ) (nid : ℤ) (exactNid : Bool)
    (live slots : List MemblockRegion) (drift : ℕ) :
    EndsIff
      (target size align start rangeEnd nid exactNid live ≠ 0 →
        UpdateClear behind (setclr true MEMBLOCK_RESERVED)
          (target size align start rangeEnd nid exactNid live) size live slots)
      (fun next => Within (live.length + slots.length) next.1) (fun f => f = .outOfSpace)
      (memblockAlloc behind (table live slots drift) size align start rangeEnd nid
        exactNid) := by
  have halloc := memblockAlloc_table behind size align start rangeEnd nid exactNid live slots drift
  simp only at halloc
  rw [halloc]
  by_cases hnone : target size align start rangeEnd nid exactNid live = 0 ∨ NoSpace size slots
  · rw [if_pos hnone]
    refine ⟨fun hne _ hspace => ?_, within_table rfl⟩
    rcases hnone with hzero | ⟨-, hlt⟩
    · exact absurd hzero hne
    · exact absurd hlt (not_lt.mpr hspace)
  · rw [if_neg hnone]
    have hmark := updateRange_endsIff behind (setclr_size true MEMBLOCK_RESERVED)
      (target size align start rangeEnd nid exactNid live) size live slots drift
    have hne : target size align start rangeEnd nid exactNid live ≠ 0 := fun h =>
      hnone (.inl h)
    exact EndsIff.congr (hmark.map fun _ h => h) ⟨fun h _ => h, fun h => h hne⟩

/-- One call keeps the table within its array, and it stops for another reason than
the assertion exactly if it is not clear. -/
theorem step_endsIff {max : ℕ} (hmax : 0 < max) (m : Memblock) (call : Call)
    (hm : Within max m) :
    EndsIff (Clear behind m call) (fun next => Within max next.1) (fun f => f = .outOfSpace)
      (step behind m call) := by
  obtain ⟨hfits, rfl⟩ := hm
  obtain ⟨live, slots, drift, rfl⟩ := hfits.eq_table
  simp only [table_max] at hmax ⊢
  cases call with
  | add base size nid flags =>
      have h := addRange_endsIff behind base.toNat size.toNat_lt nid
        (flags &&& ~~~ MEMBLOCK_RESERVED) live slots drift hmax
      simp only [Clear, live_table, unused_table]
      exact h.map fun _ hm => hm
  | remove base size =>
      have h := memblockRemove_endsIff base.toNat size.toNat live slots drift
      exact h.map fun _ hm => hm
  | setclrFlag base size set flags =>
      have h := updateRange_endsIff behind (setclr_size set flags) base.toNat size.toNat live
        slots drift
      simp only [Clear, live_table, unused_table]
      exact h.map fun _ hm => hm
  | setNode base size nid =>
      have hsize : ∀ r : MemblockRegion, { r with nid }.size = r.size := fun _ => rfl
      have h := updateRange_endsIff behind hsize base.toNat size.toNat live slots drift
      simp only [Clear, live_table, unused_table]
      exact h.map fun _ hm => hm
  | reserve base size =>
      have h := updateRange_endsIff behind (setclr_size true MEMBLOCK_RESERVED) base.toNat
        size.toNat live slots drift
      simp only [Clear, live_table, unused_table]
      exact h.map fun _ hm => hm
  | alloc size align start rangeEnd nid exactNid =>
      have h := memblockAlloc_endsIff behind size.toNat align.toNat start.toNat rangeEnd.toNat
        nid exactNid live slots drift
      simp only [Clear, live_table, unused_table]
      exact h.map fun _ hm => hm
  | free base size =>
      have h := updateRange_endsIff behind (setclr_size false MEMBLOCK_RESERVED) base.toNat
        size.toNat live slots drift
      simp only [Clear, live_table, unused_table]
      exact (EndsIff.map h fun _ hm => hm).map fun _ hm => hm

end Clear

/-! ## Runs -/

theorem within_memory : Within NR_REGIONS memory :=
  ⟨⟨Nat.zero_le _, List.length_replicate, by decide⟩, rfl⟩

/-- A run from the empty table stays inside the array and never asks `memmove` for a
negative count, unless it stops at the assertion, exactly if every call in it is
clear. -/
theorem always_within_iff (calls : List Call) :
    Always (step none) (Within NR_REGIONS) (fun f => f = .outOfSpace) memory calls ↔
      Along (step none) (Clear none) memory calls :=
  always_iff_along (fun _ h => h) (fun m call _ => step_endsIff none (by decide) m call)
    within_memory

/-- Regions with gaps between them, and then a range of another node over all of
them: it fills the gaps and the last slot. -/
def fillingAdds : List Call :=
  ((List.range (NR_REGIONS / 2)).map fun i => .add (.ofNat (20 * i)) 10 0 MEMBLOCK_NONE) ++
    [.add 0 1280 1 MEMBLOCK_NONE]

/-- Three regions, of which the last two are removed, and a fourth that ends where
the removed third one began. -/
def staleAdds : List Call :=
  [.add 0 10 0 MEMBLOCK_NONE, .add 20 10 0 MEMBLOCK_NONE, .add 40 10 0 MEMBLOCK_NONE,
    .remove 20 30, .add 30 10 0 MEMBLOCK_NONE]

theorem run_fillingAdds : run (step none) memory fillingAdds = .error .outOfBounds := by
  decide +kernel

theorem run_staleAdds : run (step none) memory staleAdds = .error .negativeCount := by
  decide +kernel

/-- Filling the table reads `regions[NR_REGIONS]`, and a leftover entry that continues
the last region makes the count negative. -/
theorem leaves_array :
    ¬ Always (step none) (Within NR_REGIONS) (fun f => f = .outOfSpace) memory fillingAdds ∧
      ¬ Always (step none) (Within NR_REGIONS) (fun f => f = .outOfSpace) memory
        staleAdds :=
  ⟨not_always_of_run run_fillingAdds (by decide),
    not_always_of_run run_staleAdds (by decide)⟩

end Cyanea.Memory
