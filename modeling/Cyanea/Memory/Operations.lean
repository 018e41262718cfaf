/-
# The operations, on lists

Each external operation of the allocator as one equation: whether it runs out
of slots, whether the scan of `merge_regions` goes wrong at the end of the live
regions, and otherwise the table it returns. Nothing is assumed about the
regions or the arguments beyond what fits a 64-bit word.
-/

import Cyanea.Memory.FillList
import Cyanea.Memory.IsolateList
import Mathlib.Data.List.Induction

namespace Cyanea.Memory

open Cyanea.Math

variable (behind : Option MemblockRegion)

/-! ## Merging in a window -/

/-- The live regions once the scan of a window stayed among them. -/
def mergedBy (window : ℕ × ℕ) (live : List MemblockRegion) : List MemblockRegion :=
  live.take (window.1 - 1) ++
    mergeScan (window.2 - (window.1 - 1)) (live.drop (window.1 - 1))

/-- How the scan of a window goes wrong. It can only do so when it reaches the end
of the live regions. -/
def windowFault (window : ℕ × ℕ) (live slots : List MemblockRegion) : Option Fault :=
  if window.2 = live.length then scanFault behind (live.drop (window.1 - 1)) slots
  else none

/-- The table after merging in a window, or the fault. -/
def mergeResult (window : ℕ × ℕ) (live slots : List MemblockRegion) (drift : ℕ) :
    Except Fault Memblock :=
  match windowFault behind window live slots with
  | some f => .error f
  | none => .ok (table (mergedBy window live)
      (slotsAfter live (mergedBy window live) slots) drift)

theorem slotsAfter_append {pre rest merged slots : List MemblockRegion} (h : rest ≠ []) :
    slotsAfter (pre ++ rest) (pre ++ merged) slots = slotsAfter rest merged slots := by
  have hlast : (pre ++ rest).getLastD ⟨0, 0, 0, 0⟩ = rest.getLastD ⟨0, 0, 0, 0⟩ := by
    rw [List.getLastD_eq_getLast?, List.getLastD_eq_getLast?, List.getLast?_append_of_ne_nil _ h]
  have hcount : (pre ++ rest).length - (pre ++ merged).length =
      rest.length - merged.length := by
    simp only [List.length_append]
    omega
  rw [slotsAfter, slotsAfter, hlast, hcount]

theorem mergeRegions_table {window : ℕ × ℕ} {live : List MemblockRegion}
    (h : WindowIn live.length window) (slots : List MemblockRegion) (drift : ℕ) :
    mergeRegions behind (table live slots drift) window.1 window.2 =
      mergeResult behind window live slots drift := by
  obtain ⟨start, stop⟩ := window
  obtain ⟨hlt, hle⟩ := h
  simp only at hlt hle
  obtain ⟨pre, rest, rfl, hpre⟩ : ∃ pre rest, live = pre ++ rest ∧ pre.length = start - 1 :=
    ⟨live.take (start - 1), live.drop (start - 1), by simp, by simp; omega⟩
  simp only [List.length_append] at hle
  have hrest : rest ≠ [] := by
    rintro rfl
    simp only [List.length_nil] at hle
    omega
  have hi : (if start = 0 then 0 else pre.length) = pre.length := by
    split <;> omega
  simp only [mergeRegions, mergeResult, windowFault, mergedBy, ← hpre, List.take_left,
    List.drop_left, slotsAfter_append hrest]
  rw [hi]
  by_cases hend : stop = (pre ++ rest).length
  · have hturns : stop - pre.length = rest.length := by simp [hend]
    rw [if_pos hend, hturns]
    exact (mergeLoop_end behind hrest pre slots drift).trans rfl
  · have hturns : stop - pre.length < rest.length := by
      simp only [List.length_append] at hend
      omega
    rw [if_neg hend, mergeLoop_table behind hturns]

/-! ## Adding -/

/-- Merge in the window of the pieces that were added, if any were. -/
def mergeAdded (window : Option (ℕ × ℕ)) (live slots : List MemblockRegion) (drift : ℕ) :
    Except Fault Memblock :=
  match window with
  | none => .ok (table live slots drift)
  | some window => mergeResult behind window live slots drift

theorem addRange_empty (m : Memblock) (base : ℕ) (nid : ℤ) (flags : MemblockFlags) :
    addRange behind m base 0 nid flags = .ok (m, SUCCESS) := by
  rw [addRange, if_pos rfl]
  rfl

theorem addRange_first {base size : ℕ} (hsize : size ≠ 0) (hlt : size < 2 ^ 64)
    (slots : List MemblockRegion) (z : MemblockRegion) (drift : ℕ) (nid : ℤ)
    (flags : MemblockFlags) :
    addRange behind (table [] (z :: slots) drift) base size nid flags =
      .ok (table [⟨flags, base, size, nid⟩] slots 0, SUCCESS) := by
  have hstore := storeRegion_append [] slots z ⟨flags, base, size, nid⟩
  rw [List.nil_append, List.length_nil] at hstore
  have hn : (table [] (z :: slots) drift).n = 0 := rfl
  rw [addRange, if_neg hsize]
  simp only [hn, if_true, table_regions, List.nil_append, hstore, bind, Except.bind, pure, Except.pure]
  simp only [table, sizeSum_cons, sizeSum_nil, Nat.add_zero, Nat.mod_eq_of_lt hlt,
    List.length_nil, List.length_cons, List.nil_append, List.singleton_append]
  congr 3
  omega

theorem addRange_table {base size : ℕ} (hsize : size ≠ 0) {live : List MemblockRegion}
    (hlive : live ≠ []) (slots : List MemblockRegion) (drift : ℕ) (nid : ℤ)
    (flags : MemblockFlags) :
    let filled := fillRegions (add64 base size) nid flags base live
    addRange behind (table live slots drift) base size nid flags =
      if filled.length ≤ live.length + slots.length then do
        let m ← mergeAdded behind (fillWindow (add64 base size) 0 base none live) filled
          (slots.drop (filled.length - live.length)) drift
        return (m, SUCCESS)
      else .error .outOfSpace := by
  intro filled
  have hfilled : fillRegions (add64 base size) nid flags base live = filled := rfl
  have hgaps := addGaps_table (add64 base size) nid flags live slots []
    (live.length + slots.length) base none drift le_rfl
  simp only [List.length_nil, List.nil_append, hfilled] at hgaps
  rw [addRange, if_neg hsize, if_neg (by simpa using hlive)]
  simp only [table_max]
  cases hrun : addGaps (add64 base size) nid flags (live.length + slots.length)
      ⟨0, base, none, table live slots drift⟩ with
  | error f =>
      rw [hrun] at hgaps
      obtain ⟨rfl, hlen⟩ := hgaps
      rw [if_neg (by omega)]
      rfl
  | ok s =>
      rw [hrun] at hgaps
      obtain ⟨hwindow, hmemory, hlen⟩ := hgaps
      have hin : ∀ w ∈ s.window, WindowIn filled.length w := by
        intro w hw
        rw [hwindow] at hw
        exact windowIn_fillWindow _ nid flags hw
      rw [if_pos hlen]
      simp only [bind, Except.bind, hmemory, ← hwindow]
      cases hs : s.window with
      | none => rfl
      | some w =>
          simp only [mergeAdded]
          rw [mergeRegions_table behind (hin w hs)]

/-! ## Changing or removing the regions of a range -/

theorem isolateRange_empty (m : Memblock) (base : ℕ) :
    isolateRange m base 0 = .ok ⟨SUCCESS, 0, 0, m⟩ := by
  rw [isolateRange, if_pos rfl]
  rfl

theorem isolateRange_table (base : ℕ) {size : ℕ} (hsize : size ≠ 0)
    (live slots : List MemblockRegion) (drift : ℕ) :
    let isolated := isolateRegions base (add64 base size) live
    let range := isolateIndices base (add64 base size) live 0 (0, 0)
    isolateRange (table live slots drift) base size =
      if slots.length < 2 then .ok ⟨-ENOSPC, 0, 0, table live slots drift⟩
      else if isolated.length ≤ live.length + slots.length then
        .ok ⟨SUCCESS, range.1, range.2,
          table isolated (slots.drop (isolated.length - live.length)) drift⟩
      else .error .outOfSpace := by
  intro isolated range
  have hloop := isolateLoop_table base (add64_lt base size) live slots []
    (2 * (live.length + slots.length)) (0, 0) drift (by omega)
  simp only [List.length_nil, List.nil_append] at hloop
  have hguard : (table live slots drift).max < (table live slots drift).n + 2 ↔
      slots.length < 2 := by
    simp only [table_max, table_n]
    omega
  rw [isolateRange, if_neg hsize]
  by_cases hspace : slots.length < 2
  · rw [if_pos hspace, if_pos (hguard.mpr hspace)]
    rfl
  rw [if_neg hspace, if_neg (mt hguard.mp hspace), table_max]
  cases hrun : isolateLoop base (add64 base size) (2 * (live.length + slots.length))
      ⟨0, 0, 0, table live slots drift⟩ with
  | error f =>
      rw [hrun] at hloop
      obtain ⟨rfl, hlen⟩ := hloop
      rw [if_neg (not_le.mpr hlen)]
      rfl
  | ok s =>
      rw [hrun] at hloop
      obtain ⟨hrange, hmemory, hlen⟩ := hloop
      rw [if_pos hlen]
      simp only [bind, Except.bind, pure, Except.pure, hmemory, ← hrange, isolated, range]

/-- The regions of a window replaced by their images. -/
def updateWindow (f : MemblockRegion → MemblockRegion) (window : ℕ × ℕ)
    (live : List MemblockRegion) : List MemblockRegion :=
  live.take window.1 ++ ((live.drop window.1).take (window.2 - window.1)).map f ++
    live.drop window.2

theorem updateLoop_append (f : MemblockRegion → MemblockRegion)
    (pre mid post : List MemblockRegion) :
    updateLoop f mid.length pre.length (pre ++ mid ++ post) =
      .ok (pre ++ mid.map f ++ post) := by
  induction mid generalizing pre with
  | nil => simp [updateLoop]; rfl
  | cons r mid ih =>
      have hrec := ih (pre ++ [f r])
      simp only [List.length_append, List.length_singleton, List.append_assoc,
        List.cons_append, List.nil_append] at hrec
      simp only [List.length_cons, updateLoop, List.append_assoc, List.cons_append,
        loadRegion_append, storeRegion_append, bind, Except.bind, hrec, List.map_cons]

theorem sizeSum_map {f : MemblockRegion → MemblockRegion} (hf : ∀ r, (f r).size = r.size)
    (live : List MemblockRegion) : sizeSum (live.map f) = sizeSum live := by
  induction live with
  | nil => rfl
  | cons r live ih => simp [hf, ih]

/-- Cut a list at the two ends of a window. -/
theorem exists_eq_window {window : ℕ × ℕ} {live : List MemblockRegion}
    (h : WindowIn live.length window) :
    ∃ pre mid post, live = pre ++ mid ++ post ∧ pre.length = window.1 ∧
      mid.length = window.2 - window.1 ∧ mid ≠ [] := by
  obtain ⟨hlt, hle⟩ := h
  have hmid : ((live.drop window.1).take (window.2 - window.1)).length =
      window.2 - window.1 := by
    simp only [List.length_take, List.length_drop]
    omega
  refine ⟨live.take window.1, (live.drop window.1).take (window.2 - window.1),
    (live.drop window.1).drop (window.2 - window.1), ?_, ?_, hmid, ?_⟩
  · rw [List.append_assoc, List.take_append_drop, List.take_append_drop]
  · simp only [List.length_take]
    omega
  · apply List.ne_nil_of_length_pos
    omega

theorem updateWindow_append (f : MemblockRegion → MemblockRegion)
    (pre mid post : List MemblockRegion) :
    updateWindow f (pre.length, pre.length + mid.length) (pre ++ mid ++ post) =
      pre ++ mid.map f ++ post := by
  simp [updateWindow, List.drop_append]

theorem length_updateWindow {f : MemblockRegion → MemblockRegion} {window : ℕ × ℕ}
    {live : List MemblockRegion} (h : WindowIn live.length window) :
    (updateWindow f window live).length = live.length := by
  obtain ⟨hlt, hle⟩ := h
  simp only [updateWindow, List.length_append, List.length_map, List.length_take,
    List.length_drop]
  omega

/-- Changing the regions of a window leaves their number and sizes alone. -/
theorem table_updateWindow {f : MemblockRegion → MemblockRegion}
    (hf : ∀ r, (f r).size = r.size) {window : ℕ × ℕ} {live : List MemblockRegion}
    (h : WindowIn live.length window) (slots : List MemblockRegion) (drift : ℕ) :
    updateLoop f (window.2 - window.1) window.1 (table live slots drift).regions =
        .ok (updateWindow f window live ++ slots) ∧
      { table live slots drift with regions := updateWindow f window live ++ slots } =
        table (updateWindow f window live) slots drift := by
  obtain ⟨start, stop⟩ := window
  obtain ⟨pre, mid, post, rfl, rfl, hmid, -⟩ := exists_eq_window h
  have hlt := h.1
  simp only at hmid hlt
  obtain rfl : stop = pre.length + mid.length := by omega
  have hloop := updateLoop_append f pre mid (post ++ slots)
  have hmap := sizeSum_map hf mid
  rw [updateWindow_append, ← hmid]
  constructor
  · simpa only [table_regions, List.append_assoc] using hloop
  · simp only [table, sizeSum_append, hmap, List.length_append, List.length_map]

/-- The result of `updateRange` once the range is isolated. -/
def updateResult (f : MemblockRegion → MemblockRegion) (range : ℕ × ℕ)
    (live slots : List MemblockRegion) (drift : ℕ) : Except Fault Memblock :=
  if range = (0, 0) then .ok (table live slots drift)
  else mergeResult behind range (updateWindow f range live) slots drift

theorem updateRange_empty (f : MemblockRegion → MemblockRegion) (m : Memblock) (base : ℕ) :
    updateRange behind f m base 0 = .ok (m, SUCCESS) := by
  rw [updateRange, isolateRange_empty]
  rfl

theorem updateRange_table {f : MemblockRegion → MemblockRegion}
    (hf : ∀ r, (f r).size = r.size) {base size : ℕ} (hsize : size ≠ 0)
    (live slots : List MemblockRegion) (drift : ℕ) :
    let isolated := isolateRegions base (add64 base size) live
    updateRange behind f (table live slots drift) base size =
      if slots.length < 2 then .ok (table live slots drift, -ENOSPC)
      else if isolated.length ≤ live.length + slots.length then do
        let m ← updateResult behind f
          (isolateIndices base (add64 base size) live 0 (0, 0)) isolated
          (slots.drop (isolated.length - live.length)) drift
        return (m, SUCCESS)
      else .error .outOfSpace := by
  intro isolated
  have hisolated : isolateRegions base (add64 base size) live = isolated := rfl
  rw [updateRange, isolateRange_table base hsize]
  simp only [hisolated]
  by_cases hspace : slots.length < 2
  · simp only [if_pos hspace]
    rfl
  simp only [if_neg hspace]
  by_cases hfits : isolated.length ≤ live.length + slots.length
  · simp only [if_pos hfits]
    have hrange : RangeIn (0 + isolated.length)
        (isolateIndices base (add64 base size) live 0 (0, 0)) :=
      rangeIn_isolateIndices _ _ live (.inl rfl)
    rw [Nat.zero_add] at hrange
    generalize isolateIndices base (add64 base size) live 0 (0, 0) = range at hrange
    rcases hrange with rfl | hwindow
    · rfl
    have hne : range ≠ (0, 0) := by
      rintro rfl
      exact absurd hwindow.1 (lt_irrefl _)
    obtain ⟨hloop, hupdate⟩ := table_updateWindow hf hwindow
      (slots.drop (isolated.length - live.length)) drift
    have hwindow' : WindowIn (updateWindow f range isolated).length range := by
      rwa [length_updateWindow hwindow]
    rw [updateResult, if_neg hne, ← mergeRegions_table behind hwindow']
    simp only [bind, Except.bind, hloop, hupdate, ne_eq, not_true_eq_false, if_false]
  · simp only [if_neg hfits]
    rfl

/-- The regions outside a window. -/
def dropWindow (window : ℕ × ℕ) (live : List MemblockRegion) : List MemblockRegion :=
  live.take window.1 ++ live.drop window.2

/-- Removal runs down from the last region of the window; the slots it frees keep
what the moves leave there. For every region the size of the first one behind the window
is taken off, or its own if there is none. -/
theorem removeLoop_append (pre mid post slots : List MemblockRegion) (drift : ℕ) :
    ∃ slots' drift', slots'.length = mid.length + slots.length ∧
      removeLoop pre.length mid.length (table (pre ++ mid ++ post) slots drift) =
        .ok (table (pre ++ post) slots' drift') ∧
      (sizeSum (pre ++ post) + drift' + (mid.map fun x => (post.headD x).size).sum) % 2 ^ 64 =
        (sizeSum (pre ++ mid ++ post) + drift) % 2 ^ 64 := by
  induction mid using List.reverseRecOn generalizing slots drift with
  | nil => exact ⟨slots, drift, by simp, by simp [removeLoop]; rfl, by simp⟩
  | append_singleton mid x ih =>
      obtain ⟨drift₁, hremove, hsize₁⟩ := removeRegion_table (pre ++ mid) post slots x drift
      obtain ⟨slots', drift', hlen, hrest, hsize⟩ :=
        ih ((x :: post).getLast (by simp) :: slots) drift₁
      refine ⟨slots', drift', ?_, ?_, ?_⟩
      · simp only [List.length_cons] at hlen
        simp only [List.length_append, List.length_singleton]
        omega
      · simp only [List.length_append] at hremove
        simp only [List.append_assoc] at hremove hrest
        simp only [List.length_append, List.length_singleton, removeLoop, List.append_assoc,
          List.singleton_append, hremove, bind, Except.bind, hrest]
      · have hlist : pre ++ (mid ++ [x]) ++ post = pre ++ mid ++ x :: post := by simp
        rw [List.map_append, List.sum_append, List.map_singleton, List.sum_singleton, hlist]
        generalize (post.headD x).size = y at hsize₁
        rw [sub64] at hsize₁
        omega

theorem memblockRemove_empty (m : Memblock) (base : ℕ) :
    memblockRemove m base 0 = .ok (m, SUCCESS) := by
  rw [memblockRemove, isolateRange_empty]
  rfl

theorem memblockRemove_table (base : ℕ) {size : ℕ} (hsize : size ≠ 0)
    (live slots : List MemblockRegion) (drift : ℕ) :
    let isolated := isolateRegions base (add64 base size) live
    let kept := dropWindow (isolateIndices base (add64 base size) live 0 (0, 0)) isolated
    if slots.length < 2 then
      memblockRemove (table live slots drift) base size =
        .ok (table live slots drift, -ENOSPC)
    else if isolated.length ≤ live.length + slots.length then
      ∃ slots' drift', kept.length + slots'.length = live.length + slots.length ∧
        memblockRemove (table live slots drift) base size =
          .ok (table kept slots' drift', SUCCESS)
    else memblockRemove (table live slots drift) base size = .error .outOfSpace := by
  intro isolated kept
  have hisolate := isolateRange_table base hsize live slots drift
  have hisolated : isolateRegions base (add64 base size) live = isolated := rfl
  have hle : live.length ≤ isolated.length := length_le_isolateRegions _ _ _
  simp only [hisolated] at hisolate
  split_ifs with hspace hfits
  · rw [memblockRemove, hisolate, if_pos hspace]
    rfl
  · rw [if_neg hspace, if_pos hfits] at hisolate
    have hrange : RangeIn (0 + isolated.length)
        (isolateIndices base (add64 base size) live 0 (0, 0)) :=
      rangeIn_isolateIndices _ _ live (.inl rfl)
    rw [Nat.zero_add] at hrange
    simp only [kept]
    generalize isolateIndices base (add64 base size) live 0 (0, 0) = range at hrange hisolate
    rw [memblockRemove, hisolate]
    rcases hrange with rfl | hwindow
    · refine ⟨_, _, ?_, rfl⟩
      simp only [dropWindow, List.length_append, List.length_take, List.length_drop]
      omega
    · obtain ⟨pre, mid, post, hlive, hpre, hmid, -⟩ := exists_eq_window hwindow
      obtain ⟨slots', drift', hlen, hloop, -⟩ := removeLoop_append pre mid post
        (slots.drop (isolated.length - live.length)) drift
      have hstop : range.2 = pre.length + mid.length := by
        have := hwindow.1
        omega
      have hkept : dropWindow range isolated = pre ++ post := by
        rw [dropWindow, hlive, ← hpre, hstop, List.append_assoc, List.take_left,
          ← List.append_assoc, ← List.length_append, List.drop_left]
      refine ⟨slots', drift', ?_, ?_⟩
      · rw [hkept]
        simp only [hlive, List.length_append, List.length_drop] at hlen hle hfits ⊢
        omega
      · rw [hpre, hmid, ← hlive] at hloop
        rw [hkept]
        simp only [bind, Except.bind, hloop, ne_eq, not_true_eq_false, if_false]
        rfl
  · rw [memblockRemove, hisolate, if_neg hspace, if_neg hfits]
    rfl

end Cyanea.Memory
