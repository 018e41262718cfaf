/-
# Adding a range, on lists

The list form of the insertions of `add_range`. The loop over the array visits
a region twice when it has filled the gap before it; the second visit only steps
over the region, so the recursion below takes the two turns at once.
-/

import Cyanea.Memory.RegionList

namespace Cyanea.Memory

open Cyanea.Math

section Fill

variable (rangeEnd : ℕ) (nid : ℤ) (flags : MemblockFlags)

/-- The region that `add_range` inserts for `[base, upto)`. -/
def piece (base upto : ℕ) : MemblockRegion := ⟨flags, base, sub64 upto base, nid⟩

/-- The live regions after `add_range` has inserted its pieces. -/
def fillRegions : ℕ → List MemblockRegion → List MemblockRegion
  | base, [] => if base < rangeEnd then [piece nid flags base rangeEnd] else []
  | base, r :: rest =>
      if rangeEnd ≤ r.base then
        if base < rangeEnd then piece nid flags base rangeEnd :: r :: rest else r :: rest
      else if r.regionEnd ≤ base then r :: fillRegions base rest
      else if base < r.base then
        piece nid flags base r.base :: r :: fillRegions (min r.regionEnd rangeEnd) rest
      else r :: fillRegions (min r.regionEnd rangeEnd) rest

/-- Record an insertion at `i`. -/
def widen (i : ℕ) (window : Option (ℕ × ℕ)) : Option (ℕ × ℕ) :=
  some ((window.map Prod.fst).getD i, i + 1)

/-- `start_region` and `end_region` once the pieces are in, for regions that begin
at index `i`. -/
def fillWindow : ℕ → ℕ → Option (ℕ × ℕ) → List MemblockRegion → Option (ℕ × ℕ)
  | i, base, window, [] => if base < rangeEnd then widen i window else window
  | i, base, window, r :: rest =>
      if rangeEnd ≤ r.base then
        if base < rangeEnd then widen i window else window
      else if r.regionEnd ≤ base then fillWindow (i + 1) base window rest
      else if base < r.base then
        fillWindow (i + 2) (min r.regionEnd rangeEnd) (widen i window) rest
      else fillWindow (i + 1) (min r.regionEnd rangeEnd) window rest

theorem length_le_fillRegions (base : ℕ) (live : List MemblockRegion) :
    live.length ≤ (fillRegions rangeEnd nid flags base live).length := by
  induction live generalizing base with
  | nil => simp
  | cons r rest ih =>
      rw [fillRegions]
      have hsame := ih base
      have hnext := ih (min r.regionEnd rangeEnd)
      split_ifs <;> simp only [List.length_cons] <;> omega

section Turn

variable (turns base : ℕ) (window : Option (ℕ × ℕ)) (drift : ℕ)
  (pre rest slots : List MemblockRegion) (r z : MemblockRegion)

theorem addLoop_nil :
    addLoop rangeEnd nid flags turns ⟨pre.length, base, window, table pre slots drift⟩ =
      .ok ⟨pre.length, base, window, table pre slots drift⟩ := by
  cases turns with
  | zero => simp [addLoop]; rfl
  | succ turns => simp [addLoop]; rfl

theorem addLoop_behind (h : rangeEnd ≤ r.base) :
    addLoop rangeEnd nid flags (turns + 1)
        ⟨pre.length, base, window, table (pre ++ r :: rest) slots drift⟩ =
      .ok ⟨pre.length, base, window, table (pre ++ r :: rest) slots drift⟩ := by
  simp [addLoop, h, bind, Except.bind]
  rfl

theorem addLoop_before (h : ¬ rangeEnd ≤ r.base) (hend : r.regionEnd ≤ base) :
    addLoop rangeEnd nid flags (turns + 1)
        ⟨pre.length, base, window, table (pre ++ r :: rest) slots drift⟩ =
      addLoop rangeEnd nid flags turns
        ⟨(pre ++ [r]).length, base, window, table ((pre ++ [r]) ++ rest) slots drift⟩ := by
  simp [addLoop, h, hend, bind, Except.bind]

theorem addLoop_covered (h : ¬ rangeEnd ≤ r.base) (hend : ¬ r.regionEnd ≤ base)
    (hbase : ¬ base < r.base) :
    addLoop rangeEnd nid flags (turns + 1)
        ⟨pre.length, base, window, table (pre ++ r :: rest) slots drift⟩ =
      addLoop rangeEnd nid flags turns ⟨(pre ++ [r]).length, min r.regionEnd rangeEnd, window,
        table ((pre ++ [r]) ++ rest) slots drift⟩ := by
  simp [addLoop, h, hend, hbase, bind, Except.bind, pure, Except.pure]

theorem addPiece_table (upto : ℕ) :
    addPiece upto nid flags ⟨pre.length, base, window, table (pre ++ rest) (z :: slots) drift⟩ =
      .ok ⟨pre.length, base, widen pre.length window,
        table (pre ++ piece nid flags base upto :: rest) slots drift⟩ := by
  simp only [addPiece, insertRegion_table, bind, Except.bind, pure, Except.pure, widen, piece]

theorem addPiece_full (upto : ℕ) :
    addPiece upto nid flags ⟨pre.length, base, window, table (pre ++ rest) [] drift⟩ =
      .error .outOfSpace := by
  simp only [addPiece, insertRegion_full, bind, Except.bind]

/-- Once the gap before a region is filled, its second visit only steps over it. -/
theorem addLoop_revisit (h : ¬ rangeEnd ≤ r.base) :
    addLoop rangeEnd nid flags (turns + 1) ⟨pre.length, min r.regionEnd rangeEnd, window,
        table (pre ++ r :: rest) slots drift⟩ =
      addLoop rangeEnd nid flags turns ⟨(pre ++ [r]).length, min r.regionEnd rangeEnd, window,
        table ((pre ++ [r]) ++ rest) slots drift⟩ := by
  by_cases hend : r.regionEnd ≤ min r.regionEnd rangeEnd
  · rw [addLoop_before _ _ _ _ _ _ _ _ _ _ _ h hend]
  · have hbase : ¬ min r.regionEnd rangeEnd < r.base := by omega
    rw [addLoop_covered _ _ _ _ _ _ _ _ _ _ _ h hend hbase]

theorem addLoop_gap (h : ¬ rangeEnd ≤ r.base) (hend : ¬ r.regionEnd ≤ base)
    (hbase : base < r.base) :
    addLoop rangeEnd nid flags (turns + 2)
        ⟨pre.length, base, window, table (pre ++ r :: rest) (z :: slots) drift⟩ =
      addLoop rangeEnd nid flags turns
        ⟨(pre ++ [piece nid flags base r.base, r]).length, min r.regionEnd rangeEnd,
          widen pre.length window,
          table ((pre ++ [piece nid flags base r.base, r]) ++ rest) slots drift⟩ := by
  have hvisit := addLoop_revisit rangeEnd nid flags turns (widen pre.length window) drift
    (pre ++ [piece nid flags base r.base]) rest slots r h
  rw [addLoop]
  simp only [table_n, table_regions, List.append_assoc, List.cons_append,
    loadRegion_append, bind, Except.bind, h, hend, hbase, addPiece_table, if_true, if_false]
  simpa using hvisit

theorem addLoop_gap_full (h : ¬ rangeEnd ≤ r.base) (hend : ¬ r.regionEnd ≤ base)
    (hbase : base < r.base) :
    addLoop rangeEnd nid flags (turns + 1)
        ⟨pre.length, base, window, table (pre ++ r :: rest) [] drift⟩ =
      .error .outOfSpace := by
  rw [addLoop]
  simp [bind, Except.bind, h, hend, hbase, addPiece_full]

end Turn

/-- The insertions of `add_range` fill the gaps, or run out of slots. -/
theorem addGaps_table (rest slots pre : List MemblockRegion) (turns base : ℕ)
    (window : Option (ℕ × ℕ)) (drift : ℕ)
    (hturns : rest.length + slots.length ≤ turns) :
    Ends
      (fun s => s.window = fillWindow rangeEnd pre.length base window rest ∧
        s.memory = table (pre ++ fillRegions rangeEnd nid flags base rest)
          (slots.drop ((fillRegions rangeEnd nid flags base rest).length - rest.length)) drift ∧
        (fillRegions rangeEnd nid flags base rest).length ≤ rest.length + slots.length)
      (fun f => f = .outOfSpace ∧
        rest.length + slots.length < (fillRegions rangeEnd nid flags base rest).length)
      (addGaps rangeEnd nid flags turns
        ⟨pre.length, base, window, table (pre ++ rest) slots drift⟩) := by
  induction rest generalizing slots pre turns base window with
  | nil =>
      rw [addGaps, List.append_nil, addLoop_nil, fillRegions, fillWindow]
      simp only [bind, Except.bind]
      by_cases hbase : base < rangeEnd
      · rw [if_pos hbase, if_pos hbase, if_pos hbase]
        cases slots with
        | nil =>
            have hfull := addPiece_full nid flags base window drift pre [] rangeEnd
            rw [List.append_nil] at hfull
            simp [hfull]
        | cons z slots =>
            have hpiece := addPiece_table nid flags base window drift pre [] slots z rangeEnd
            rw [List.append_nil] at hpiece
            simp [hpiece]
      · rw [if_neg hbase, if_neg hbase, if_neg hbase]
        simp [pure, Except.pure]
  | cons r rest ih =>
      obtain ⟨turns, rfl⟩ : ∃ t, turns = t + 1 :=
        ⟨turns - 1, by simp only [List.length_cons] at hturns; omega⟩
      simp only [List.length_cons] at hturns
      rw [fillRegions, fillWindow]
      by_cases h : rangeEnd ≤ r.base
      · have hloop := addLoop_behind rangeEnd nid flags turns base window drift pre rest slots r h
        simp only [addGaps, hloop, if_pos h, bind, Except.bind]
        by_cases hbase : base < rangeEnd
        · rw [if_pos hbase, if_pos hbase, if_pos hbase]
          cases slots with
          | nil => simp [addPiece_full]
          | cons z slots => simp [addPiece_table]
        · rw [if_neg hbase, if_neg hbase, if_neg hbase]
          simp [pure, Except.pure]
      rw [if_neg h, if_neg h]
      by_cases hend : r.regionEnd ≤ base
      · have hstep : addGaps rangeEnd nid flags (turns + 1)
            ⟨pre.length, base, window, table (pre ++ r :: rest) slots drift⟩ =
            addGaps rangeEnd nid flags turns
              ⟨(pre ++ [r]).length, base, window, table ((pre ++ [r]) ++ rest) slots drift⟩ := by
          simp only [addGaps, addLoop_before _ _ _ _ _ _ _ _ _ _ _ h hend]
        rw [hstep, if_pos hend, if_pos hend]
        refine (ih slots (pre ++ [r]) turns base window (by omega)).mono ?_ ?_
        · rintro s ⟨hwindow, hmemory, hlen⟩
          simp only [List.length_append, List.length_singleton, List.append_assoc,
            List.singleton_append] at hwindow hmemory
          simp only [List.length_cons, Nat.add_sub_add_right]
          exact ⟨hwindow, hmemory, by omega⟩
        · rintro f ⟨hf, hlen⟩
          simp only [List.length_cons]
          exact ⟨hf, by omega⟩
      rw [if_neg hend, if_neg hend]
      have hle := length_le_fillRegions rangeEnd nid flags (min r.regionEnd rangeEnd) rest
      by_cases hbase : base < r.base
      · rw [if_pos hbase, if_pos hbase]
        cases slots with
        | nil =>
            simp only [addGaps, addLoop_gap_full _ _ _ _ _ _ _ _ _ _ h hend hbase, bind,
              Except.bind]
            exact ⟨rfl, by simp only [List.length_cons, List.length_nil]; omega⟩
        | cons z slots =>
            simp only [List.length_cons] at hturns
            obtain ⟨turns, rfl⟩ : ∃ t, turns = t + 1 := ⟨turns - 1, by omega⟩
            have hstep : addGaps rangeEnd nid flags (turns + 1 + 1)
                ⟨pre.length, base, window, table (pre ++ r :: rest) (z :: slots) drift⟩ =
                addGaps rangeEnd nid flags turns
                  ⟨(pre ++ [piece nid flags base r.base, r]).length, min r.regionEnd rangeEnd,
                    widen pre.length window,
                    table ((pre ++ [piece nid flags base r.base, r]) ++ rest) slots drift⟩ := by
              simp only [addGaps, addLoop_gap _ _ _ _ _ _ _ _ _ _ _ _ h hend hbase]
            rw [hstep]
            refine (ih slots (pre ++ [piece nid flags base r.base, r]) turns
              (min r.regionEnd rangeEnd) (widen pre.length window) (by omega)).mono ?_ ?_
            · rintro s ⟨hwindow, hmemory, hlen⟩
              have hcount :
                  (fillRegions rangeEnd nid flags (min r.regionEnd rangeEnd) rest).length + 1
                    - rest.length =
                  (fillRegions rangeEnd nid flags (min r.regionEnd rangeEnd) rest).length
                    - rest.length + 1 := by omega
              simp only [List.length_append, List.length_cons, List.length_nil,
                List.append_assoc, List.cons_append, List.nil_append] at hwindow hmemory
              simp only [List.length_cons, Nat.add_sub_add_right, hcount, List.drop_succ_cons]
              exact ⟨hwindow, hmemory, by omega⟩
            · rintro f ⟨hf, hlen⟩
              simp only [List.length_cons]
              exact ⟨hf, by omega⟩
      · have hstep : addGaps rangeEnd nid flags (turns + 1)
            ⟨pre.length, base, window, table (pre ++ r :: rest) slots drift⟩ =
            addGaps rangeEnd nid flags turns ⟨(pre ++ [r]).length, min r.regionEnd rangeEnd,
              window, table ((pre ++ [r]) ++ rest) slots drift⟩ := by
          simp only [addGaps, addLoop_covered _ _ _ _ _ _ _ _ _ _ _ h hend hbase]
        rw [hstep, if_neg hbase, if_neg hbase]
        refine (ih slots (pre ++ [r]) turns (min r.regionEnd rangeEnd) window
          (by omega)).mono ?_ ?_
        · rintro s ⟨hwindow, hmemory, hlen⟩
          simp only [List.length_append, List.length_singleton, List.append_assoc,
            List.singleton_append] at hwindow hmemory
          simp only [List.length_cons, Nat.add_sub_add_right]
          exact ⟨hwindow, hmemory, by omega⟩
        · rintro f ⟨hf, hlen⟩
          simp only [List.length_cons]
          exact ⟨hf, by omega⟩

/-! ### The window of the pieces -/

/-- Once a piece is in, later pieces move the end of the window behind the last of
them; what follows it is as before. -/
theorem fillWindow_some (live : List MemblockRegion) (base i : ℕ) (window : ℕ × ℕ) :
    (fillWindow rangeEnd i base (some window) live = some window ∧
      fillRegions rangeEnd nid flags base live = live) ∨
    ∃ added old tail, added ≠ [] ∧ live = old ++ tail ∧
      fillRegions rangeEnd nid flags base live = added ++ tail ∧
      fillWindow rangeEnd i base (some window) live = some (window.1, i + added.length) := by
  induction live generalizing base i window with
  | nil =>
      rw [fillWindow, fillRegions]
      split_ifs with hbase
      · exact .inr ⟨[piece nid flags base rangeEnd], [], [], by simp, rfl, rfl, rfl⟩
      · exact .inl ⟨rfl, rfl⟩
  | cons r rest ih =>
      rw [fillWindow, fillRegions]
      split_ifs with hbehind hbase hend hbase
      · exact .inr ⟨[piece nid flags base rangeEnd], [], r :: rest, by simp, rfl, rfl, rfl⟩
      · exact .inl ⟨rfl, rfl⟩
      · rcases ih base (i + 1) window with
          ⟨hwindow, hfill⟩ | ⟨added, old, tail, -, hlive, hfill, hwindow⟩
        · exact .inl ⟨hwindow, by rw [hfill]⟩
        · exact .inr ⟨r :: added, r :: old, tail, by simp, by simp [hlive], by simp [hfill],
            by simp [hwindow]; omega⟩
      · rcases ih (min r.regionEnd rangeEnd) (i + 2) (window.1, i + 1)
          with ⟨hwindow, hfill⟩ | ⟨added, old, tail, -, hlive, hfill, hwindow⟩
        · exact .inr ⟨[piece nid flags base r.base], [], r :: rest, by simp, rfl,
            by rw [hfill]; rfl, hwindow⟩
        · exact .inr ⟨piece nid flags base r.base :: r :: added, r :: old, tail, by simp,
            by simp [hlive], by simp [hfill], by simp [widen, hwindow]; omega⟩
      · rcases ih (min r.regionEnd rangeEnd) (i + 1) window with
          ⟨hwindow, hfill⟩ | ⟨added, old, tail, -, hlive, hfill, hwindow⟩
        · exact .inl ⟨hwindow, by rw [hfill]⟩
        · exact .inr ⟨r :: added, r :: old, tail, by simp, by simp [hlive], by simp [hfill],
            by simp [hwindow]; omega⟩

/-- The pieces lie in the window; the regions before and behind it are as before. -/
theorem fillWindow_none (live : List MemblockRegion) (base i : ℕ) :
    (fillWindow rangeEnd i base none live = none ∧
      fillRegions rangeEnd nid flags base live = live) ∨
    ∃ pre added old tail, added ≠ [] ∧ live = pre ++ old ++ tail ∧
      fillRegions rangeEnd nid flags base live = pre ++ added ++ tail ∧
      fillWindow rangeEnd i base none live =
        some (i + pre.length, i + pre.length + added.length) := by
  induction live generalizing base i with
  | nil =>
      rw [fillWindow, fillRegions]
      split_ifs with hbase
      · exact .inr ⟨[], [piece nid flags base rangeEnd], [], [], by simp, rfl, rfl, rfl⟩
      · exact .inl ⟨rfl, rfl⟩
  | cons r rest ih =>
      rw [fillWindow, fillRegions]
      split_ifs with hbehind hbase hend hbase
      · exact .inr ⟨[], [piece nid flags base rangeEnd], [], r :: rest, by simp, rfl, rfl, rfl⟩
      · exact .inl ⟨rfl, rfl⟩
      · rcases ih base (i + 1) with
          ⟨hwindow, hfill⟩ | ⟨pre, added, old, tail, hne, hlive, hfill, hwindow⟩
        · exact .inl ⟨hwindow, by rw [hfill]⟩
        · exact .inr ⟨r :: pre, added, old, tail, hne, by simp [hlive], by simp [hfill],
            by simp [hwindow]; omega⟩
      · rcases fillWindow_some rangeEnd nid flags rest
          (min r.regionEnd rangeEnd) (i + 2) (i, i + 1)
          with ⟨hwindow, hfill⟩ | ⟨added, old, tail, -, hlive, hfill, hwindow⟩
        · exact .inr ⟨[], [piece nid flags base r.base], [], r :: rest, by simp, rfl,
            by rw [hfill]; rfl, hwindow⟩
        · exact .inr ⟨[], piece nid flags base r.base :: r :: added, r :: old, tail, by simp,
            by simp [hlive], by simp [hfill], by simp [widen, hwindow]; omega⟩
      · rcases ih (min r.regionEnd rangeEnd) (i + 1) with
          ⟨hwindow, hfill⟩ | ⟨pre, added, old, tail, hne, hlive, hfill, hwindow⟩
        · exact .inl ⟨hwindow, by rw [hfill]⟩
        · exact .inr ⟨r :: pre, added, old, tail, hne, by simp [hlive], by simp [hfill],
            by simp [hwindow]; omega⟩

/-- The window of the pieces lies among the live regions. -/
theorem windowIn_fillWindow {base : ℕ} {live : List MemblockRegion} {window : ℕ × ℕ}
    (h : window ∈ fillWindow rangeEnd 0 base none live) :
    WindowIn (fillRegions rangeEnd nid flags base live).length window := by
  rcases fillWindow_none rangeEnd nid flags live base 0 with
    ⟨hnone, -⟩ | ⟨pre, added, old, tail, hne, -, hfill, hsome⟩
  · simp [hnone] at h
  · rw [hsome] at h
    obtain rfl := Option.mem_some.mp h
    have hpos := List.length_pos_iff.mpr hne
    have hlen : (fillRegions rangeEnd nid flags base live).length =
        pre.length + added.length + tail.length := by
      simp [hfill, Nat.add_assoc]
    exact ⟨by simp only; omega, by simp only; omega⟩

end Fill

end Cyanea.Memory
