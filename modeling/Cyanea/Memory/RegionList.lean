/-
# The table as two lists

A table whose live entries fit the array is a list of live regions followed by
the leftover slots. This module states each primitive of the allocator as an
equation between such pairs of lists, so that later modules never compute with
indices, and gives the scan of `merge_regions` its list-recursive form. Nothing
is assumed about the regions: they may overlap, be empty or wrap around.

`drift` is how far `memory.size` is from the sum of the live sizes. Every
primitive except `remove_region` keeps it.
-/

import Cyanea.Math.Run
import Cyanea.Memory.Memblock
import Mathlib.Algebra.BigOperators.Group.List.Basic

namespace Cyanea.Memory

open Cyanea.Math

def sizeSum (live : List MemblockRegion) : ℕ := (live.map MemblockRegion.size).sum

@[simp]
theorem sizeSum_nil : sizeSum [] = 0 := rfl

@[simp]
theorem sizeSum_cons (r : MemblockRegion) (live : List MemblockRegion) :
    sizeSum (r :: live) = r.size + sizeSum live := by
  simp [sizeSum]

@[simp]
theorem sizeSum_append (live live' : List MemblockRegion) :
    sizeSum (live ++ live') = sizeSum live + sizeSum live' := by
  simp [sizeSum]

/-- The table with the given live regions and leftover slots. -/
def table (live slots : List MemblockRegion) (drift : ℕ) : Memblock where
  n := live.length
  max := live.length + slots.length
  size := (sizeSum live + drift) % 2 ^ 64
  regions := live ++ slots

/-- The live regions of a table. -/
def Memblock.live (m : Memblock) : List MemblockRegion := m.regions.take m.n

/-- What lies behind the live regions in the array. -/
def Memblock.unused (m : Memblock) : List MemblockRegion := m.regions.drop m.n

section Projections

variable (live slots : List MemblockRegion) (drift : ℕ)

@[simp]
theorem table_n : (table live slots drift).n = live.length := rfl

@[simp]
theorem table_max : (table live slots drift).max = live.length + slots.length := rfl

@[simp]
theorem table_regions : (table live slots drift).regions = live ++ slots := rfl

@[simp]
theorem live_table : (table live slots drift).live = live := by
  simp [Memblock.live]

@[simp]
theorem unused_table : (table live slots drift).unused = slots := by
  simp [Memblock.unused]

end Projections

/-- The live entries fit the array, and the recorded capacity is the array's. -/
structure Fits (m : Memblock) : Prop where
  n_le : m.n ≤ m.max
  length_eq : m.regions.length = m.max
  size_lt : m.size < 2 ^ 64

/-- Every table that fits is of the form `table`. -/
theorem Fits.eq_table {m : Memblock} (h : Fits m) :
    ∃ live slots drift, m = table live slots drift := by
  refine ⟨m.regions.take m.n, m.regions.drop m.n,
    m.size + (2 ^ 64 - sizeSum (m.regions.take m.n) % 2 ^ 64), ?_⟩
  obtain ⟨n, max, size, regions⟩ := m
  obtain ⟨hn, hlen, hsize⟩ := h
  simp only at hn hlen hsize
  simp only [table, List.take_append_drop, List.length_take, List.length_drop,
    Memblock.mk.injEq, and_true]
  omega

theorem fits_table (live slots : List MemblockRegion) (drift : ℕ) :
    Fits (table live slots drift) :=
  ⟨by simp, by simp, Nat.mod_lt _ (by decide)⟩

/-! ## The array primitives -/

section Array

variable (pre post slots : List MemblockRegion) (x z r : MemblockRegion)

@[simp]
theorem loadRegion_append : loadRegion (pre ++ x :: post) pre.length = .ok x := by
  simp [loadRegion]

@[simp]
theorem storeRegion_append :
    storeRegion (pre ++ x :: post) pre.length r = .ok (pre ++ r :: post) := by
  simp [storeRegion]

theorem moveRegions_negative {regions : List MemblockRegion} {dst src n k : ℕ}
    (h : n < k) : moveRegions regions dst src n k = .error .negativeCount :=
  if_pos h

/-- Moving the live entries from `pre.length` on up by one duplicates the first
of them and loses the first leftover slot. -/
theorem moveRegions_up :
    moveRegions (pre ++ post ++ z :: slots) (pre.length + 1) pre.length
        (pre ++ post).length pre.length =
      .ok (pre ++ post.headD z :: (post ++ slots)) := by
  have hcount : (pre ++ post).length - pre.length = post.length := by simp
  rw [moveRegions, if_neg (by simp), hcount, if_pos (by simp; omega)]
  cases post with
  | nil =>
      simp (disch := omega) [List.take_append, List.take_of_length_le]
  | cons y post =>
      have hdrop : pre.length + 1 + (post.length + 1) = pre.length + (post.length + 2) := by
        omega
      simp (disch := omega) [List.take_append, List.drop_append, hdrop,
        List.take_of_length_le, List.drop_of_length_le]

/-- Moving the entries behind position `pre.length` down by one loses the entry
there; the last live entry stays behind as a leftover slot. -/
theorem moveRegions_down :
    moveRegions (pre ++ x :: post ++ slots) pre.length (pre.length + 1)
        (pre ++ x :: post).length (pre.length + 1) =
      .ok (pre ++ post ++ (x :: post).getLast (by simp) :: slots) := by
  have hcount : (pre ++ x :: post).length - (pre.length + 1) = post.length := by
    simp
    omega
  have hlast : (x :: post).drop post.length = [(x :: post).getLast (by simp)] := by
    induction post generalizing x with
    | nil => rfl
    | cons y post ih => simpa using ih y (by simp; omega)
  rw [moveRegions, if_neg (by simp), hcount, if_pos (by simp; omega)]
  have hdrop : (pre ++ x :: post ++ slots).drop (pre.length + post.length) =
      (x :: post).getLast (by simp) :: slots := by
    rw [List.append_assoc, ← List.drop_drop, List.drop_left, List.drop_append_of_le_length
      (by simp), hlast, List.singleton_append]
  rw [hdrop]
  simp [List.take_append, List.drop_append]

end Array

/-! ## Insertion and removal -/

theorem insertRegion_table (pre post slots : List MemblockRegion) (z : MemblockRegion)
    (drift base size : ℕ) (nid : ℤ) (flags : MemblockFlags) :
    insertRegion (table (pre ++ post) (z :: slots) drift) pre.length base size nid flags =
      .ok (table (pre ++ ⟨flags, base, size, nid⟩ :: post) slots drift) := by
  have hmove := moveRegions_up pre post slots z
  rw [insertRegion, if_neg (by simp)]
  simp only [table_regions, table_n, bind, Except.bind, hmove, storeRegion_append]
  simp only [table, add64, sizeSum_append, sizeSum_cons, List.length_append,
    List.length_cons, pure, Except.pure, List.append_assoc, List.cons_append]
  congr 2
  · omega
  · omega

theorem insertRegion_full (live : List MemblockRegion) (drift i base size : ℕ) (nid : ℤ)
    (flags : MemblockFlags) :
    insertRegion (table live [] drift) i base size nid flags = .error .outOfSpace := by
  rw [insertRegion, if_pos (by simp)]
  rfl

/-- `remove_region` takes off the size of the region it has moved into place. -/
theorem removeRegion_table (pre post slots : List MemblockRegion) (x : MemblockRegion)
    (drift : ℕ) :
    ∃ drift', removeRegion (table (pre ++ x :: post) slots drift) pre.length =
        .ok (table (pre ++ post) ((x :: post).getLast (by simp) :: slots) drift') ∧
      (sizeSum (pre ++ post) + drift') % 2 ^ 64 =
        sub64 ((sizeSum (pre ++ x :: post) + drift) % 2 ^ 64) (post.headD x).size := by
  have hmove := moveRegions_down pre post slots x
  have hload : loadRegion (pre ++ post ++ (x :: post).getLast (by simp) :: slots) pre.length =
      .ok (post.headD x) := by
    cases post with
    | nil => simp
    | cons y post => simp
  generalize post.headD x = y at hload
  have hsize : (sizeSum (pre ++ post) + ((sizeSum (pre ++ x :: post) + drift) % 2 ^ 64 +
      (2 ^ 64 - y.size % 2 ^ 64) + (2 ^ 64 - sizeSum (pre ++ post) % 2 ^ 64))) % 2 ^ 64 =
      sub64 ((sizeSum (pre ++ x :: post) + drift) % 2 ^ 64) y.size := by
    rw [sub64]
    omega
  refine ⟨_, ?_, hsize⟩
  rw [removeRegion]
  simp only [table_regions, table_n, bind, Except.bind, hmove, hload]
  simp only [table, hsize, List.length_append, List.length_cons, pure, Except.pure]
  congr 2
  omega

/-- A window of region indices, as `merge_regions` gets it: not empty, and within
the first `n` entries. -/
def WindowIn (n : ℕ) (window : ℕ × ℕ) : Prop := window.1 < window.2 ∧ window.2 ≤ n

/-! ## Merging -/

section Merge

variable (behind : Option MemblockRegion)

/-- What `turns` comparisons of `merge_regions` make of the live regions from the
current one on, as long as they stay among live regions. -/
def mergeScan : ℕ → List MemblockRegion → List MemblockRegion
  | _, [] => []
  | _, [curr] => [curr]
  | 0, curr :: next :: rest => curr :: next :: rest
  | turns + 1, curr :: next :: rest =>
      if Apart curr next then curr :: mergeScan turns (next :: rest)
      else mergeScan turns (curr.extend next :: rest)

theorem mergeScan_ne_nil (turns : ℕ) (curr : MemblockRegion) (rest : List MemblockRegion) :
    mergeScan turns (curr :: rest) ≠ [] := by
  induction turns generalizing curr rest with
  | zero => cases rest <;> simp [mergeScan]
  | succ turns ih =>
      cases rest with
      | nil => simp [mergeScan]
      | cons next rest =>
          rw [mergeScan]
          split
          · simp
          · exact ih _ _

theorem length_mergeScan_le (turns : ℕ) (live : List MemblockRegion) :
    (mergeScan turns live).length ≤ live.length := by
  induction turns generalizing live with
  | zero =>
      match live with
      | [] | [_] | _ :: _ :: _ => simp [mergeScan]
  | succ turns ih =>
      match live with
      | [] | [_] => simp [mergeScan]
      | curr :: next :: rest =>
          rw [mergeScan]
          split
          · simpa using ih (next :: rest)
          · exact (ih _).trans (by simp)

/-- The leftover slots once merging has made `live` into `merged`: every merge
leaves one more copy of the last live region behind. -/
def slotsAfter (live merged slots : List MemblockRegion) : List MemblockRegion :=
  List.replicate (live.length - merged.length) (live.getLastD ⟨0, 0, 0, 0⟩) ++ slots

theorem slotsAfter_cons (curr next : MemblockRegion) (rest merged slots : List MemblockRegion) :
    slotsAfter (curr :: next :: rest) (curr :: merged) slots =
      slotsAfter (next :: rest) merged slots := by
  simp [slotsAfter]

theorem slotsAfter_extend {curr next : MemblockRegion} {rest merged : List MemblockRegion}
    (hpos : merged ≠ []) (hle : merged.length ≤ rest.length + 1)
    (slots : List MemblockRegion) :
    slotsAfter (curr.extend next :: rest) merged ((next :: rest).getLast (by simp) :: slots) =
      slotsAfter (curr :: next :: rest) merged slots := by
  have hcount : (curr :: next :: rest).length - merged.length =
      (curr.extend next :: rest).length - merged.length + 1 := by
    simp only [List.length_cons]
    omega
  rw [slotsAfter, slotsAfter, hcount]
  cases rest with
  | nil =>
      have : merged.length = 1 := by
        have := List.length_pos_iff.mpr hpos
        simp only [List.length_nil] at hle
        omega
      simp [this]
  | cons y rest => simp [List.replicate_succ', List.getLast?_eq_some_getLast]

/-- How the comparison of the last live region with the entry behind it goes
wrong, if it does. -/
def slotFault (last : MemblockRegion) : Option MemblockRegion → Option Fault
  | none => some .outOfBounds
  | some z => if Apart last z then none else some .negativeCount

section Turn

variable (turns : ℕ) (pre rest slots : List MemblockRegion) (curr next : MemblockRegion)
  (drift : ℕ)

theorem mergeLoop_apart (h : Apart curr next) :
    mergeLoop behind (turns + 1) pre.length (table (pre ++ curr :: next :: rest) slots drift) =
      mergeLoop behind turns (pre ++ [curr]).length
        (table ((pre ++ [curr]) ++ next :: rest) slots drift) := by
  have hnext : (pre ++ curr :: next :: rest ++ slots)[pre.length + 1]? = some next := by
    simp
  rw [mergeLoop]
  simp only [table_regions, List.append_assoc, List.cons_append, loadRegion_append, bind,
    Except.bind] at hnext ⊢
  simp [loadNext, if_pos h]

theorem mergeLoop_extend (h : ¬ Apart curr next) :
    mergeLoop behind (turns + 1) pre.length (table (pre ++ curr :: next :: rest) slots drift) =
      mergeLoop behind turns pre.length (table (pre ++ curr.extend next :: rest)
        ((next :: rest).getLast (by simp) :: slots) drift) := by
  have hnext : (pre ++ curr :: next :: rest ++ slots)[pre.length + 1]? = some next := by
    simp
  have hmove : moveRegions (pre ++ curr.extend next :: next :: (rest ++ slots))
      (pre.length + 1) (pre.length + 2)
      (table (pre ++ curr :: next :: rest) slots drift).n (pre.length + 2) =
      .ok (pre ++ curr.extend next :: rest ++ (next :: rest).getLast (by simp) :: slots) := by
    simpa [Nat.add_assoc] using
      moveRegions_down (pre ++ [curr.extend next]) rest slots next
  rw [mergeLoop]
  simp only [table_regions, List.append_assoc, List.cons_append, loadRegion_append, bind,
    Except.bind] at hnext ⊢
  simp only [loadNext, hnext, if_neg h, storeRegion_append, hmove]
  congr 1
  simp only [table, Memblock.mk.injEq]
  refine ⟨by simp, by simp; omega, ?_, trivial⟩
  simp only [sizeSum_append, sizeSum_cons, MemblockRegion.extend, add64]
  omega

/-- The last turn looks at the entry behind the live ones. -/
theorem mergeLoop_last :
    mergeLoop behind (turns + 1) pre.length (table (pre ++ [curr]) slots drift) =
      match slotFault curr (slots.head?.or behind) with
      | some f => .error f
      | none =>
          mergeLoop behind turns (pre ++ [curr]).length
            (table (pre ++ [curr]) slots drift) := by
  have hcurr : (pre ++ curr :: slots)[pre.length + 1]? = slots.head? := by
    cases slots <;> simp
  rw [mergeLoop]
  simp only [table_regions, List.append_assoc, List.singleton_append, loadRegion_append, bind,
    Except.bind, loadNext, hcurr]
  cases hhead : slots.head? with
  | some z =>
      by_cases hapart : Apart curr z <;>
        simp [hapart, slotFault, storeRegion_append, moveRegions_negative]
  | none =>
      cases behind with
      | none => simp [slotFault]
      | some z =>
          by_cases hapart : Apart curr z <;>
            simp [hapart, slotFault, storeRegion_append, moveRegions_negative]

end Turn

theorem mergeLoop_table {turns : ℕ} {rest : List MemblockRegion}
    (hturns : turns < rest.length) (pre slots : List MemblockRegion) (drift : ℕ) :
    mergeLoop behind turns pre.length (table (pre ++ rest) slots drift) =
      .ok (table (pre ++ mergeScan turns rest)
        (slotsAfter rest (mergeScan turns rest) slots) drift) := by
  induction turns generalizing pre rest slots with
  | zero =>
      match rest, hturns with
      | [curr], _ | curr :: next :: rest, _ => simp [mergeLoop, mergeScan, slotsAfter]; rfl
  | succ turns ih =>
      match rest, hturns with
      | curr :: next :: rest, hturns =>
          rw [mergeScan]
          split
          · rename_i hapart
            rw [mergeLoop_apart _ _ _ _ _ _ _ _ hapart, slotsAfter_cons,
              ih (by simpa using hturns), List.append_assoc, List.singleton_append]
          · rename_i hjoin
            have hle : (mergeScan turns (curr.extend next :: rest)).length ≤ rest.length + 1 :=
              length_mergeScan_le _ _
            rw [mergeLoop_extend _ _ _ _ _ _ _ _ hjoin, ih (by simpa using hturns),
              slotsAfter_extend (mergeScan_ne_nil _ _ _) hle]

/-- How a scan up to the end of the live regions goes wrong, if it does. Its last
comparison is with the slot behind them: the first leftover one, or what lies
behind a full array. -/
def scanFault (live slots : List MemblockRegion) : Option Fault :=
  let merged := mergeScan live.length live
  slotFault (merged.getLastD ⟨0, 0, 0, 0⟩) ((slotsAfter live merged slots).head?.or behind)

theorem scanFault_apart (curr next : MemblockRegion) (rest slots : List MemblockRegion)
    (h : Apart curr next) :
    scanFault behind (curr :: next :: rest) slots = scanFault behind (next :: rest) slots := by
  have hscan : mergeScan (curr :: next :: rest).length (curr :: next :: rest) =
      curr :: mergeScan (next :: rest).length (next :: rest) := by
    rw [List.length_cons, mergeScan, if_pos h]
  obtain ⟨last, merged, hmerged⟩ :=
    List.exists_cons_of_ne_nil (mergeScan_ne_nil (next :: rest).length next rest)
  simp only [scanFault, hscan, slotsAfter_cons]
  rw [hmerged]
  simp

theorem scanFault_extend (curr next : MemblockRegion) (rest slots : List MemblockRegion)
    (h : ¬ Apart curr next) :
    scanFault behind (curr :: next :: rest) slots =
      scanFault behind (curr.extend next :: rest)
        ((next :: rest).getLast (by simp) :: slots) := by
  have hle := length_mergeScan_le (rest.length + 1) (curr.extend next :: rest)
  have hscan : mergeScan (rest.length + 1 + 1) (curr :: next :: rest) =
      mergeScan (rest.length + 1) (curr.extend next :: rest) := by
    rw [mergeScan, if_neg h]
  simp only [scanFault, List.length_cons] at hle ⊢
  rw [slotsAfter_extend (mergeScan_ne_nil _ _ _) hle, hscan]

theorem mergeLoop_end {rest : List MemblockRegion} (hrest : rest ≠ [])
    (pre slots : List MemblockRegion) (drift : ℕ) :
    mergeLoop behind rest.length pre.length (table (pre ++ rest) slots drift) =
      match scanFault behind rest slots with
      | some f => .error f
      | none => .ok (table (pre ++ mergeScan rest.length rest)
          (slotsAfter rest (mergeScan rest.length rest) slots) drift) := by
  generalize hlen : rest.length = turns
  induction turns generalizing pre rest slots with
  | zero => exact absurd (List.length_eq_zero_iff.mp hlen) hrest
  | succ turns ih =>
      match rest, hrest, hlen with
      | [curr], _, hlen =>
          obtain rfl : turns = 0 := by simpa using hlen.symm
          have hafter : slotsAfter [curr] [curr] slots = slots := by simp [slotsAfter]
          rw [mergeLoop_last]
          simp only [List.length_singleton, scanFault, mergeScan, hafter, List.getLastD]
          rfl
      | curr :: next :: rest, _, hlen =>
          have hturns : turns = rest.length + 1 := by simpa using hlen.symm
          subst hturns
          by_cases hapart : Apart curr next
          · rw [mergeLoop_apart _ _ _ _ _ _ _ _ hapart, ih (by simp) _ _ (by simp),
              mergeScan, if_pos hapart, slotsAfter_cons,
              scanFault_apart _ _ _ _ _ hapart, List.append_assoc, List.singleton_append]
          · have hle := length_mergeScan_le (rest.length + 1) (curr.extend next :: rest)
            rw [mergeLoop_extend _ _ _ _ _ _ _ _ hapart, ih (by simp) _ _ (by simp),
              mergeScan, if_neg hapart,
              slotsAfter_extend (mergeScan_ne_nil _ _ _) hle,
              scanFault_extend _ _ _ _ _ hapart]

end Merge

end Cyanea.Memory
