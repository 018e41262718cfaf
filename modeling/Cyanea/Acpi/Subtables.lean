/-
# Walking the subtables of an ACPI table

The model of `acpi_subtable_parse` in `drivers/acpi/acpi.c`. Subtables are offsets into the
table, whose bytes come from the firmware. The handler is arbitrary: what it returns may
depend on all the subtables it has been called on. Nothing in the code keeps the walk from
standing still, so the number of turns is bounded in the model, and a walk ends when it
does so within some bound.
-/

import Cyanea.Errno
import Cyanea.Math.Simulation

namespace Cyanea.Acpi

open Math.Simulation (Turn)

/-- `sizeof(struct acpi_subtable_header)`. -/
def sizeofSubtable : ℕ := 2

/-- `acpi_calc_checksum` of a whole table. -/
def acpiCalcChecksum (mem : List UInt8) : UInt8 :=
  mem.foldl (fun sum byte => sum + byte) 0

/-- `subtable->type`. -/
def subtableType (table : List UInt8) (subtable : ℕ) : UInt8 := table.getD subtable 0

/-- `subtable->length`. -/
def subtableLength (table : List UInt8) (subtable : ℕ) : ℕ :=
  (table.getD (subtable + 1) 0).toNat

/-- The variables of the loop: `err` is not set before the handler is called. The
subtables that it has been called on come with them. -/
structure Walk where
  subtable : ℕ
  err : Option ℤ
  count : ℕ
  calls : List ℕ
  deriving DecidableEq, Repr

section Parse

variable (table : List UInt8) (type : ℕ) (handler : List ℕ → ℤ)

/-- A turn of the loop. -/
def parseTurn (w : Walk) : Turn Walk Walk :=
  if w.subtable + sizeofSubtable < table.length then
    if (subtableType table w.subtable).toNat = type then
      let calls := w.calls ++ [w.subtable]
      let err := handler calls
      if err ≠ 0 then
        .leave { w with err := some err, calls }
      else
        .again
          { subtable := w.subtable + subtableLength table w.subtable
            err := some err
            count := w.count + 1
            calls }
    else
      .again { w with subtable := w.subtable + subtableLength table w.subtable }
  else
    .leave w

/-- The loop, as far as `turns` turns take it. -/
def parseLoop : ℕ → Walk → Option Walk
  | 0, _ => none
  | turns + 1, w =>
      match parseTurn table type handler w with
      | .again w => parseLoop turns w
      | .leave w => some w

/-- The loop starts behind the `table_size` bytes of the root table. -/
def Walk.start (table_size : ℕ) : Walk := ⟨table_size, none, 0, []⟩

/-- What is returned, and the subtables that the handler was called on; `none` for a result
that depends on `err` when that was never set. -/
def acpiSubtableParse (table_size turns : ℕ) : Option (Option ℤ × List ℕ) :=
  (parseLoop table type handler turns (.start table_size)).map fun w =>
    (w.err.map fun err => if err ≠ 0 then -EINVAL else w.count, w.calls)

end Parse

/-! ## What the walk comes to -/

/-- A subtable that lies in the table and is as long as its header. -/
def Contained (table : List UInt8) (subtable : ℕ) : Prop :=
  sizeofSubtable ≤ subtableLength table subtable ∧
    subtable + subtableLength table subtable ≤ table.length

/-- The walk ends, whatever the handler returns, and the handler is only called on
subtables that lie in the table. -/
def WalksInside (table : List UInt8) (table_size type : ℕ) : Prop :=
  ∀ handler, ∃ turns result calls,
    acpiSubtableParse table type handler table_size turns = some (result, calls) ∧
      ∀ subtable ∈ calls, Contained table subtable

/-- The offsets that the length bytes lead to, as long as a header ends before the last
byte of the table. -/
inductive Reached (table : List UInt8) (table_size : ℕ) : ℕ → Prop
  | start : Reached table table_size table_size
  | next {subtable : ℕ} (h : Reached table table_size subtable)
      (hin : subtable + sizeofSubtable < table.length) :
      Reached table table_size (subtable + subtableLength table subtable)

/-- No header that the walk comes to has length zero, and those of the type sought are
contained in the table. -/
def Sound (table : List UInt8) (table_size type : ℕ) : Prop :=
  ∀ subtable, Reached table table_size subtable →
    subtable + sizeofSubtable < table.length → subtableLength table subtable ≠ 0 ∧
      ((subtableType table subtable).toNat = type → Contained table subtable)

variable {table : List UInt8} {table_size type : ℕ} {handler : List ℕ → ℤ}

/-- A walk over sound headers ends, since each takes it closer to the end. -/
theorem parseLoop_of_sound (h : Sound table table_size type) (turns : ℕ) {w : Walk}
    (hreached : Reached table table_size w.subtable)
    (hcalls : ∀ subtable ∈ w.calls, Contained table subtable)
    (hturns : table.length < w.subtable + turns) :
    ∃ w', parseLoop table type handler (turns + 1) w = some w' ∧
      ∀ subtable ∈ w'.calls, Contained table subtable := by
  induction turns generalizing w with
  | zero =>
      have hout : ¬ w.subtable + sizeofSubtable < table.length := by
        rw [Nat.add_zero] at hturns
        omega
      exact ⟨w, by rw [parseLoop, parseTurn, if_neg hout], hcalls⟩
  | succ turns ih =>
      rw [parseLoop, parseTurn]
      by_cases hin : w.subtable + sizeofSubtable < table.length
      · obtain ⟨hzero, hsound⟩ := h w.subtable hreached hin
        rw [if_pos hin]
        by_cases htype : (subtableType table w.subtable).toNat = type
        · have hmore : ∀ subtable ∈ w.calls ++ [w.subtable], Contained table subtable := by
            intro subtable hmem
            rcases List.mem_append.1 hmem with hmem | hmem
            · exact hcalls subtable hmem
            · rw [List.mem_singleton.1 hmem]
              exact hsound htype
          rw [if_pos htype]
          by_cases herr : handler (w.calls ++ [w.subtable]) = 0
          · simp only [herr, ne_eq, not_true_eq_false, if_false]
            apply ih
            · exact hreached.next hin
            · exact hmore
            · show table.length < w.subtable + subtableLength table w.subtable + turns
              omega
          · simp only [ne_eq, herr, not_false_eq_true, if_true]
            exact ⟨_, rfl, hmore⟩
        · rw [if_neg htype]
          apply ih
          · exact hreached.next hin
          · exact hcalls
          · show table.length < w.subtable + subtableLength table w.subtable + turns
            omega
      · rw [if_neg hin]
        exact ⟨w, rfl, hcalls⟩

/-! ## A handler that never fails -/

/-- The handler of most callers. -/
def succeed : List ℕ → ℤ := fun _ => 0

/-- It lets the walk go on at every header, after it was called on those of its type. -/
theorem parseTurn_succeed (type : ℕ) {w : Walk}
    (hin : w.subtable + sizeofSubtable < table.length) :
    ∃ next, parseTurn table type succeed w = .again next ∧
      next.subtable = w.subtable + subtableLength table w.subtable ∧
      (∀ subtable ∈ w.calls, subtable ∈ next.calls) ∧
      ((subtableType table w.subtable).toNat = type → w.subtable ∈ next.calls) := by
  rw [parseTurn, if_pos hin]
  by_cases htype : (subtableType table w.subtable).toNat = type
  · rw [if_pos htype]
    refine ⟨_, if_neg (not_not.2 rfl), rfl, ?_, ?_⟩
    · intro subtable hmem
      exact List.mem_append_left _ hmem
    · intro _
      exact List.mem_append_right _ List.mem_cons_self
  · rw [if_neg htype]
    exact ⟨_, rfl, rfl, fun _ hmem => hmem, fun h => absurd h htype⟩

/-- A walk that ends takes a turn at every header on its way. -/
theorem parseLoop_succeed {turns : ℕ} {w last : Walk}
    (hrun : parseLoop table type succeed turns w = some last)
    (hin : w.subtable + sizeofSubtable < table.length) :
    ∃ turns' next, turns = turns' + 1 ∧ parseTurn table type succeed w = .again next ∧
      parseLoop table type succeed turns' next = some last := by
  obtain ⟨next, hturn, -⟩ := parseTurn_succeed type hin
  cases turns with
  | zero => simp [parseLoop] at hrun
  | succ turns =>
      rw [parseLoop, hturn] at hrun
      exact ⟨turns, next, rfl, hturn, hrun⟩

/-- At a header of length zero the walk stands still for ever. -/
theorem parseLoop_stands {turns : ℕ} {w : Walk}
    (hin : w.subtable + sizeofSubtable < table.length)
    (hzero : subtableLength table w.subtable = 0) :
    parseLoop table type succeed turns w = none := by
  induction turns generalizing w with
  | zero => rfl
  | succ turns ih =>
      obtain ⟨next, hturn, hnext, -⟩ := parseTurn_succeed type hin
      rw [hzero, Nat.add_zero] at hnext
      rw [parseLoop, hturn]
      apply ih
      · rwa [hnext]
      · rwa [hnext]

/-- No call is forgotten. -/
theorem parseLoop_calls {turns : ℕ} {w last : Walk}
    (hrun : parseLoop table type succeed turns w = some last) {subtable : ℕ}
    (hmem : subtable ∈ w.calls) : subtable ∈ last.calls := by
  induction turns generalizing w with
  | zero => simp [parseLoop] at hrun
  | succ turns ih =>
      by_cases hin : w.subtable + sizeofSubtable < table.length
      · obtain ⟨next, hturn, -, hcalls, -⟩ := parseTurn_succeed type hin
        rw [parseLoop, hturn] at hrun
        exact ih hrun (hcalls subtable hmem)
      · rw [parseLoop, parseTurn, if_neg hin] at hrun
        obtain rfl : w = last := by simpa using hrun
        exact hmem

/-- A walk that ends has come to every offset that the length bytes lead to. -/
theorem parseLoop_reached {turns : ℕ} {w last : Walk}
    (hrun : parseLoop table type succeed turns w = some last) {subtable : ℕ}
    (hreached : Reached table w.subtable subtable) :
    ∃ turns' w', parseLoop table type succeed turns' w' = some last ∧
      w'.subtable = subtable := by
  induction hreached with
  | start => exact ⟨turns, w, hrun, rfl⟩
  | next h hin ih =>
      obtain ⟨turns', w', hrun', rfl⟩ := ih
      obtain ⟨turns'', next, -, hturn, hrest⟩ := parseLoop_succeed hrun' hin
      obtain ⟨next', hturn', hnext, -⟩ := parseTurn_succeed type hin
      obtain rfl : next = next' := by simpa [hturn] using hturn'
      exact ⟨turns'', next, hrest, hnext⟩

/-! ## When the walk is safe -/

/-- The walk ends and stays inside the table exactly if the headers that the length bytes
lead to are sound. -/
theorem walksInside_iff (table : List UInt8) (table_size type : ℕ) :
    WalksInside table table_size type ↔ Sound table table_size type := by
  constructor
  · intro h subtable hreached hin
    obtain ⟨turns, result, calls, hparse, hcalls⟩ := h succeed
    obtain ⟨last, hrun, hlast⟩ := Option.map_eq_some_iff.1 hparse
    obtain ⟨turns', w, hrest, rfl⟩ := parseLoop_reached (w := .start table_size) hrun hreached
    constructor
    · intro hzero
      rw [parseLoop_stands hin hzero] at hrest
      cases hrest
    · intro htype
      obtain ⟨turns'', next, -, hturn, hend⟩ := parseLoop_succeed hrest hin
      obtain ⟨next', hturn', -, -, hcall⟩ := parseTurn_succeed type hin
      obtain rfl : next = next' := by simpa [hturn] using hturn'
      apply hcalls
      rw [← (Prod.mk.inj hlast).2]
      exact parseLoop_calls hend (hcall htype)
  · intro h handler
    obtain ⟨last, hrun, hlast⟩ := parseLoop_of_sound (w := .start table_size) h
      (table.length + 1) .start nofun (by show _ < table_size + _; omega)
    have hparse : acpiSubtableParse table type handler table_size (table.length + 1 + 1) =
        some (last.err.map fun err => if err ≠ 0 then -EINVAL else last.count, last.calls) := by
      rw [acpiSubtableParse, hrun]
      rfl
    exact ⟨_, _, _, hparse, hlast⟩

/-- A MADT with one entry of a type that nobody looks for, and of length zero. -/
def madtZero : List UInt8 :=
  [0x41, 0x50, 0x49, 0x43, 48, 0, 0, 0, 5, 0xa5] ++ List.replicate 34 0 ++ [9, 0, 0, 0]

theorem not_walksInside_zero :
    acpiCalcChecksum madtZero = 0 ∧ ¬ WalksInside madtZero 44 0 := by
  refine ⟨by decide, ?_⟩
  intro h
  obtain ⟨turns, result, calls, hparse, -⟩ := h succeed
  obtain ⟨last, hrun, -⟩ := Option.map_eq_some_iff.1 hparse
  rw [parseLoop_stands (by decide) (by decide)] at hrun
  cases hrun

end Cyanea.Acpi
