/-
# The subtables of one type

What `acpi_subtable_parse` makes of a table whose subtables are well formed. It calls the
handler as it should on those that end before the last byte of the table, or have something
behind their header. A last subtable that is only a header is not looked at, and without any
call there is no result, since `err` was never set.
-/

import Cyanea.Acpi.Subtables
import Mathlib.Tactic.ByContra

namespace Cyanea.Acpi

/-! ## What is asked for -/

/-- Well-formed subtables follow each other from an offset to the end of the table. -/
inductive Subtables (table : List UInt8) : ℕ → List ℕ → Prop
  | nil : Subtables table table.length []
  | cons {p : ℕ} {rest : List ℕ} (hlength : sizeofSubtable ≤ subtableLength table p)
      (h : Subtables table (p + subtableLength table p) rest) : Subtables table p (p :: rest)

/-- The subtables of the type. -/
def entries (table : List UInt8) (type : ℕ) (subtables : List ℕ) : List ℕ :=
  subtables.filter fun p => (subtableType table p).toNat = type

/-- A handler is called on one subtable after the other until it fails: whether it never
does, and all calls. -/
def handled (handler : List ℕ → ℤ) (calls : List ℕ) : List ℕ → Bool × List ℕ
  | [] => (true, calls)
  | p :: rest =>
      if handler (calls ++ [p]) ≠ 0 then (false, calls ++ [p])
      else handled handler (calls ++ [p]) rest

/-- The calls are those of the handler on the subtables of the type, and the result is their
number, or an error if the handler fails. -/
def ParsesEntries (table : List UInt8) (table_size type : ℕ) (handler : List ℕ → ℤ)
    (subtables : List ℕ) : Prop :=
  let (succeeds, calls) := handled handler [] (entries table type subtables)
  let result := if succeeds then ((entries table type subtables).length : ℤ) else -EINVAL
  ∃ turns, acpiSubtableParse table type handler table_size turns = some (some result, calls)

/-- Subtables that are not merely a header at the end of the table. -/
def visited (table : List UInt8) (subtables : List ℕ) : List ℕ :=
  subtables.filter fun p => p + sizeofSubtable < table.length

/-- The handler fails on one of the subtables, after it was called on those before. -/
def FailsOn (handler : List ℕ → ℤ) (subtables : List ℕ) : Prop :=
  ∃ k < subtables.length, handler (subtables.take (k + 1)) ≠ 0

/-- There is a subtable to call the handler on, and if one is left out, it fails before. -/
def CalledInTime (table : List UInt8) (type : ℕ) (handler : List ℕ → ℤ)
    (subtables : List ℕ) : Prop :=
  entries table type (visited table subtables) ≠ [] ∧
    (entries table type (visited table subtables) = entries table type subtables ∨
      FailsOn handler (entries table type (visited table subtables)))

/-! ## The calls -/

section Calls

variable {handler : List ℕ → ℤ} {calls subtables rest : List ℕ}

theorem handled_append :
    handled handler calls (subtables ++ rest) =
      if (handled handler calls subtables).1 then
        handled handler (handled handler calls subtables).2 rest
      else handled handler calls subtables := by
  induction subtables generalizing calls with
  | nil => rfl
  | cons p subtables ih =>
      rw [List.cons_append, handled, handled]
      by_cases herr : handler (calls ++ [p]) ≠ 0
      · rw [if_pos herr, if_pos herr]
        rfl
      · rw [if_neg herr, if_neg herr, ih]

theorem handled_succeeds :
    (handled handler calls subtables).1 = true ↔
      ∀ k < subtables.length, handler (calls ++ subtables.take (k + 1)) = 0 := by
  induction subtables generalizing calls with
  | nil => exact iff_of_true rfl fun k hk => absurd hk (Nat.not_lt_zero k)
  | cons p subtables ih =>
      rw [handled]
      by_cases herr : handler (calls ++ [p]) ≠ 0
      · rw [if_pos herr]
        exact iff_of_false Bool.false_ne_true fun h => herr (h 0 (Nat.succ_pos _))
      · rw [if_neg herr, ih]
        constructor
        · intro h k hk
          cases k with
          | zero => exact not_not.mp herr
          | succ k =>
              rw [List.take_succ_cons, List.append_cons]
              exact h k (Nat.lt_of_succ_lt_succ hk)
        · intro h k hk
          rw [← List.append_cons, ← List.take_succ_cons]
          exact h (k + 1) (Nat.succ_lt_succ hk)

theorem handled_fails : (handled handler [] subtables).1 = false ↔ FailsOn handler subtables := by
  rw [← Bool.not_eq_true, handled_succeeds, FailsOn]
  simp only [List.nil_append, not_forall, exists_prop, ne_eq]

theorem handled_calls (h : (handled handler calls subtables).1 = true) :
    (handled handler calls subtables).2 = calls ++ subtables := by
  induction subtables generalizing calls with
  | nil => exact (List.append_nil calls).symm
  | cons p subtables ih =>
      rw [handled] at h ⊢
      by_cases herr : handler (calls ++ [p]) ≠ 0
      · rw [if_pos herr] at h
        cases h
      · rw [if_neg herr] at h ⊢
        rw [ih h, List.append_assoc, List.singleton_append]

end Calls

/-! ## The walk over well-formed subtables -/

section Walking

variable {table : List UInt8} {type p : ℕ} {handler : List ℕ → ℤ} {subtables : List ℕ}

theorem Subtables.le (h : Subtables table p subtables) : p ≤ table.length := by
  induction h with
  | nil => exact Nat.le_refl _
  | cons hlength h ih => omega

/-- Behind a header at the end of the table there is no other. -/
theorem Subtables.last {rest : List ℕ} (hlength : sizeofSubtable ≤ subtableLength table p)
    (h : Subtables table (p + subtableLength table p) rest)
    (hout : ¬ p + sizeofSubtable < table.length) : rest = [] := by
  generalize hq : p + subtableLength table p = q at h
  cases h with
  | nil => rfl
  | cons hlength' h' =>
      have hend := h'.le
      have hsize : 0 < sizeofSubtable := by decide
      omega

theorem visited_cons {rest : List ℕ} (hin : p + sizeofSubtable < table.length) :
    visited table (p :: rest) = p :: visited table rest :=
  List.filter_cons_of_pos (by simpa using hin)

theorem visited_last (hout : ¬ p + sizeofSubtable < table.length) :
    visited table [p] = [] :=
  List.filter_cons_of_neg (by simpa using hout)

theorem entries_cons {rest : List ℕ} (htype : (subtableType table p).toNat = type) :
    entries table type (p :: rest) = p :: entries table type rest :=
  List.filter_cons_of_pos (by simpa using htype)

theorem entries_cons_of_ne {rest : List ℕ} (htype : (subtableType table p).toNat ≠ type) :
    entries table type (p :: rest) = entries table type rest :=
  List.filter_cons_of_neg (by simpa using htype)

/-- Only the last subtable can be left out. -/
theorem Subtables.visited_cases (h : Subtables table p subtables) :
    visited table subtables = subtables ∨
      ∃ last, subtables = visited table subtables ++ [last] := by
  induction h with
  | nil => exact Or.inl rfl
  | @cons p rest hlength h ih =>
      by_cases hin : p + sizeofSubtable < table.length
      · rw [visited_cons hin]
        obtain hall | ⟨last, hlast⟩ := ih
        · exact Or.inl (congrArg (p :: ·) hall)
        · exact Or.inr ⟨last, congrArg (p :: ·) hlast⟩
      · obtain rfl := Subtables.last hlength h hin
        exact Or.inr ⟨p, by rw [visited_last hin, List.nil_append]⟩

/-- The walk, from a subtable on. -/
theorem parseLoop_entries (type : ℕ) (handler : List ℕ → ℤ) {w : Walk}
    (h : Subtables table w.subtable subtables) :
    ∃ turns last, parseLoop table type handler turns w = some last ∧
      last.calls = (handled handler w.calls (entries table type (visited table subtables))).2 ∧
      ((handled handler w.calls (entries table type (visited table subtables))).1 = false →
        ∃ err ≠ 0, last.err = some err) ∧
      ((handled handler w.calls (entries table type (visited table subtables))).1 = true →
        last.count = w.count + (entries table type (visited table subtables)).length ∧
        last.err = if entries table type (visited table subtables) = [] then w.err
          else some 0) := by
  obtain ⟨p, err, count, calls⟩ := w
  dsimp only at h ⊢
  induction h generalizing err count calls with
  | nil =>
      refine ⟨1, ⟨table.length, err, count, calls⟩, ?_, rfl, by rintro ⟨⟩, fun _ => ⟨rfl, rfl⟩⟩
      rw [parseLoop, parseTurn, if_neg (Nat.not_lt.mpr (Nat.le_add_right _ _))]
  | @cons p rest hlength h ih =>
      by_cases hin : p + sizeofSubtable < table.length
      · rw [visited_cons hin]
        by_cases htype : (subtableType table p).toNat = type
        · rw [entries_cons htype, handled]
          by_cases herr : handler (calls ++ [p]) ≠ 0
          · rw [if_pos herr]
            refine ⟨1, ⟨p, some (handler (calls ++ [p])), count, calls ++ [p]⟩, ?_, rfl,
              fun _ => ⟨_, herr, rfl⟩, by simp⟩
            rw [parseLoop, parseTurn, if_pos hin, if_pos htype]
            dsimp only
            rw [if_pos herr]
          · obtain ⟨turns, last, hrun, hcalls, hfails, hsucceeds⟩ :=
              ih (some (handler (calls ++ [p]))) (count + 1) (calls ++ [p])
            rw [if_neg herr]
            refine ⟨turns + 1, last, ?_, hcalls, hfails, fun hok => ?_⟩
            · rw [parseLoop, parseTurn, if_pos hin, if_pos htype]
              dsimp only
              rw [if_neg herr]
              exact hrun
            · obtain ⟨hcount, herr'⟩ := hsucceeds hok
              rw [not_not.mp herr, ite_self] at herr'
              rw [if_neg (List.cons_ne_nil _ _), List.length_cons]
              exact ⟨by omega, herr'⟩
        · rw [entries_cons_of_ne htype]
          obtain ⟨turns, last, hrun, hrest⟩ := ih err count calls
          refine ⟨turns + 1, last, ?_, hrest⟩
          rw [parseLoop, parseTurn, if_pos hin, if_neg htype]
          exact hrun
      · obtain rfl := Subtables.last hlength h hin
        rw [visited_last hin]
        refine ⟨1, ⟨p, err, count, calls⟩, ?_, rfl, by rintro ⟨⟩, fun _ => ⟨rfl, rfl⟩⟩
        rw [parseLoop, parseTurn, if_neg hin]

theorem parseLoop_mono {turns turns' : ℕ} {w last : Walk}
    (h : parseLoop table type handler turns w = some last) (hle : turns ≤ turns') :
    parseLoop table type handler turns' w = some last := by
  induction turns generalizing turns' w with
  | zero => cases h
  | succ turns ih =>
      obtain ⟨turns', rfl⟩ := Nat.exists_eq_succ_of_ne_zero (by omega : turns' ≠ 0)
      rw [parseLoop] at h ⊢
      cases hturn : parseTurn table type handler w with
      | again next =>
          rw [hturn] at h
          exact ih h (Nat.le_of_succ_le_succ hle)
      | leave next =>
          rw [hturn] at h
          exact h

/-- Where the loop ends does not depend on the bound of its turns. -/
theorem parseLoop_unique {turns turns' : ℕ} {w last last' : Walk}
    (h : parseLoop table type handler turns w = some last)
    (h' : parseLoop table type handler turns' w = some last') : last = last' := by
  induction turns generalizing turns' w with
  | zero => cases h
  | succ turns ih =>
      cases turns' with
      | zero => cases h'
      | succ turns' =>
          rw [parseLoop] at h h'
          cases hturn : parseTurn table type handler w with
          | again next =>
              rw [hturn] at h h'
              exact ih h h'
          | leave next =>
              rw [hturn] at h h'
              exact Option.some.inj (h.symm.trans h')

theorem acpiSubtableParse_unique {turns turns' table_size : ℕ} {r r' : Option ℤ × List ℕ}
    (h : acpiSubtableParse table type handler table_size turns = some r)
    (h' : acpiSubtableParse table type handler table_size turns' = some r') : r = r' := by
  obtain ⟨last, hrun, rfl⟩ := Option.map_eq_some_iff.mp h
  obtain ⟨last', hrun', rfl⟩ := Option.map_eq_some_iff.mp h'
  rw [parseLoop_unique hrun hrun']

/-- What the code returns: the subtables that are left out have no part in it. -/
theorem acpiSubtableParse_visited (type : ℕ) (handler : List ℕ → ℤ) {table_size : ℕ}
    (h : Subtables table table_size subtables) :
    ∃ turns, acpiSubtableParse table type handler table_size turns =
      some (if entries table type (visited table subtables) = [] then none
        else some (if (handled handler [] (entries table type (visited table subtables))).1
          then ((entries table type (visited table subtables)).length : ℤ) else -EINVAL),
        (handled handler [] (entries table type (visited table subtables))).2) := by
  obtain ⟨turns, last, hrun, hcalls, hfails, hsucceeds⟩ :=
    parseLoop_entries type handler (w := .start table_size) h
  generalize entries table type (visited table subtables) = called at *
  refine ⟨turns, ?_⟩
  rw [acpiSubtableParse, hrun, Option.map_some, hcalls]
  cases hok : (handled handler [] called).1 with
  | true =>
      obtain ⟨hcount, herr⟩ := hsucceeds hok
      rw [herr, hcount]
      by_cases hnone : called = []
      · rw [if_pos hnone, if_pos hnone]
        rfl
      · rw [if_neg hnone, if_neg hnone, Option.map_some, if_neg (not_not.mpr rfl), if_pos rfl,
          Walk.start, Nat.zero_add]
  | false =>
      obtain ⟨err, hne, herr⟩ := hfails hok
      have hsome : called ≠ [] := by
        rintro rfl
        cases hok
      rw [herr, Option.map_some, if_pos hne, if_neg hsome, if_neg Bool.false_ne_true]
      rfl

/-- A subtable of the type that is left out is not called either. -/
theorem entries_cases (type : ℕ) {table_size : ℕ} (h : Subtables table table_size subtables) :
    entries table type subtables = entries table type (visited table subtables) ∨
      ∃ last, entries table type subtables =
        entries table type (visited table subtables) ++ [last] := by
  obtain hall | ⟨last, hlast⟩ := h.visited_cases
  · exact Or.inl (by rw [hall])
  · have happend : entries table type subtables =
        entries table type (visited table subtables) ++ entries table type [last] := by
      conv_lhs => rw [hlast]
      exact List.filter_append ..
    by_cases htype : (subtableType table last).toNat = type
    · exact Or.inr ⟨last, by rw [happend, entries_cons htype]; rfl⟩
    · exact Or.inl (by rw [happend, entries_cons_of_ne htype]; exact List.append_nil _)

theorem not_parsesEntries {table_size : ℕ} (h : Subtables table table_size subtables)
    (hlate : ¬ CalledInTime table type handler subtables) :
    ¬ ParsesEntries table table_size type handler subtables := by
  rintro ⟨turns', hparse'⟩
  obtain ⟨turns, hparse⟩ := acpiSubtableParse_visited type handler h
  obtain ⟨hresult, hcalls⟩ := Prod.mk.inj (acpiSubtableParse_unique hparse hparse')
  have hcases := entries_cases type h
  rw [CalledInTime] at hlate
  generalize entries table type (visited table subtables) = called at *
  by_cases hnone : called = []
  · rw [if_pos hnone] at hresult
    cases hresult
  · have hok : (handled handler [] called).1 = true := by
      by_contra hfails
      exact hlate ⟨hnone, Or.inr (handled_fails.mp (Bool.eq_false_iff.mpr hfails))⟩
    obtain hall | ⟨last, hlast⟩ := hcases
    · exact hlate ⟨hnone, Or.inl hall.symm⟩
    · -- the handler would have been called once more
      rw [hlast, handled_append, if_pos hok, handled_calls hok, List.nil_append, handled] at hcalls
      have hmore : called = called ++ [last] := by
        by_cases herr : handler (called ++ [last]) ≠ 0
        · rwa [if_pos herr] at hcalls
        · rwa [if_neg herr] at hcalls
      exact absurd hmore (by simp)

end Walking

/-- The entries are parsed as they should be exactly if the handler is called at all, and
fails before a last subtable of the type that is only a header. -/
theorem parsesEntries_iff {table : List UInt8} {table_size : ℕ} {subtables : List ℕ}
    (h : Subtables table table_size subtables) (type : ℕ) (handler : List ℕ → ℤ) :
    ParsesEntries table table_size type handler subtables ↔
      CalledInTime table type handler subtables := by
  refine ⟨fun hparses => ?_, fun hcalled => ?_⟩
  · by_contra hlate
    exact not_parsesEntries h hlate hparses
  · obtain ⟨turns, hparse⟩ := acpiSubtableParse_visited type handler h
    obtain ⟨hsome, hrest⟩ := hcalled
    refine ⟨turns, hparse.trans ?_⟩
    rw [if_neg hsome]
    obtain hall | hfails := hrest
    · rw [hall]
    · have hno := handled_fails.mpr hfails
      have hsame : handled handler [] (entries table type subtables) =
          handled handler [] (entries table type (visited table subtables)) := by
        obtain hall | ⟨last, hlast⟩ := entries_cases type h
        · rw [hall]
        · rw [hlast, handled_append, if_neg (by rw [hno]; exact Bool.false_ne_true)]
      rw [hsame, if_neg (by rw [hno]; exact Bool.false_ne_true),
        if_neg (by rw [hno]; exact Bool.false_ne_true)]

/-- Two subtables, one of them of type 1. -/
def twoSubtables : List UInt8 := [0, 2, 1, 3, 7]

theorem subtables_two : Subtables twoSubtables 0 [0, 2] :=
  .cons (by decide) (.cons (by decide) .nil)

theorem parsesEntries_iff_two : ParsesEntries twoSubtables 0 1 succeed [0, 2] ↔
    CalledInTime twoSubtables 1 succeed [0, 2] :=
  parsesEntries_iff subtables_two 1 succeed

/-- There is no subtable of type 5, and no result. -/
theorem not_parsesEntries_two : ¬ ParsesEntries twoSubtables 0 5 succeed [0, 2] :=
  not_parsesEntries subtables_two fun h => h.1 (by decide)

end Cyanea.Acpi
