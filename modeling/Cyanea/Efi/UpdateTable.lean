/-
# What is left of the E820 table

`__e820__update_table` makes one pass over the entries, in which neighbours are joined.
What an entry begins with, its start and its type, does not change when others are joined
to it, so the general facts about such a pass apply.
-/

import Cyanea.Efi.E820

namespace Cyanea.Efi

open Math.Joining

/-- The bytes that an entry lists under a type. -/
def E820Entry.listed (type : E820Type) (e : E820Entry) : List ℕ :=
  if e.type = type then List.range' e.start e.size else []

/-- The bytes that are listed under a type, as often as they are and in this order. -/
def listed (type : E820Type) (l : List E820Entry) : List ℕ := l.flatMap (E820Entry.listed type)

/-- An entry is recognised by its start and its type, however long it has become. -/
def E820Entry.front (e : E820Entry) : ℕ × E820Type := (e.start, e.type)

/-- The second entry continues the first one, with the same type. -/
def E820Entry.Continues (e c : E820Entry) : Prop := e.type = c.type ∧ e.start + e.size = c.start

variable {l : List E820Entry} {e c e' : E820Entry}

theorem joinEntry_front (h : joinEntry e c = some e') : e'.front = e.front := by
  obtain ⟨-, -, rfl⟩ := joinEntry_some h
  rfl

theorem joinEntry_eq_none : joinEntry e c = none ↔
    ¬ (e.type = c.type ∧ add64 e.start e.size = c.start) := by
  rw [joinEntry, ite_eq_right_iff, imp_iff_not (Option.some_ne_none _)]

theorem joinEntry_none_congr {d : E820Entry} (hfront : e.front = e'.front)
    (h : joinEntry d e = none) : joinEntry d e' = none := by
  obtain ⟨hstart, htype⟩ := Prod.mk.inj hfront
  rwa [joinEntry_eq_none, ← hstart, ← htype, ← joinEntry_eq_none]

theorem listed_join (type : E820Type) (he : e.Fits) (hc : c.Fits) (h : joinEntry e c = some e') :
    e'.listed type = e.listed type ++ c.listed type := by
  obtain ⟨htype, -⟩ := joinEntry_some h
  obtain ⟨hadjacent, rfl, -⟩ := joinEntry_fits he hc h
  rw [E820Entry.listed, E820Entry.listed, E820Entry.listed, ← htype]
  by_cases hlisted : e.type = type
  · rw [if_pos hlisted, if_pos hlisted, if_pos hlisted, ← hadjacent, List.range'_append_1]
  · rw [if_neg hlisted, if_neg hlisted, if_neg hlisted, List.append_nil]

theorem listed_updateEntries (type : E820Type) (hfits : ∀ e ∈ l, e.Fits) :
    listed type (updateEntries l) = listed type l := by
  rw [updateEntries_eq]
  exact flatMap_joined (fun he hc h => (joinEntry_fits he hc h).2.2) (listed_join type) hfits

theorem isChain_updateEntries (hfits : ∀ e ∈ l, e.Fits) :
    (updateEntries l).IsChain fun e c => ¬ e.Continues c := by
  have hchain : (updateEntries l).IsChain fun e c => joinEntry e c = none := by
    rw [updateEntries_eq]
    exact isChain_joined joinEntry_front joinEntry_none_congr l
  have hfits' := (updateEntries_joined hfits).fits hfits
  refine hchain.imp_of_mem_imp fun e c he _ hnone => ?_
  rw [joinEntry_eq_none, add64_eq (hfits' e he)] at hnone
  exact hnone

theorem updateEntries_idem (l : List E820Entry) :
    updateEntries (updateEntries l) = updateEntries l := by
  rw [updateEntries_eq (updateEntries l)]
  apply joined_of_isChain
  rw [updateEntries_eq]
  exact isChain_joined joinEntry_front joinEntry_none_congr l

/-- The table does not grow, what is listed under a type stays, the entries that are left
come in the order they were in, no entry continues the one before, and a second update
changes nothing. -/
theorem updateEntries_compacts (l : List E820Entry) (hfits : ∀ e ∈ l, e.Fits) :
    (updateEntries l).length ≤ l.length ∧
      (∀ type, listed type (updateEntries l) = listed type l) ∧
      ((updateEntries l).map E820Entry.front).Sublist (l.map E820Entry.front) ∧
      ((updateEntries l).IsChain fun e c => ¬ e.Continues c) ∧
      updateEntries (updateEntries l) = updateEntries l := by
  refine ⟨?_, fun type => listed_updateEntries type hfits, ?_, isChain_updateEntries hfits,
    updateEntries_idem l⟩
  · rw [updateEntries_eq]
    exact length_joined_le l
  · rw [updateEntries_eq]
    exact map_joined_sublist joinEntry_front

/-- Three entries become one; the last one only overlaps. -/
def fourEntries : List E820Entry :=
  [⟨0, 16, .RAM⟩, ⟨16, 0, .RAM⟩, ⟨16, 8, .RAM⟩, ⟨20, 4, .ACPI⟩]

theorem updateEntries_compacts_four : (updateEntries fourEntries).length ≤ 4 ∧
    (∀ type, listed type (updateEntries fourEntries) = listed type fourEntries) ∧
    ((updateEntries fourEntries).map E820Entry.front).Sublist
      (fourEntries.map E820Entry.front) ∧
    ((updateEntries fourEntries).IsChain fun e c => ¬ e.Continues c) ∧
    updateEntries (updateEntries fourEntries) = updateEntries fourEntries := by
  apply updateEntries_compacts fourEntries
  simp [fourEntries, E820Entry.Fits]

example : updateEntries fourEntries = [⟨0, 24, .RAM⟩, ⟨20, 4, .ACPI⟩] := by decide

end Cyanea.Efi
