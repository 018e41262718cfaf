/-
# A text terminal

A terminal has lines that are finished, and one that the cursor is in. A character goes to
the end of that line, which is finished as soon as it is full; a newline finishes it too.
What the terminal shows are its last lines, as many as it has rows.

The cells that are shown are described for each step: a character changes the cell at the
cursor, and a new line moves them up by a row once the terminal is full.
-/

import Mathlib.Data.List.DropRight
import Mathlib.Data.Nat.Notation

namespace Cyanea.Math

universe u

structure Terminal (α : Type u) where
  lines : List (List α)
  line : List α

namespace Terminal

variable {α : Type u}

/-- Nothing has been written. -/
def start : Terminal α := ⟨[], []⟩

def newline (t : Terminal α) : Terminal α := ⟨t.lines ++ [t.line], []⟩

/-- The line has one more character. -/
def append (t : Terminal α) (a : α) : Terminal α := ⟨t.lines, t.line ++ [a]⟩

def put (columns : ℕ) (t : Terminal α) (a : α) : Terminal α :=
  if columns ≤ (t.append a).line.length then (t.append a).newline else t.append a

/-- The last lines. -/
def shown (rows : ℕ) (t : Terminal α) : List (List α) := (t.lines ++ [t.line]).rtake rows

/-- What is shown in a row and a column. -/
def cell (rows : ℕ) (t : Terminal α) (r c : ℕ) : Option α :=
  (t.shown rows)[r]?.bind fun chars => chars[c]?

/-- The row that the cursor is in. -/
def cursorRow (rows : ℕ) (t : Terminal α) : ℕ := min t.lines.length (rows - 1)

variable {rows columns r c : ℕ} {t : Terminal α} {a : α}

theorem cursorRow_lt (hrows : 0 < rows) : t.cursorRow rows < rows := by
  rw [cursorRow]
  omega

/-! ## What is shown -/

theorem shown_eq (hrows : 0 < rows) :
    t.shown rows = t.lines.rtake (rows - 1) ++ [t.line] := by
  obtain ⟨n, rfl⟩ := Nat.exists_eq_succ_of_ne_zero (Nat.ne_of_gt hrows)
  exact List.rtake_concat_succ ..

theorem length_rtake (l : List (List α)) (n : ℕ) : (l.rtake n).length = min l.length n := by
  rw [List.rtake, List.length_drop]
  omega

/-- Above the cursor there are the lines that were finished last. -/
theorem cell_of_lt (hrows : 0 < rows) (hr : r < t.cursorRow rows) :
    t.cell rows r c = (t.lines.rtake (rows - 1))[r]?.bind fun chars => chars[c]? := by
  rw [cell, shown_eq hrows, List.getElem?_append_left]
  rwa [length_rtake]

theorem cell_cursorRow (hrows : 0 < rows) : t.cell rows (t.cursorRow rows) c = t.line[c]? := by
  have hlength : (t.lines.rtake (rows - 1)).length = t.cursorRow rows := length_rtake ..
  rw [cell, shown_eq hrows, ← hlength, List.getElem?_concat_length]
  rfl

/-- Below it there is nothing. -/
theorem cell_of_gt (hrows : 0 < rows) (hr : t.cursorRow rows < r) : t.cell rows r c = none := by
  have hlength : (t.shown rows).length ≤ r := by
    rw [shown_eq hrows, List.length_append, length_rtake, List.length_singleton]
    exact hr
  rw [cell, List.getElem?_eq_none hlength]
  rfl

/-! ## What a step changes -/

/-- A character appears at the cursor. -/
theorem cell_append (hrows : 0 < rows) : (t.append a).cell rows r c =
    if r = t.cursorRow rows ∧ c = t.line.length then some a else t.cell rows r c := by
  obtain hr | rfl | hr := Nat.lt_trichotomy r (t.cursorRow rows)
  · rw [if_neg fun h => absurd h.1 (Nat.ne_of_lt hr), cell_of_lt hrows hr]
    exact cell_of_lt hrows hr
  · have hcell : (t.append a).cell rows (t.cursorRow rows) c = (t.line ++ [a])[c]? :=
      cell_cursorRow hrows
    rw [hcell, cell_cursorRow hrows]
    by_cases hc : c = t.line.length
    · rw [if_pos ⟨rfl, hc⟩, hc, List.getElem?_concat_length]
    · rw [if_neg fun h => hc h.2]
      obtain hc | hc := Nat.lt_or_gt_of_ne hc
      · exact List.getElem?_append_left hc
      · rw [List.getElem?_eq_none (Nat.le_of_lt hc), List.getElem?_eq_none]
        rw [List.length_append]
        exact hc
  · rw [if_neg fun h => absurd h.1 (Nat.ne_of_gt hr), cell_of_gt hrows hr]
    exact cell_of_gt hrows hr

/-- A line that is empty shows nothing. -/
theorem bind_concat_nil (l : List (List α)) :
    ((l ++ [[]])[r]?.bind fun chars => chars[c]?) = l[r]?.bind fun chars => chars[c]? := by
  obtain hr | rfl | hr := Nat.lt_trichotomy r l.length
  · rw [List.getElem?_append_left hr]
  · rw [List.getElem?_concat_length, List.getElem?_eq_none (Nat.le_refl _)]
    rfl
  · rw [List.getElem?_eq_none (Nat.le_of_lt hr), List.getElem?_eq_none]
    rw [List.length_append]
    exact hr

theorem cell_newline (hrows : 0 < rows) : t.newline.cell rows r c =
    ((t.lines ++ [t.line]).rtake (rows - 1))[r]?.bind fun chars => chars[c]? := by
  rw [cell, shown_eq hrows]
  exact bind_concat_nil _

/-- As long as there are rows left, a new line changes nothing of what is shown. -/
theorem cell_newline_of_lt (h : t.cursorRow rows + 1 < rows) :
    t.newline.cell rows r c = t.cell rows r c := by
  rw [cursorRow] at h
  rw [cell_newline (Nat.zero_lt_of_lt h), cell, shown, List.rtake, List.rtake,
    List.length_append, List.length_singleton, Nat.sub_eq_zero_of_le (by omega),
    Nat.sub_eq_zero_of_le (by omega)]

/-- When there are none, all that is shown moves up. -/
theorem cell_newline_of_ge (hrows : 0 < rows) (h : rows ≤ t.cursorRow rows + 1) :
    t.newline.cell rows r c = t.cell rows (r + 1) c := by
  rw [cursorRow] at h
  have hdrop : t.lines.length + 1 - (rows - 1) + r = t.lines.length + 1 - rows + (r + 1) := by
    omega
  rw [cell_newline hrows, cell, shown, List.rtake, List.rtake, List.length_append,
    List.length_singleton, List.getElem?_drop, List.getElem?_drop, hdrop]

theorem cursorRow_newline : t.newline.cursorRow rows =
    if rows ≤ t.cursorRow rows + 1 then t.cursorRow rows else t.cursorRow rows + 1 := by
  have hlength : t.newline.lines.length = t.lines.length + 1 := List.length_append
  rw [cursorRow, cursorRow, hlength]
  by_cases h : rows ≤ min t.lines.length (rows - 1) + 1
  · rw [if_pos h]
    omega
  · rw [if_neg h]
    omega

end Terminal

end Cyanea.Math
