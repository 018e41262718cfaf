/-
# Joining neighbours in one pass

A pass over a list keeps the last element at hand. The next element is joined to it where
the two join, and takes its place where they do not. Whether two elements join may only
depend on the first one as a whole and on the front of the second one, and joining must
not change the front. Then no two neighbours of the result join, so that a second pass
changes nothing.

Nothing here says what the elements are. A predicate `P` stands for what all of them
satisfy, such as that no computation on them overflows.
-/

import Mathlib.Data.List.Chain
import Mathlib.Data.List.Flatten
import Mathlib.Data.Nat.Notation

namespace Cyanea.Math.Joining

universe u v

variable {α : Type u} {β : Type v}

/-- The pass, with the element at hand. -/
def pass (join : α → α → Option α) : α → List α → List α
  | e, [] => [e]
  | e, c :: rest =>
    match join e c with
    | some e' => pass join e' rest
    | none => e :: pass join c rest

/-- The list with all neighbours joined that can be. -/
def joined (join : α → α → Option α) : List α → List α
  | [] => []
  | e :: rest => pass join e rest

variable {join : α → α → Option α} {e c e' : α} {rest l : List α}

@[simp]
theorem joined_cons : joined join (e :: rest) = pass join e rest := rfl

theorem pass_some (h : join e c = some e') : pass join e (c :: rest) = pass join e' rest := by
  rw [pass, h]

theorem pass_none (h : join e c = none) : pass join e (c :: rest) = e :: pass join c rest := by
  rw [pass, h]

/-! ## The length -/

theorem length_pass_le (e : α) (rest : List α) :
    (pass join e rest).length ≤ rest.length + 1 := by
  induction rest generalizing e with
  | nil => exact Nat.le_refl 1
  | cons c rest ih =>
      cases h : join e c with
      | some e' =>
          rw [pass_some h]
          exact (ih e').trans (Nat.le_succ _)
      | none =>
          rw [pass_none h]
          exact Nat.succ_le_succ (ih c)

theorem length_joined_le (l : List α) : (joined join l).length ≤ l.length := by
  cases l with
  | nil => exact Nat.le_refl 0
  | cons e rest => exact length_pass_le e rest

/-! ## What adds up -/

/-- What is listed under the elements stays, if an element that two are joined to has what
the two have. -/
theorem flatMap_pass {P : α → Prop} {f : α → List β}
    (hP : ∀ {e c e'}, P e → P c → join e c = some e' → P e')
    (hf : ∀ {e c e'}, P e → P c → join e c = some e' → f e' = f e ++ f c)
    (he : P e) (hrest : ∀ c ∈ rest, P c) :
    (pass join e rest).flatMap f = f e ++ rest.flatMap f := by
  induction rest generalizing e with
  | nil => rw [pass, List.flatMap_singleton, List.flatMap_nil, List.append_nil]
  | cons c rest ih =>
      obtain ⟨hc, hrest⟩ := List.forall_mem_cons.mp hrest
      rw [List.flatMap_cons]
      cases h : join e c with
      | some e' =>
          rw [pass_some h, ih (hP he hc h) hrest, hf he hc h, List.append_assoc]
      | none => rw [pass_none h, List.flatMap_cons, ih hc hrest]

theorem flatMap_joined {P : α → Prop} {f : α → List β}
    (hP : ∀ {e c e'}, P e → P c → join e c = some e' → P e')
    (hf : ∀ {e c e'}, P e → P c → join e c = some e' → f e' = f e ++ f c)
    (hl : ∀ e ∈ l, P e) : (joined join l).flatMap f = l.flatMap f := by
  cases l with
  | nil => rfl
  | cons e rest =>
      obtain ⟨he, hrest⟩ := List.forall_mem_cons.mp hl
      exact flatMap_pass hP hf he hrest

/-! ## The fronts -/

section Front

variable {front : α → β} (hfront : ∀ {e c e'}, join e c = some e' → front e' = front e)

include hfront

theorem map_pass_sublist : ((pass join e rest).map front).Sublist ((e :: rest).map front) := by
  induction rest generalizing e with
  | nil => exact List.Sublist.refl _
  | cons c rest ih =>
      cases h : join e c with
      | some e' =>
          have hnext := ih (e := e')
          rw [List.map_cons, hfront h] at hnext
          rw [pass_some h]
          exact hnext.trans ((List.sublist_cons_self _ _).cons_cons _)
      | none =>
          rw [pass_none h]
          exact ih.cons_cons _

/-- The elements that stay are in the order in which they were. -/
theorem map_joined_sublist : ((joined join l).map front).Sublist (l.map front) := by
  cases l with
  | nil => exact List.Sublist.refl _
  | cons e rest => exact map_pass_sublist hfront

theorem pass_head (e : α) (rest : List α) :
    ∃ e' rest', pass join e rest = e' :: rest' ∧ front e' = front e := by
  induction rest generalizing e with
  | nil => exact ⟨e, [], rfl, rfl⟩
  | cons c rest ih =>
      cases h : join e c with
      | some e' =>
          obtain ⟨e'', rest', hpass, hfront'⟩ := ih e'
          exact ⟨e'', rest', (pass_some h).trans hpass, hfront'.trans (hfront h)⟩
      | none => exact ⟨e, pass join c rest, pass_none h, rfl⟩

variable (hjoin : ∀ {d e e'}, front e = front e' → join d e = none → join d e' = none)

include hjoin

/-- An element that is left never joins what is at hand, however much is joined to that
later. -/
theorem isChain_pass (e : α) (rest : List α) :
    (pass join e rest).IsChain fun d e => join d e = none := by
  induction rest generalizing e with
  | nil => exact List.isChain_singleton e
  | cons c rest ih =>
      cases h : join e c with
      | some e' =>
          rw [pass_some h]
          exact ih e'
      | none =>
          obtain ⟨c', rest', hpass, hc'⟩ := pass_head hfront c rest
          have hchain := ih c
          rw [hpass] at hchain
          rw [pass_none h, hpass]
          exact hchain.cons_cons (hjoin hc'.symm h)

theorem isChain_joined (l : List α) : (joined join l).IsChain fun d e => join d e = none := by
  cases l with
  | nil => exact List.isChain_nil
  | cons e rest => exact isChain_pass hfront hjoin e rest

end Front

/-! ## A second pass -/

theorem pass_of_isChain (h : (e :: rest).IsChain fun d e => join d e = none) :
    pass join e rest = e :: rest := by
  induction rest generalizing e with
  | nil => rfl
  | cons c rest ih =>
      obtain ⟨hnone, hchain⟩ := List.isChain_cons_cons.mp h
      rw [pass_none hnone, ih hchain]

theorem joined_of_isChain (h : l.IsChain fun d e => join d e = none) : joined join l = l := by
  cases l with
  | nil => rfl
  | cons e rest => exact pass_of_isChain h

end Cyanea.Math.Joining
