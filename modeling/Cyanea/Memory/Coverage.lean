/-
# Removed memory stays removed

An address is covered by a live region exactly if some addition of it is more
recent than its last successful removal. The history of a run records each
request with its reply.
-/

import Cyanea.Memory.Invariant

namespace Cyanea.Memory

open Cyanea.Math Cyanea.Math.Segments

/-- A request that was made, and the reply to it. -/
abbrev Event := Request × Reply

/-- The address lies in the range of `size` bytes at `base`. -/
def InRange (base size : UInt64) (a : ℕ) : Prop :=
  base.toNat ≤ a ∧ a < base.toNat + size.toNat

/-- The event is an addition of a range with the address. -/
def AddsAt (a : ℕ) (event : Event) : Prop :=
  match event.1.2 with
  | .add base size _ _ => InRange base size a
  | _ => False

/-- The event is a successful removal of a range with the address. -/
def RemovesAt (a : ℕ) (event : Event) : Prop :=
  match event.1.2 with
  | .remove base size => InRange base size a ∧ event.2 = .status SUCCESS
  | _ => False

/-- An addition of the address is more recent than its last successful removal. -/
def AddedSince (a : ℕ) (history : List Event) : Prop :=
  ∃ before event after, history = before ++ event :: after ∧ AddsAt a event ∧
    ∀ later ∈ after, ¬ RemovesAt a later

theorem not_addedSince_nil (a : ℕ) : ¬ AddedSince a [] := by
  rintro ⟨before, event, after, heq, -⟩
  simp at heq

theorem addedSince_concat {a : ℕ} {history : List Event} {event : Event} :
    AddedSince a (history ++ [event]) ↔
      AddsAt a event ∨ ¬ RemovesAt a event ∧ AddedSince a history := by
  constructor
  · rintro ⟨before, added, after, heq, hadds, hlater⟩
    rcases List.eq_nil_or_concat after with rfl | ⟨after, last, rfl⟩
    · left
      obtain ⟨-, heq⟩ := List.append_inj' heq rfl
      obtain rfl := List.singleton_inj.mp heq
      exact hadds
    · right
      rw [List.concat_eq_append, ← List.cons_append, ← List.append_assoc] at heq
      obtain ⟨hfront, hlast⟩ := List.append_inj' heq rfl
      obtain rfl := List.singleton_inj.mp hlast
      exact ⟨hlater _ (by simp), before, added, after, hfront, hadds,
        fun later h => hlater later (by simp [h])⟩
  · rintro (hadds | ⟨hremoves, before, added, after, rfl, hadds, hlater⟩)
    · exact ⟨history, event, [], rfl, hadds, by simp⟩
    · refine ⟨before, added, after ++ [event], by simp, hadds, fun later h => ?_⟩
      rcases List.mem_append.mp h with h | h
      · exact hlater later h
      · rwa [List.mem_singleton.mp h]

/-- What an effect does to the set of mapped addresses. -/
theorem Effect.isSome_iff {f f' : MemoryMap} {request : Request} {r : Reply}
    (h : Effect f f' request.2 r) (a : ℕ) :
    (f' a).isSome ↔
      AddsAt a (request, r) ∨ ¬ RemovesAt a (request, r) ∧ (f a).isSome := by
  obtain ⟨behind, call⟩ := request
  have hchange : ∀ b e g, (MemoryMap.change b e g f a).isSome ↔ (f a).isSome := by
    intro b e g
    rw [MemoryMap.change]
    split <;> simp
  cases call with
  | add base size nid flags =>
      obtain ⟨-, rfl⟩ := h
      simp only [MemoryMap.add, AddsAt, RemovesAt, InRange, Option.isSome_or, Bool.or_eq_true,
        not_false_eq_true, true_and]
      by_cases hin : base.toNat ≤ a ∧ a < base.toNat + size.toNat
      · simp [hin]
      · simp [hin]
  | remove base size =>
      simp only [AddsAt, RemovesAt, InRange, false_or]
      obtain ⟨rfl, rfl⟩ | ⟨rfl, rfl⟩ := h
      · simp [SUCCESS, ENOSPC]
      · simp only [MemoryMap.remove, and_true]
        by_cases hin : base.toNat ≤ a ∧ a < base.toNat + size.toNat
        · simp [hin]
        · simp [hin]
  | setclrFlag base size set flags =>
      simp only [AddsAt, RemovesAt, false_or, not_false_eq_true, true_and]
      obtain ⟨-, rfl⟩ | ⟨-, rfl⟩ := h
      · rfl
      · exact hchange _ _ _
  | setNode base size nid =>
      simp only [AddsAt, RemovesAt, false_or, not_false_eq_true, true_and]
      obtain ⟨-, rfl⟩ | ⟨-, rfl⟩ := h
      · rfl
      · exact hchange _ _ _
  | reserve base size =>
      simp only [AddsAt, RemovesAt, false_or, not_false_eq_true, true_and]
      obtain ⟨-, rfl⟩ | ⟨-, rfl⟩ := h
      · rfl
      · exact hchange _ _ _
  | alloc size align start rangeEnd nid exactNid =>
      simp only [AddsAt, RemovesAt, false_or, not_false_eq_true, true_and]
      obtain ⟨-, rfl⟩ | ⟨paddr, -, -, rfl⟩ := h
      · rfl
      · exact hchange _ _ _
  | free base size =>
      simp only [AddsAt, RemovesAt, false_or, not_false_eq_true, true_and]
      obtain ⟨-, rfl | rfl⟩ := h
      · rfl
      · exact hchange _ _ _

/-- The table is well formed, and covers what the history says. -/
def Covered (history : List Event) (m : Memblock) : Prop :=
  Within NR_REGIONS m ∧ ∃ segs, Holds m segs ∧
    ∀ a, (lookup segs a).isSome ↔ AddedSince a history

theorem covered_step {history : List Event} {m : Memblock} {request : Request}
    (h : Covered history m) (hbounded : request.2.Bounded)
    (hclear : Clear request.1 m request.2) :
    Ends (fun next => Covered (history ++ [(request, next.2)]) next.1)
      (fun f => f = .outOfSpace) (stepRequest m request) := by
  obtain ⟨hwithin, segs, ⟨hproper, hmerged, slots, drift, rfl⟩, hadded⟩ := h
  have hexact := step_endsIff request.1 (by decide) _ request.2 hwithin
  rw [stepRequest]
  cases hstep : step request.1 (table (segs.map toRegion) slots drift) request.2 with
  | error f =>
      rw [hstep] at hexact
      exact hexact.mpr hclear
  | ok next =>
      rw [hstep] at hexact
      obtain ⟨segs', hholds, -, heffect⟩ := step_refines hproper hmerged hbounded hstep
      refine ⟨hexact.2, segs', hholds, fun a => ?_⟩
      rw [heffect.isSome_iff, addedSince_concat, hadded]

/-- In a run where no scan of `merge_regions` ends at a missing or matching slot, memory
is covered exactly if it was added since it was last removed. -/
theorem covered_iff_addedSince {requests : List Request}
    (hclear : Along stepRequest
      (fun m request => request.2.Bounded ∧ Clear request.1 m request.2) memory requests) :
    Ends
      (fun next => ∀ a, (∃ r ∈ next.1.live, r.Covers a) ↔ AddedSince a next.2)
      (fun f => f = .outOfSpace) (run stepRequest memory requests) := by
  have hstart : Covered [] memory := by
    refine ⟨within_memory, [], ⟨proper_nil, .nil, _, _, memory_eq_table⟩, fun a => ?_⟩
    exact iff_of_false (by simp) (not_addedSince_nil a)
  have hrun := run_ends (fun history m request h hP => covered_step h hP.1 hP.2) hstart hclear
  refine hrun.mono ?_ fun _ h => h
  rintro ⟨m, history⟩ ⟨-, segs, hholds, hadded⟩ a
  rw [← tagAt_isSome_iff, hholds.tagAt_eq]
  exact hadded a

/-- Of three regions two are removed, and a part of the gap is added again. -/
def removeAndAdd : List Request :=
  [(none, .add 0 10 0 MEMBLOCK_NONE), (none, .add 20 10 0 MEMBLOCK_NONE),
    (none, .add 40 10 0 MEMBLOCK_NONE), (none, .remove 20 30), (none, .add 30 9 0 MEMBLOCK_NONE)]

theorem covered_removeAndAdd :
    Ends (fun next => ∀ a, (∃ r ∈ next.1.live, r.Covers a) ↔ AddedSince a next.2)
      (fun f => f = .outOfSpace) (run stepRequest memory removeAndAdd) := by
  have hrun : (run stepRequest memory removeAndAdd).isOk = true := by decide +kernel
  have hbounded : ∀ request ∈ removeAndAdd, request.2.Bounded := by decide
  have halong : Along stepRequest
      (fun m request => request.2.Bounded ∧ Clear request.1 m request.2) memory removeAndAdd :=
    (along_clear_of_run within_memory hrun).mono
      fun _ request hrequest hclear => ⟨hbounded request hrequest, hclear⟩
  with_reducible exact covered_iff_addedSince halong

/-- The additions around a removal do not return: the last one merges with the entry
that was removed. -/
theorem not_covered_staleAdds :
    ¬ Ends (fun next => ∀ a, (∃ r ∈ next.1.live, r.Covers a) ↔ AddedSince a next.2)
      (fun f => f = .outOfSpace)
      (run stepRequest memory (staleAdds.map (Prod.mk (none : Option MemblockRegion)))) := by
  have hrun : run stepRequest memory (staleAdds.map (Prod.mk (none : Option MemblockRegion))) =
      .error .negativeCount := by
    decide +kernel
  rw [hrun]
  exact Fault.noConfusion

end Cyanea.Memory
