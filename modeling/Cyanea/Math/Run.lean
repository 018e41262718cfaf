/-
# Runs of a machine that answers requests

A machine takes a request in a state and either answers, moving to a new state,
or stops with a fault. `Ends` is the postcondition of such a step, with one
condition for each exit. `run` feeds the machine a list of requests and records
the answers; `run_ends` is the invariant rule for it. The invariant may mention
the recorded history, and each step may rely on a condition on the state it
starts from.
-/

import Mathlib.Data.List.FinRange
import Mathlib.Data.Nat.Notation

namespace Cyanea.Math

universe us uo ur uf ua

variable {S : Type us} {O : Type uo} {R : Type ur} {F : Type uf}
variable {α : Type ua} {β : Type ua}

/-- A computation that returns meets `good`, one that stops meets `bad`. -/
def Ends (good : α → Prop) (bad : F → Prop) : Except F α → Prop
  | .ok a => good a
  | .error f => bad f

@[simp]
theorem ends_ok {good : α → Prop} {bad : F → Prop} {a : α} :
    Ends good bad (.ok a) ↔ good a := Iff.rfl

@[simp]
theorem ends_error {good : α → Prop} {bad : F → Prop} {f : F} :
    Ends good bad (.error f) ↔ bad f := Iff.rfl

theorem Ends.mono {good good' : α → Prop} {bad bad' : F → Prop} {x : Except F α}
    (h : Ends good bad x) (hgood : ∀ a, good a → good' a)
    (hbad : ∀ f, bad f → bad' f) : Ends good' bad' x := by
  cases x with
  | ok a => exact hgood a h
  | error f => exact hbad f h

/-- A sequence meets a postcondition if its second part does whenever the first
part returns. -/
theorem Ends.bind {good : α → Prop} {bad : F → Prop} {post : β → Prop}
    {x : Except F α} {next : α → Except F β} (h : Ends good bad x)
    (hnext : ∀ a, good a → Ends post bad (next a)) : Ends post bad (x >>= next) := by
  cases x with
  | ok a => exact hnext a h
  | error f => exact h

/-- A result that is only wrapped up meets what the wrapped value meets. -/
theorem Ends.map {good : α → Prop} {bad : F → Prop} {post : β → Prop} {x : Except F α}
    (h : Ends good bad x) {g : α → β} (hg : ∀ a, good a → post (g a)) :
    Ends post bad (x >>= fun a => pure (g a)) :=
  h.bind hg

/-- The computation returns, with `good`, only if `P`; and if it stops, it stops as
`bad` says exactly if `P`. -/
def EndsIff (P : Prop) (good : α → Prop) (bad : F → Prop) (x : Except F α) : Prop :=
  Ends (fun a => P ∧ good a) (fun f => bad f ↔ P) x

theorem EndsIff.map {P : Prop} {good : α → Prop} {bad : F → Prop} {post : β → Prop}
    {x : Except F α} (h : EndsIff P good bad x) {g : α → β}
    (hg : ∀ a, good a → post (g a)) : EndsIff P post bad (x >>= fun a => pure (g a)) :=
  Ends.map h fun a ha => ⟨ha.1, hg a ha.2⟩

theorem EndsIff.congr {P Q : Prop} {good : α → Prop} {bad : F → Prop} {x : Except F α}
    (h : EndsIff P good bad x) (hPQ : P ↔ Q) : EndsIff Q good bad x := by
  rwa [← hPQ]

/-- A sequence returns if both parts do. -/
theorem bind_eq_ok {x : Except F α} {f : α → Except F β} {b : β} :
    (x >>= f) = .ok b ↔ ∃ a, x = .ok a ∧ f a = .ok b := by
  cases x with
  | ok a =>
      constructor
      · exact fun h => ⟨a, rfl, h⟩
      · rintro ⟨_, ⟨⟩, h⟩
        exact h
  | error e =>
      constructor
      · intro h
        have hno : Except.error e = Except.ok b := h
        cases hno
      · rintro ⟨_, ⟨⟩, -⟩

/-- A counted loop whose body returns and moves the invariant on by one. -/
theorem foldlM_range {I : ℕ → α → Prop} {f : α → ℕ → Except F α} {a : α} {n : ℕ}
    (h0 : I 0 a)
    (hstep : ∀ i a, i < n → I i a → ∃ a', f a i = .ok a' ∧ I (i + 1) a') :
    ∃ a', (List.range n).foldlM f a = .ok a' ∧ I n a' := by
  induction n with
  | zero => exact ⟨a, rfl, h0⟩
  | succ n ih =>
      obtain ⟨b, hb, hIb⟩ := ih fun i a hi => hstep i a (Nat.lt_succ_of_lt hi)
      obtain ⟨c, hc, hIc⟩ := hstep n b (Nat.lt_succ_self n) hIb
      refine ⟨c, ?_, hIc⟩
      rw [List.range_succ, List.foldlM_append, hb]
      show (f b n >>= fun a => pure a) = _
      rw [hc]
      rfl

/-- Two bodies that do the same where the loop comes by. -/
theorem foldlM_range_congr {I : ℕ → α → Prop} {f g : α → ℕ → Except F α} {a : α} {n : ℕ}
    (h0 : I 0 a) (hsame : ∀ i a, i < n → I i a → f a i = g a i)
    (hkeep : ∀ i a a', i < n → I i a → g a i = .ok a' → I (i + 1) a') :
    (List.range n).foldlM f a = (List.range n).foldlM g a ∧
      ∀ a', (List.range n).foldlM g a = .ok a' → I n a' := by
  induction n with
  | zero =>
      refine ⟨rfl, fun a' ha' => ?_⟩
      obtain rfl := Except.ok.inj ha'
      exact h0
  | succ n ih =>
      obtain ⟨heq, hI⟩ := ih (fun i a hi => hsame i a (Nat.lt_succ_of_lt hi))
        fun i a a' hi => hkeep i a a' (Nat.lt_succ_of_lt hi)
      rw [List.range_succ, List.foldlM_append, List.foldlM_append, heq]
      cases hrun : (List.range n).foldlM g a with
      | error e =>
          refine ⟨rfl, fun a' ha' => ?_⟩
          have hno : Except.error e = Except.ok a' := ha'
          cases hno
      | ok b =>
          have hb := hI b hrun
          have hlast := hsame n b (Nat.lt_succ_self n) hb
          show (f b n >>= fun a => pure a) = (g b n >>= fun a => pure a) ∧
            ∀ a', (g b n >>= fun a => pure a) = .ok a' → _
          rw [hlast, bind_pure]
          exact ⟨rfl, fun a' ha' => hkeep n b a' (Nat.lt_succ_self n) hb ha'⟩

/-- The same for a loop over the elements of `Fin n`. -/
theorem foldlM_finRange {n : ℕ} {I : ℕ → α → Prop} {f : α → Fin n → Except F α} {a : α}
    (h0 : I 0 a) (hstep : ∀ (i : Fin n) a, I i a → ∃ a', f a i = .ok a' ∧ I (i + 1) a') :
    ∃ a', (List.finRange n).foldlM f a = .ok a' ∧ I n a' := by
  induction n with
  | zero => exact ⟨a, rfl, h0⟩
  | succ n ih =>
      obtain ⟨b, hb, hIb⟩ := ih (f := fun a i => f a i.castSucc) fun i => hstep i.castSucc
      obtain ⟨c, hc, hIc⟩ := hstep (Fin.last n) b hIb
      refine ⟨c, ?_, hIc⟩
      rw [List.finRange_succ_last, List.foldlM_append, List.foldlM_map, hb]
      show (f b (Fin.last n) >>= fun a => pure a) = _
      rw [hc]
      rfl

/-- Feed a list of requests to the machine, recording each with its answer. -/
def run (step : S → O → Except F (S × R)) : S → List O → Except F (S × List (O × R))
  | s, [] => .ok (s, [])
  | s, o :: os =>
      match step s o with
      | .error f => .error f
      | .ok (s', r) =>
          match run step s' os with
          | .error f => .error f
          | .ok (s'', history) => .ok (s'', (o, r) :: history)

/-- Every request of the list finds the machine in a state that meets `P`. -/
def Along (step : S → O → Except F (S × R)) (P : S → O → Prop) : S → List O → Prop
  | _, [] => True
  | s, o :: os => P s o ∧ ∀ s' r, step s o = .ok (s', r) → Along step P s' os

theorem Along.mono {step : S → O → Except F (S × R)} {P Q : S → O → Prop} {s : S} {os : List O}
    (h : Along step P s os) (himp : ∀ s, ∀ o ∈ os, P s o → Q s o) : Along step Q s os := by
  induction os generalizing s with
  | nil => trivial
  | cons o os ih =>
      obtain ⟨hP, hrest⟩ := h
      exact ⟨himp s o List.mem_cons_self hP, fun s' r hstep =>
        ih (hrest s' r hstep) fun s o ho => himp s o (List.mem_cons_of_mem _ ho)⟩

/-- What one step preserves, a run preserves. -/
theorem run_ends {step : S → O → Except F (S × R)} {P : S → O → Prop}
    {I : List (O × R) → S → Prop} {bad : F → Prop}
    (hstep : ∀ history s o, I history s → P s o →
      Ends (fun next => I (history ++ [(o, next.2)]) next.1) bad (step s o))
    {history : List (O × R)} {s : S} (hI : I history s) {os : List O}
    (halong : Along step P s os) :
    Ends (fun next => I (history ++ next.2) next.1) bad (run step s os) := by
  induction os generalizing history s with
  | nil => simpa [run] using hI
  | cons o os ih =>
      obtain ⟨hP, hrest⟩ := halong
      have hone := hstep history s o hI hP
      rw [run]
      cases hso : step s o with
      | error f =>
          rw [hso] at hone
          exact hone
      | ok next =>
          rw [hso] at hone
          have hmany := ih hone (hrest next.1 next.2 hso)
          dsimp only
          cases hrun : run step next.1 os with
          | error f =>
              rw [hrun] at hmany
              exact hmany
          | ok last =>
              rw [hrun] at hmany
              simpa using hmany

/-- Every state of the run meets `I`, and if it stops early it stops as `bad` says. -/
def Always (step : S → O → Except F (S × R)) (I : S → Prop) (bad : F → Prop) :
    S → List O → Prop
  | s, [] => I s
  | s, o :: os => I s ∧ Ends (fun next => Always step I bad next.1 os) bad (step s o)

/-- A property of every state is one of the last. -/
theorem Always.ends_run {step : S → O → Except F (S × R)} {I : S → Prop} {bad : F → Prop}
    {s : S} {os : List O} (h : Always step I bad s os) :
    Ends (fun next => I next.1) bad (run step s os) := by
  induction os generalizing s with
  | nil => exact h
  | cons o os ih =>
      have hone := h.2
      rw [run]
      cases hso : step s o with
      | error f =>
          rw [hso] at hone
          exact hone
      | ok next =>
          rw [hso] at hone
          have hmany := ih hone
          dsimp only
          cases hrun : run step next.1 os with
          | error f =>
              rw [hrun] at hmany
              exact hmany
          | ok last =>
              rw [hrun] at hmany
              exact hmany

/-- A run that stops in another way refutes the property. -/
theorem not_always_of_run {step : S → O → Except F (S × R)} {I : S → Prop} {bad : F → Prop}
    {s : S} {os : List O} {f : F} (hrun : run step s os = .error f) (hf : ¬ bad f) :
    ¬ Always step I bad s os := by
  intro h
  have hend := h.ends_run
  rw [hrun] at hend
  exact hf hend

theorem always_map {T : Type uo} (f : T → O) {step : S → O → Except F (S × R)}
    {I : S → Prop} {bad : F → Prop} {s : S} {os : List T} :
    Always step I bad s (os.map f) ↔ Always (fun s o => step s (f o)) I bad s os := by
  induction os generalizing s with
  | nil => rfl
  | cons o os ih =>
      rw [List.map_cons, Always, Always]
      cases step s (f o) with
      | error f => rfl
      | ok next => rw [ends_ok, ends_ok, ih]

/-- If `P` is exactly what a step from a state in `J` needs, then it is exactly what a
run needs along its way. -/
theorem always_iff_along {step : S → O → Except F (S × R)} {P : S → O → Prop}
    {I J : S → Prop} {bad : F → Prop} (hJI : ∀ s, J s → I s) {os : List O}
    (hstep : ∀ s, ∀ o ∈ os, J s → EndsIff (P s o) (fun next => J next.1) bad (step s o))
    {s : S} (hJ : J s) : Always step I bad s os ↔ Along step P s os := by
  induction os generalizing s with
  | nil => exact iff_of_true (hJI s hJ) trivial
  | cons o os ih =>
      have hone := hstep s o (by simp) hJ
      have hrec := fun s' => @ih (fun t p hp => hstep t p (by simp [hp])) s'
      rw [Always, Along, and_iff_right (hJI s hJ)]
      cases hso : step s o with
      | error f =>
          rw [hso] at hone
          exact hone.trans (by simp)
      | ok next =>
          rw [hso] at hone
          obtain ⟨hP, hnext⟩ := hone
          rw [ends_ok, hrec next.1 hnext, and_iff_right hP]
          constructor
          · rintro h s' r heq
            obtain rfl := Except.ok.inj heq
            exact h
          · intro h
            exact h next.1 next.2 rfl

end Cyanea.Math
