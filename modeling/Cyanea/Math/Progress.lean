/-
# Programs that make progress

`Keeps I ok Q f` is the postcondition of a program that starts where `I` holds: it returns
where `I` holds again, related by `Q` to where it started, or it stops with a fault that
`ok` allows. Two parts compose when their relations do. A loop whose turns take a measure
down, and that has more turns to go than the measure says, is not stopped by its bound.
-/

import Cyanea.Math.Run
import Cyanea.Math.Simulation

namespace Cyanea.Math.Simulation

variable {σ ε α β : Type}

/-- The program returns with `I` and `Q`, or stops as `ok` allows. -/
structure Keeps (I : σ → Prop) (ok : ε → Prop) (Q : α → σ → σ → Prop)
    (f : StateT σ (Except ε) α) : Prop where
  ends : ∀ d, I d → Ends (fun p => I p.2 ∧ Q p.1 d p.2) ok (f d)

variable {I : σ → Prop} {ok : ε → Prop} {f : StateT σ (Except ε) α} {Q : α → σ → σ → Prop}

/-- What a turn of a loop leaves behind: a smaller measure where there is another one. -/
def Nearer (μ : σ → ℕ) (R : σ → σ → Prop) (Q : β → σ → σ → Prop) :
    Turn α β → σ → σ → Prop
  | .again _, d, d' => R d d' ∧ μ d' < μ d
  | .leave b, d, d' => Q b d d'

namespace Keeps

theorem mono {Q' : α → σ → σ → Prop} (hf : Keeps I ok Q f)
    (h : ∀ a d d', Q a d d' → Q' a d d') : Keeps I ok Q' f :=
  ⟨fun d hd => (hf.ends d hd).mono (fun p hp => ⟨hp.1, h p.1 d p.2 hp.2⟩) fun _ he => he⟩

theorem pure {a : α} (h : ∀ d, Q a d d) : Keeps I ok Q (Pure.pure a) :=
  ⟨fun d hd => ⟨hd, h d⟩⟩

theorem throw {e : ε} (he : ok e) : Keeps I ok Q (MonadExcept.throw e) :=
  ⟨fun _ _ => he⟩

theorem bind {k : α → StateT σ (Except ε) β} {R : α → β → σ → σ → Prop}
    {S : β → σ → σ → Prop} (hf : Keeps I ok Q f) (hk : ∀ a, Keeps I ok (R a) (k a))
    (hcomp : ∀ a b d d' d'', Q a d d' → R a b d' d'' → S b d d'') :
    Keeps I ok S (f >>= k) := by
  constructor
  intro d hd
  apply (hf.ends d hd).bind
  rintro ⟨a, d'⟩ ⟨hd', hq⟩
  apply ((hk a).ends d' hd').mono
  · rintro ⟨b, d''⟩ ⟨hd'', hq'⟩
    exact ⟨hd'', hcomp a b d d' d'' hq hq'⟩
  · exact fun _ he => he

theorem ite {c : Prop} [Decidable c] {g : StateT σ (Except ε) α} (hf : Keeps I ok Q f)
    (hg : Keeps I ok Q g) : Keeps I ok Q (if c then f else g) := by
  split
  · exact hf
  · exact hg

/-- A computation that has no state to change. -/
theorem lift {x : Except ε α} (hx : Ends (fun _ => True) ok x) (h : ∀ a d, Q a d d) :
    Keeps I ok Q (liftM x) := by
  constructor
  intro d hd
  rw [liftM_apply]
  exact hx.bind fun a _ => ⟨hd, h a d⟩

theorem lift_bind {x : Except ε α} {k : α → StateT σ (Except ε) β} {d : σ}
    {good : β × σ → Prop} (hx : Ends (fun _ => True) ok x)
    (hk : ∀ a, Ends good ok (k a d)) :
    Ends good ok ((liftM x >>= k : StateT σ (Except ε) β) d) := by
  rw [bind_apply, liftM_apply]
  cases x with
  | ok a => exact hk a
  | error e => exact hx

/-- A program that looks at the state it starts in. -/
theorem get_bind {k : σ → StateT σ (Except ε) β} {Q' : β → σ → σ → Prop}
    (h : ∀ d, I d → Ends (fun p => I p.2 ∧ Q' p.1 d p.2) ok (k d d)) :
    Keeps I ok Q' (get >>= k) :=
  ⟨h⟩

/-- The rule for loops. -/
theorem iterate {stuck : ε} {body : α → StateT σ (Except ε) (Turn α β)} {μ : σ → ℕ}
    {R : σ → σ → Prop} {Q' : β → σ → σ → Prop}
    (hbody : ∀ a, Keeps I ok (Nearer μ R Q') (body a))
    (hcomp : ∀ b d d' d'', R d d' → Q' b d' d'' → Q' b d d'') (n : ℕ) (a : α) (d : σ)
    (hd : I d) (hn : μ d < n) :
    Ends (fun p => I p.2 ∧ Q' p.1 d p.2) ok (Simulation.iterate stuck body n a d) := by
  induction n generalizing a d with
  | zero => exact absurd hn (Nat.not_lt_zero _)
  | succ n ih =>
      rw [Simulation.iterate]
      apply ((hbody a).ends d hd).bind
      rintro ⟨t, d'⟩ ⟨hd', ht⟩
      cases t with
      | again a' =>
          obtain ⟨hr, hless⟩ : R d d' ∧ μ d' < μ d := ht
          apply (ih a' d' hd' (by omega)).mono
          · exact fun p hp => ⟨hp.1, hcomp p.1 d d' p.2 hr hp.2⟩
          · exact fun _ he => he
      | leave b => exact ⟨hd', ht⟩

end Keeps

/-- A fold whose steps stop only as `ok` allows. -/
theorem ends_foldlM {γ : Type} {f : α → γ → Except ε α} (xs : List γ)
    (hf : ∀ a, ∀ x ∈ xs, Ends (fun _ => True) ok (f a x)) (a : α) :
    Ends (fun _ => True) ok (xs.foldlM f a) := by
  induction xs generalizing a with
  | nil => trivial
  | cons x xs ih =>
      rw [List.foldlM_cons]
      apply (hf a x List.mem_cons_self).bind
      intro a' _
      exact ih (fun a y hy => hf a y (List.mem_cons_of_mem x hy)) a'

end Cyanea.Math.Simulation
