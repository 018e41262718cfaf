/-
# Computations that ask

A computation asks its environment questions and goes on with the answers. The environment
answers the `n`-th question as it likes, and a transcript records the questions with their
answers. `Converses` is the postcondition of such a computation: it relates the result to
what the computation adds to the transcript, whatever stood there before and whatever the
environment answers.
-/

import Mathlib.Data.List.Basic
import Mathlib.Data.Nat.Notation

namespace Cyanea.Math

universe u

variable {Q Q' A A' α β : Type u}

/-- The questions so far, with their answers. -/
abbrev Transcript (Q A : Type u) : Type u := List (Q × A)

/-- The answers from the `n`-th question on are those of the environment. -/
def AnsweredBy (env : ℕ → A) (n : ℕ) (t : Transcript Q A) : Prop :=
  ∀ i c, t[i]? = some c → c.2 = env (n + i)

theorem AnsweredBy.append {env : ℕ → A} {n : ℕ} {t more : Transcript Q A}
    (ht : AnsweredBy env n t) (hmore : AnsweredBy env (n + t.length) more) :
    AnsweredBy env n (t ++ more) := by
  intro i c hc
  by_cases hi : i < t.length
  · rw [List.getElem?_append_left hi] at hc
    exact ht i c hc
  · rw [List.getElem?_append_right (Nat.not_lt.mp hi)] at hc
    rw [hmore _ c hc]
    congr 1
    omega

/-- Whatever stands in the transcript, the computation adds to it what `post` says. -/
def Converses (env : ℕ → A) (post : α → Transcript Q A → Prop)
    (x : StateM (Transcript Q A) α) : Prop :=
  ∀ t, ∃ more, (x.run t).2 = t ++ more ∧ AnsweredBy env t.length more ∧ post (x.run t).1 more

namespace Converses

variable {env : ℕ → A} {post mid : α → Transcript Q A → Prop}

theorem pure {a : α} (h : post a []) : Converses env post (Pure.pure a) :=
  fun t => ⟨[], (List.append_nil t).symm, by simp [AnsweredBy], h⟩

theorem mono {x : StateM (Transcript Q A) α} (h : Converses env mid x)
    (hpost : ∀ a more, mid a more → post a more) : Converses env post x := by
  intro t
  obtain ⟨more, hrun, hanswered, hmid⟩ := h t
  exact ⟨more, hrun, hanswered, hpost _ _ hmid⟩

theorem bind {post : β → Transcript Q A → Prop} {x : StateM (Transcript Q A) α}
    {f : α → StateM (Transcript Q A) β} (h : Converses env mid x)
    (hnext : ∀ a more, mid a more → Converses env (fun b last => post b (more ++ last)) (f a)) :
    Converses env post (x >>= f) := by
  intro t
  obtain ⟨more, hrun, hanswered, hmid⟩ := h t
  obtain ⟨last, hrun', hanswered', hpost⟩ := hnext _ more hmid (t ++ more)
  rw [List.length_append] at hanswered'
  rw [← hrun] at hrun' hpost
  refine ⟨more ++ last, ?_, hanswered.append hanswered', hpost⟩
  rw [← List.append_assoc, ← hrun]
  exact hrun'

end Converses

/-- Ask a question. -/
def ask (env : ℕ → A) (q : Q) : StateM (Transcript Q A) A :=
  fun t => (env t.length, t ++ [(q, env t.length)])

theorem Converses.ask {env : ℕ → A} {q : Q} {post : A → Transcript Q A → Prop}
    (h : ∀ a, post a [(q, a)]) : Converses env post (ask env q) := by
  intro t
  refine ⟨[(q, env t.length)], rfl, ?_, h _⟩
  rintro (_ | i) c hc
  · obtain rfl : (q, env t.length) = c := by simpa using hc
    rfl
  · simp at hc

/-- After a question the answer may be anything. -/
theorem Converses.ask_bind {env : ℕ → A} {q : Q} {f : A → StateM (Transcript Q A) β}
    {post : β → Transcript Q A → Prop}
    (h : ∀ a, Converses env (fun b last => post b ((q, a) :: last)) (f a)) :
    Converses env post (Math.ask env q >>= f) := by
  have hasked : Converses env (fun a more => more = [(q, a)]) (Math.ask env q) := .ask fun _ => rfl
  refine hasked.bind ?_
  rintro a _ rfl
  exact h a

/-- Let a computation with questions and answers of its own take part: `call` says which
questions its own ones are, and `view` what it sees of the answers. -/
def embed (call : Q' → Q) (view : A → A') (env : ℕ → A)
    (x : (ℕ → A') → StateM (Transcript Q' A') α) : StateM (Transcript Q A) α :=
  fun t =>
    let r := (x fun i => view (env (t.length + i))).run []
    (r.1, t ++ r.2.mapIdx fun i c => (call c.1, env (t.length + i)))

theorem Converses.embed {call : Q' → Q} {view : A → A'} {env : ℕ → A}
    {x : (ℕ → A') → StateM (Transcript Q' A') α} {post : α → Transcript Q' A' → Prop}
    (h : ∀ env', Converses env' post (x env')) :
    Converses env (fun a more => ∃ inner, post a inner ∧
      more.map (fun c => (c.1, view c.2)) = inner.map fun c => (call c.1, c.2))
      (embed call view env x) := by
  intro t
  obtain ⟨inner, hrun, hanswered, hpost⟩ := h (fun i => view (env (t.length + i))) []
  rw [List.nil_append] at hrun
  refine ⟨inner.mapIdx fun i c => (call c.1, env (t.length + i)), ?_, ?_, inner, hpost, ?_⟩
  · rw [← hrun]
    rfl
  · intro i c hc
    rw [List.getElem?_mapIdx, Option.map_eq_some_iff] at hc
    obtain ⟨c', -, rfl⟩ := hc
    rfl
  · apply List.ext_getElem?
    intro i
    rw [List.getElem?_map, List.getElem?_map, List.getElem?_mapIdx, Option.map_map]
    cases hc : inner[i]? with
    | none => rfl
    | some c =>
        have hanswer := hanswered i c hc
        rw [List.length_nil, Nat.zero_add] at hanswer
        simp [hanswer]

end Cyanea.Math
