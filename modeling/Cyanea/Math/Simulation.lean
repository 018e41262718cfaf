/-
# Simulating a reader that stops by a program that carries on

A C routine that meets bad input often raises a flag and goes on doing nothing until
somebody looks at the flag. A description of the format stops at once. The two are
compared here by a relational triple: `Sim M f g N P` starts the program `f` and the
reader `g` in states related by `M`, and leaves them related by `N` when the reader
returns, or leaves the program idle with a result in `P` when the reader rejects its
input. A reader may also be lost, where the program runs into undefined behaviour, and
the program may run out of room before the reader ends.
-/

import Mathlib.Order.Basic

namespace Cyanea.Math.Simulation

/-- What one turn of a loop decides: to go round again, or to leave. -/
inductive Turn (α β : Type) where
  | again (a : α)
  | leave (b : β)

/-- How a reader ends: with a value, by refusing its input, or with no meaning left. -/
inductive Result (ρ β : Type) where
  | ok (b : β) (r : ρ)
  | rejected (r : ρ)
  | lost (r : ρ)
  deriving DecidableEq

variable {σ ρ ε α β γ δ : Type}

/-- The state a reader ends in, however it ends. -/
def Result.state : Result ρ β → ρ
  | .ok _ r => r
  | .rejected r => r
  | .lost r => r

/-- Go on with `f` where a value was returned. -/
def Result.bind : Result ρ β → (β → ρ → Result ρ γ) → Result ρ γ
  | .ok b r, f => f b r
  | .rejected r, _ => .rejected r
  | .lost r, _ => .lost r

section Reader

variable [Preorder ρ]

/-- A computation that only ever moves its state up. -/
structure Reader (ρ : Type) [Preorder ρ] (β : Type) where
  /-- The computation itself. -/
  run : ρ → Result ρ β
  /-- However it ends, it ends above the state it started from. -/
  le_run : ∀ r, r ≤ (run r).state

instance : Monad (Reader ρ) where
  pure b := ⟨fun r => .ok b r, fun _ => le_rfl⟩
  bind x f := ⟨fun r => (x.run r).bind fun b r => (f b).run r, by
    intro r
    have hx := x.le_run r
    cases h : x.run r with
    | ok b r' =>
        rw [h] at hx
        exact le_trans hx ((f b).le_run r')
    | rejected r' => rwa [h] at hx
    | lost r' => rwa [h] at hx⟩

@[simp] theorem run_pure (b : β) (r : ρ) : (pure b : Reader ρ β).run r = .ok b r := rfl

@[simp] theorem run_bind (x : Reader ρ β) (f : β → Reader ρ γ) (r : ρ) :
    (x >>= f).run r = (x.run r).bind fun b r => (f b).run r := rfl

/-- Refuse the input. -/
def Reader.reject : Reader ρ β :=
  ⟨fun r => .rejected r, fun _ => le_rfl⟩

/-- Take turns until one leaves, and refuse the input after `n` of them. -/
def Reader.iterate (body : γ → Reader ρ (Turn γ β)) : ℕ → γ → Reader ρ β
  | 0, _ => .reject
  | n + 1, c => do
      match ← body c with
      | .again c => Reader.iterate body n c
      | .leave b => pure b

/-- Take as many turns as the measure of the starting state allows. -/
def Reader.iterateWithin (μ : ρ → ℕ) (body : γ → Reader ρ (Turn γ β)) (c : γ) :
    Reader ρ β :=
  ⟨fun r => (Reader.iterate body (μ r + 1) c).run r, fun r => Reader.le_run _ r⟩

namespace Reader

theorem bind_eq_ok {x : Reader ρ β} {f : β → Reader ρ γ} {r r' : ρ} {c : γ} :
    (x >>= f).run r = .ok c r' ↔ ∃ b r₁, x.run r = .ok b r₁ ∧ (f b).run r₁ = .ok c r' := by
  rw [run_bind]
  cases x.run r with
  | ok b r₁ =>
      constructor
      · exact fun h => ⟨b, r₁, rfl, h⟩
      · rintro ⟨_, _, ⟨⟩, h⟩
        exact h
  | rejected r₁ => simp [Result.bind]
  | lost r₁ => simp [Result.bind]

variable {body : γ → Reader ρ (Turn γ β)} {c c' : γ} {r r' r'' : ρ} {b : β}

/-- More turns change nothing for a loop that has ended. -/
theorem iterate_mono {n m : ℕ} (hnm : n ≤ m) (h : (iterate body n c).run r = .ok b r') :
    (iterate body m c).run r = .ok b r' := by
  induction n generalizing m c r with
  | zero => cases h
  | succ n ih =>
      obtain ⟨m, rfl⟩ : ∃ k, m = k + 1 := ⟨m - 1, by omega⟩
      rw [iterate, bind_eq_ok] at h ⊢
      obtain ⟨t, r₁, ht, hrest⟩ := h
      refine ⟨t, r₁, ht, ?_⟩
      cases t with
      | again c' => exact ih (Nat.le_of_succ_le_succ hnm) hrest
      | leave b' => exact hrest

variable {μ : ρ → ℕ}

theorem iterateWithin_leave (h : (body c).run r = .ok (.leave b) r') :
    (iterateWithin μ body c).run r = .ok b r' := by
  show (iterate body (μ r + 1) c).run r = _
  rw [iterate, bind_eq_ok]
  exact ⟨.leave b, r', h, rfl⟩

theorem iterateWithin_again (h : (body c).run r = .ok (.again c') r') (hμ : μ r' < μ r)
    (hrest : (iterateWithin μ body c').run r' = .ok b r'') :
    (iterateWithin μ body c).run r = .ok b r'' := by
  show (iterate body (μ r + 1) c).run r = _
  rw [iterate, bind_eq_ok]
  exact ⟨.again c', r', h, iterate_mono hμ hrest⟩

/-- What holds of the last turn and is kept by taking one more before it holds of the
loop. -/
theorem iterateWithin_induction {P : γ → ρ → β → ρ → Prop}
    (hleave : ∀ c r b r', (body c).run r = .ok (.leave b) r' → P c r b r')
    (hagain : ∀ c c' r r' b r'', (body c).run r = .ok (.again c') r' → r' ≤ r'' →
      P c' r' b r'' → P c r b r'')
    (h : (iterateWithin μ body c).run r = .ok b r') : P c r b r' := by
  have h' : (iterate body (μ r + 1) c).run r = .ok b r' := h
  generalize μ r + 1 = n at h'
  clear h
  induction n generalizing c r with
  | zero => cases h'
  | succ n ih =>
      rw [iterate, bind_eq_ok] at h'
      obtain ⟨t, r₁, ht, hrest⟩ := h'
      cases t with
      | again c' =>
          have hle := (iterate body n c').le_run r₁
          rw [hrest] at hle
          exact hagain c c' r r₁ b r' ht hle (ih hrest)
      | leave b' =>
          obtain ⟨rfl, rfl⟩ : b' = b ∧ r₁ = r' := by simpa using hrest
          exact hleave c r b' r₁ ht

end Reader

end Reader

/-- The loop of a program: take turns until one leaves. The number of turns is bounded
only to make this a definition; running out of them is the fault `stuck`. -/
def iterate (stuck : ε) (body : α → StateT σ (Except ε) (Turn α β)) :
    ℕ → α → StateT σ (Except ε) β
  | 0, _ => fun _ => .error stuck
  | n + 1, a => do
      match ← body a with
      | .again a => iterate stuck body n a
      | .leave b => pure b

/-! ## Running a program -/

section Run

variable (d : σ) (e : ε) (a : α)

@[simp] theorem pure_apply : (pure a : StateT σ (Except ε) α) d = .ok (a, d) := rfl

@[simp] theorem bind_apply (f : StateT σ (Except ε) α) (k : α → StateT σ (Except ε) β) :
    (f >>= k) d = (f d >>= fun p => k p.1 p.2) := rfl

@[simp] theorem map_apply (f : StateT σ (Except ε) α) (g : α → β) :
    (g <$> f) d = (f d >>= fun p => .ok (g p.1, p.2)) := rfl

@[simp] theorem if_apply (c : Prop) [Decidable c] (f g : StateT σ (Except ε) α) :
    (if c then f else g) d = if c then f d else g d := by
  split <;> rfl

@[simp] theorem get_apply : (get : StateT σ (Except ε) σ) d = .ok (d, d) := rfl

@[simp] theorem set_apply (d' : σ) :
    (set d' : StateT σ (Except ε) PUnit) d = .ok (⟨⟩, d') := rfl

@[simp] theorem modify_apply (g : σ → σ) :
    (modify g : StateT σ (Except ε) PUnit) d = .ok (⟨⟩, g d) := rfl

@[simp] theorem throw_apply : (throw e : StateT σ (Except ε) α) d = .error e := rfl

@[simp] theorem liftM_apply (x : Except ε α) :
    (liftM x : StateT σ (Except ε) α) d = x >>= fun a => .ok (a, d) := rfl

@[simp] theorem ok_bind (k : α → Except ε β) : (Except.ok a >>= k) = k a := rfl

@[simp] theorem error_bind (k : α → Except ε β) :
    (Except.error e >>= k) = .error e := rfl

variable {d a e}

theorem lift_bind {x : Except ε α} {k : α → StateT σ (Except ε) β} (h : x = .ok a) :
    ((liftM x : StateT σ (Except ε) α) >>= k) = k a := by
  subst h
  rfl

theorem lift_error_bind {x : Except ε α} {k : α → StateT σ (Except ε) β}
    (h : x = .error e) : ((liftM x : StateT σ (Except ε) α) >>= k) d = .error e := by
  subst h
  rfl

/-- A sequence that returns has gone through its first part. -/
theorem bind_apply_eq_ok {f : StateT σ (Except ε) α} {k : α → StateT σ (Except ε) β} {b : β}
    {d d'' : σ} :
    (f >>= k) d = .ok (b, d'') ↔ ∃ a d', f d = .ok (a, d') ∧ k a d' = .ok (b, d'') := by
  rw [bind_apply]
  cases f d with
  | ok p =>
      constructor
      · exact fun h => ⟨p.1, p.2, rfl, h⟩
      · rintro ⟨_, _, ⟨⟩, h⟩
        exact h
  | error e => exact ⟨nofun, nofun⟩

variable {stuck : ε} {body : α → StateT σ (Except ε) (Turn α β)} {n : ℕ}

theorem iterate_again {a' : α} {d' : σ} (h : body a d = .ok (.again a', d')) :
    iterate stuck body (n + 1) a d = iterate stuck body n a' d' := by
  rw [iterate, bind_apply, h]
  rfl

theorem iterate_leave {b : β} {d' : σ} (h : body a d = .ok (.leave b, d')) :
    iterate stuck body (n + 1) a d = .ok (b, d') := by
  rw [iterate, bind_apply, h]
  rfl

theorem iterate_error (h : body a d = .error e) :
    iterate stuck body (n + 1) a d = .error e := by
  rw [iterate, bind_apply, h]
  rfl

end Run

/-- What the two sides of a simulation are compared by. -/
structure Setting (σ ρ ε : Type) [Preorder ρ] where
  /-- The program's flag is up: it does nothing more. -/
  idle : σ → Prop
  /-- There was room for everything up to here. -/
  fits : ρ → Prop
  /-- Room for more is room for less. -/
  fits_of_le : ∀ {r r'}, r ≤ r' → fits r' → fits r
  /-- The fault of running out of room. -/
  overflow : ε
  /-- The faults that are undefined behaviour. -/
  undefined : ε → Prop

variable [Preorder ρ] (S : Setting σ ρ ε)

/-- One outcome of the program against one outcome of the reader. -/
def Agrees (c : Except ε (α × σ)) (s : Result ρ β) (N : α → β → σ → ρ → Prop)
    (P : α → Prop) : Prop :=
  (¬ S.fits s.state → c = .error S.overflow) ∧
    (S.fits s.state → match s with
      | .ok b r => ∃ a d, c = .ok (a, d) ∧ N a b d r
      | .rejected _ => ∃ a d, c = .ok (a, d) ∧ S.idle d ∧ P a
      | .lost _ => ∃ e, c = .error e ∧ S.undefined e)

/-- The program `f` simulates the reader `g` from the states that `M` relates. -/
def Sim (M : σ → ρ → Prop) (f : StateT σ (Except ε) α) (g : Reader ρ β)
    (N : α → β → σ → ρ → Prop) (P : α → Prop) : Prop :=
  ∀ d r, M d r → S.fits r → Agrees S (f d) (g.run r) N P

/-- With its flag up, the program returns something in `P` and stays as it is. -/
def Idle (f : StateT σ (Except ε) α) (P : α → Prop) : Prop :=
  ∀ d, S.idle d → ∃ a, f d = .ok (a, d) ∧ P a

variable {S} {M M' : σ → ρ → Prop} {f : StateT σ (Except ε) α} {g : Reader ρ β}
  {N N' : α → β → σ → ρ → Prop} {P P' : α → Prop}

/-! ## Outcomes -/

theorem Agrees.of_ok {c : Except ε (α × σ)} {a : α} {b : β} {d : σ} {r : ρ}
    (hc : c = .ok (a, d)) (hr : S.fits r) (h : N a b d r) : Agrees S c (.ok b r) N P :=
  ⟨fun hno => absurd hr hno, fun _ => ⟨a, d, hc, h⟩⟩

theorem Agrees.of_rejected {c : Except ε (α × σ)} {a : α} {d : σ} {r : ρ}
    (hc : c = .ok (a, d)) (hr : S.fits r) (hd : S.idle d) (ha : P a) :
    Agrees S c (.rejected r : Result ρ β) N P :=
  ⟨fun hno => absurd hr hno, fun _ => ⟨a, d, hc, hd, ha⟩⟩

theorem Agrees.of_lost {c : Except ε (α × σ)} {e : ε} {r : ρ} (hc : c = .error e)
    (hr : S.fits r) (he : S.undefined e) : Agrees S c (.lost r : Result ρ β) N P :=
  ⟨fun hno => absurd hr hno, fun _ => ⟨e, hc, he⟩⟩

theorem Agrees.of_overflow {c : Except ε (α × σ)} {s : Result ρ β}
    (hc : c = .error S.overflow) (hs : ¬ S.fits s.state) : Agrees S c s N P :=
  ⟨fun _ => hc, fun h => absurd h hs⟩

theorem Agrees.mono {c : Except ε (α × σ)} {s : Result ρ β} (h : Agrees S c s N P)
    (hN : ∀ a b d r, N a b d r → N' a b d r) (hP : ∀ a, P a → P' a) :
    Agrees S c s N' P' := by
  refine ⟨h.1, fun hfits => ?_⟩
  have hs := h.2 hfits
  cases s with
  | ok b r =>
      obtain ⟨a, d, hc, hn⟩ := hs
      exact ⟨a, d, hc, hN a b d r hn⟩
  | rejected r =>
      obtain ⟨a, d, hc, hd, ha⟩ := hs
      exact ⟨a, d, hc, hd, hP a ha⟩
  | lost r => exact hs

/-- A program that has returned was right to, or its flag is up. -/
theorem Agrees.ok_cases {a : α} {d : σ} {s : Result ρ β} (h : Agrees S (.ok (a, d)) s N P) :
    (∃ b r, s = .ok b r ∧ N a b d r) ∨ S.idle d ∧ P a := by
  by_cases hfits : S.fits s.state
  · have hs := h.2 hfits
    cases s with
    | ok b r =>
        obtain ⟨a, d, ⟨⟩, hn⟩ := hs
        exact .inl ⟨b, r, rfl, hn⟩
    | rejected r =>
        obtain ⟨a, d, ⟨⟩, hd, ha⟩ := hs
        exact .inr ⟨hd, ha⟩
    | lost r =>
        obtain ⟨e, he, -⟩ := hs
        cases he
  · exact absurd (h.1 hfits) nofun

/-- Going on from an outcome: the reader's continuation runs above where it starts, so a
program that has run out of room was right to stop. -/
theorem Agrees.bind {c : Except ε (α × σ)} {s : Result ρ β} {k : α → StateT σ (Except ε) γ}
    {k' : β → Reader ρ δ} {N' : γ → δ → σ → ρ → Prop} {P' : γ → Prop}
    (h : Agrees S c s N P)
    (hok : ∀ a b d r, N a b d r → S.fits r → Agrees S (k a d) ((k' b).run r) N' P')
    (hidle : ∀ a, P a → Idle S (k a) P') :
    Agrees S (c >>= fun p => k p.1 p.2) (s.bind fun b r => (k' b).run r) N' P' := by
  by_cases hs : S.fits s.state
  · have hc := h.2 hs
    cases s with
    | ok b r =>
        obtain ⟨a, d, rfl, hn⟩ := hc
        exact hok a b d r hn hs
    | rejected r =>
        obtain ⟨a, d, rfl, hd, ha⟩ := hc
        obtain ⟨a', hk, ha'⟩ := hidle a ha d hd
        exact .of_rejected hk hs hd ha'
    | lost r =>
        obtain ⟨e, rfl, he⟩ := hc
        exact .of_lost rfl hs he
  · have hc := h.1 hs
    subst hc
    apply Agrees.of_overflow rfl
    cases s with
    | ok b r => exact fun hfits => hs (S.fits_of_le ((k' b).le_run r) hfits)
    | rejected r => exact hs
    | lost r => exact hs

/-! ## Triples -/

theorem Sim.consequence (h : Sim S M f g N P) (hM : ∀ d r, M' d r → M d r)
    (hN : ∀ a b d r, N a b d r → N' a b d r) (hP : ∀ a, P a → P' a) :
    Sim S M' f g N' P' :=
  fun d r hm hr => (h d r (hM d r hm) hr).mono hN hP

/-- What the relation says of neither state can be assumed. -/
theorem Sim.assume {φ : Prop} (h : ∀ d r, M d r → φ) (hf : φ → Sim S M f g N P) :
    Sim S M f g N P :=
  fun d r hm hr => hf (h d r hm) d r hm hr

/-- What holds above a state that it holds in keeps holding. -/
theorem Sim.stable {K : ρ → Prop} (hK : ∀ r r', r ≤ r' → K r → K r')
    (h : Sim S M f g N P) :
    Sim S (fun d r => M d r ∧ K r) f g (fun a b d r => N a b d r ∧ K r) P := by
  rintro d r ⟨hm, hk⟩ hr
  have hone := h d r hm hr
  have hle := g.le_run r
  cases hg : g.run r with
  | ok b r' =>
      rw [hg] at hone hle
      refine ⟨hone.1, fun hfits => ?_⟩
      obtain ⟨a, d', hf, hn⟩ := hone.2 hfits
      exact ⟨a, d', hf, hn, hK r r' hle hk⟩
  | rejected r' => rwa [hg] at hone
  | lost r' => rwa [hg] at hone

theorem Sim.pure {a : α} {b : β} (h : ∀ d r, M d r → N a b d r) :
    Sim S M (pure a) (pure b) N P :=
  fun d r hm hr => .of_ok rfl hr (h d r hm)

theorem Sim.bind {k : α → StateT σ (Except ε) γ} {k' : β → Reader ρ δ}
    {N' : γ → δ → σ → ρ → Prop} {P' : γ → Prop} (h : Sim S M f g N P)
    (hk : ∀ a b, Sim S (N a b) (k a) (k' b) N' P') (hidle : ∀ a, P a → Idle S (k a) P') :
    Sim S M (f >>= k) (g >>= k') N' P' :=
  fun d r hm hr => (h d r hm hr).bind (fun a b d r hn hr => hk a b d r hn hr) hidle

/-- Steps of the program that the reader does not take. -/
theorem Sim.step {f' : StateT σ (Except ε) α}
    (h : ∀ d r, M d r → ∃ d', f d = f' d' ∧ M' d' r) (hf' : Sim S M' f' g N P) :
    Sim S M f g N P := by
  intro d r hm hr
  obtain ⟨d', hf, hm'⟩ := h d r hm
  rw [hf]
  exact hf' d' r hm' hr

theorem Sim.bind_left {k : α → StateT σ (Except ε) γ} {N' : γ → β → σ → ρ → Prop}
    {P' : γ → Prop} {Q : α → σ → ρ → Prop}
    (h : ∀ d r, M d r → ∃ a d', f d = .ok (a, d') ∧ Q a d' r)
    (hk : ∀ a, Sim S (Q a) (k a) g N' P') : Sim S M (f >>= k) g N' P' := by
  intro d r hm hr
  obtain ⟨a, d', hf, hq⟩ := h d r hm
  rw [bind_apply, hf]
  exact hk a d' r hq hr

/-- A step of the reader that the program does not take. -/
theorem Sim.bind_right {k' : β → Reader ρ δ} {N' : α → δ → σ → ρ → Prop}
    {Q : β → σ → ρ → Prop}
    (h : ∀ d r, M d r → S.fits r → ∃ b r', g.run r = .ok b r' ∧ S.fits r' ∧ Q b d r')
    (hk : ∀ b, Sim S (Q b) f (k' b) N' P) : Sim S M f (g >>= k') N' P := by
  intro d r hm hr
  obtain ⟨b, r', hg, hr', hq⟩ := h d r hm hr
  rw [run_bind, hg]
  exact hk b d r' hq hr'

/-- A reader that only goes on to wrap its value up. -/
theorem Sim.map_right {w : β → δ} {N' : α → δ → σ → ρ → Prop} (h : Sim S M f g N P)
    (hw : ∀ a b d r, N a b d r → N' a (w b) d r) :
    Sim S M f (g >>= fun b => Pure.pure (w b)) N' P := by
  intro d r hm hr
  have hone := h d r hm hr
  rw [run_bind]
  cases hg : g.run r with
  | ok b r' =>
      rw [hg] at hone
      refine ⟨hone.1, fun hfits => ?_⟩
      obtain ⟨a, d', hf, hn⟩ := hone.2 hfits
      exact ⟨a, d', hf, hw a b d' r' hn⟩
  | rejected r' => rwa [hg] at hone
  | lost r' => rwa [hg] at hone

theorem Idle.bind {k : α → StateT σ (Except ε) γ} {P' : γ → Prop} (h : Idle S f P)
    (hk : ∀ a, P a → Idle S (k a) P') : Idle S (f >>= k) P' := by
  intro d hd
  obtain ⟨a, hf, ha⟩ := h d hd
  obtain ⟨a', hka, ha'⟩ := hk a ha d hd
  refine ⟨a', ?_, ha'⟩
  show (f d >>= fun p => k p.1 p.2) = _
  rw [hf]
  exact hka

theorem Idle.pure {a : α} (ha : P a) : Idle S (pure a : StateT σ (Except ε) α) P :=
  fun _ _ => ⟨a, rfl, ha⟩

/-! ## Loops -/

/-- How the two sides of a loop stand after a turn: both go on, with less left to do, or
both leave. -/
def TurnRel (I : α → γ → σ → ρ → Prop) (N : β → δ → σ → ρ → Prop) (μ : ρ → ℕ) (n : ℕ) :
    Turn α β → Turn γ δ → σ → ρ → Prop
  | .again a, .again c, d, r => I a c d r ∧ μ r < n
  | .leave b, .leave b', d, r => N b b' d r
  | _, _, _, _ => False

/-- A turn taken with the flag up leaves the loop. -/
def Leaves (P : β → Prop) : Turn α β → Prop
  | .again _ => False
  | .leave b => P b

/-- Two loops agree when their turns do and the reader's measure falls with every turn. The
program's bound on turns is then never reached. -/
theorem Sim.iterate {stuck : ε} {body : α → StateT σ (Except ε) (Turn α β)}
    {body' : γ → Reader ρ (Turn γ δ)} {I : α → γ → σ → ρ → Prop}
    {N : β → δ → σ → ρ → Prop} {P : β → Prop} (μ : ρ → ℕ)
    (hbody : ∀ a c n, Sim S (fun d r => I a c d r ∧ μ r = n) (body a) (body' c)
      (TurnRel I N μ n) (Leaves P)) (fuel fuel' : ℕ) (a : α) (c : γ) :
    Sim S (fun d r => I a c d r ∧ μ r < fuel ∧ μ r < fuel')
      (Simulation.iterate stuck body fuel a) (Reader.iterate body' fuel' c) N P := by
  induction fuel generalizing fuel' a c with
  | zero => intro d r hm; omega
  | succ fuel ih =>
      intro d r hm hr
      obtain ⟨hi, hfuel, hfuel'⟩ := hm
      cases fuel' with
      | zero => omega
      | succ fuel' =>
          rw [Simulation.iterate, Reader.iterate]
          refine Sim.bind (hbody a c (μ r)) (fun t t' => ?_) (fun t ht => ?_) d r ⟨hi, rfl⟩ hr
          · match t, t' with
            | .again a', .again c' =>
                apply (ih fuel' a' c').consequence
                · intro d' r' ht
                  exact ⟨ht.1, Nat.lt_of_lt_of_le ht.2 (Nat.le_of_lt_succ hfuel),
                    Nat.lt_of_lt_of_le ht.2 (Nat.le_of_lt_succ hfuel')⟩
                · exact fun _ _ _ _ h => h
                · exact fun _ h => h
            | .leave b, .leave b' => exact Sim.pure fun _ _ ht => ht
            | .again _, .leave _ => exact fun _ _ ht => ht.elim
            | .leave _, .again _ => exact fun _ _ ht => ht.elim
          · match t with
            | .again _ => exact ht.elim
            | .leave b => exact Idle.pure ht

theorem Sim.iterateWithin {stuck : ε} {body : α → StateT σ (Except ε) (Turn α β)}
    {body' : γ → Reader ρ (Turn γ δ)} {I : α → γ → σ → ρ → Prop}
    {N : β → δ → σ → ρ → Prop} {P : β → Prop} (μ : ρ → ℕ) (fuel : ℕ)
    (hbody : ∀ a c n, Sim S (fun d r => I a c d r ∧ μ r = n) (body a) (body' c)
      (TurnRel I N μ n) (Leaves P))
    (hfuel : ∀ a c d r, I a c d r → μ r < fuel) (a : α) (c : γ) :
    Sim S (I a c) (Simulation.iterate stuck body fuel a)
      (Reader.iterateWithin μ body' c) N P :=
  fun d r hi hr => Sim.iterate μ hbody fuel (μ r + 1) a c d r
    ⟨hi, hfuel a c d r hi, Nat.lt_succ_self _⟩ hr

end Cyanea.Math.Simulation
