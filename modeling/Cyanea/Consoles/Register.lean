/-
# Registering a console

The model of `register_console` in `drivers/console.c`. Consoles are told apart by `ι`. Their
hooks are arbitrary: they run on a machine that has the indices of all consoles and
whatever else there is, `σ`. Every call of a hook is recorded, with what it returned.
-/

import Cyanea.Errno
import Cyanea.Math.Simulation
import Mathlib.Data.Nat.Notation
import Mathlib.Logic.Function.Basic

namespace Cyanea.Consoles

open Math.Simulation (Turn)

/-- `struct preferred_console`, with its strings without their terminators. -/
structure PreferredConsole where
  name : List UInt8
  index : ℤ
  user_specified : ℤ
  options : List UInt8
  deriving DecidableEq, Repr

/-- What hooks run on. -/
structure Machine (ι : Type) (σ : Type) where
  index : ι → ℤ
  world : σ

/-- `struct console` without the fields that change. A hook that is `NULL` is `none`. -/
structure Console (ι : Type) (σ : Type) where
  name : List UInt8
  setup : Option (List UInt8 → Machine ι σ → ℤ × Machine ι σ)
  conMatch : Option (List UInt8 → List UInt8 → Machine ι σ → ℤ × Machine ι σ)
  exit : Option (Machine ι σ → ℤ × Machine ι σ)

/-- A call of a hook. -/
inductive Hook (ι : Type)
  | conMatch (con : ι) (name options : List UInt8)
  | setup (con : ι) (options : List UInt8)
  | exit (con : ι)
  deriving DecidableEq, Repr

/-- The machine, `active_console`, and the calls so far. -/
structure State (ι : Type) (σ : Type) extends Machine ι σ where
  active_console : Option ι
  calls : List (Hook ι × ℤ)

variable {ι : Type} {σ : Type}

/-- A hook is called. -/
def State.call (s : State ι σ) (hook : Hook ι) (f : Machine ι σ → ℤ × Machine ι σ) :
    ℤ × State ι σ :=
  ((f s.toMachine).1, ⟨(f s.toMachine).2, s.active_console, s.calls ++ [(hook, (f s.toMachine).1)]⟩)

section Register

variable [DecidableEq ι] (console : ι → Console ι σ) (con : ι)

/-- `con->index = index`. -/
def State.setIndex (s : State ι σ) (index : ℤ) : State ι σ :=
  { s with index := Function.update s.index con index }

/-- The part of the loop for an entry that `match` does not accept. -/
def enableByName (pc : PreferredConsole) (s : State ι σ) : Turn (State ι σ) (ℤ × State ι σ) :=
  if pc.name ≠ (console con).name then .again s
  else if 0 ≤ s.index con ∧ s.index con ≠ pc.index then .again s
  else
    let s := if 0 ≤ s.index con then s else s.setIndex con pc.index
    match (console con).setup with
    | some setup => .leave (s.call (.setup con pc.options) (setup pc.options))
    | none => .leave (SUCCESS, s)

/-- A turn of the loop. -/
def enableTurn (user_specified : ℤ) (pc : PreferredConsole) (s : State ι σ) :
    Turn (State ι σ) (ℤ × State ι σ) :=
  if pc.user_specified ≠ user_specified then .again s
  else
    match (console con).conMatch with
    | some conMatch =>
      let (err, s) := s.call (.conMatch con pc.name pc.options) (conMatch pc.name pc.options)
      if err ≠ 0 then enableByName console con pc s else .leave (SUCCESS, s)
    | none => enableByName console con pc s

/-- `try_enable_preferred_console`, from an entry of `pcs` on. -/
def tryEnablePreferredConsole (user_specified : ℤ) :
    List PreferredConsole → State ι σ → ℤ × State ι σ
  | [], s => (-ENOENT, s)
  | pc :: pcs, s =>
    if pc.name = [] then (-ENOENT, s)
    else
      match enableTurn console con user_specified pc s with
      | .again s => tryEnablePreferredConsole user_specified pcs s
      | .leave r => r

/-- `if (active_console) ...`. -/
def exitActive (s : State ι σ) : State ι σ :=
  match s.active_console with
  | none => s
  | some active =>
    match (console active).exit with
    | none => s
    | some exit => (s.call (.exit active) exit).2

def registerConsole (pcs : List PreferredConsole) (s : State ι σ) : ℤ × State ι σ :=
  let (err, s) := tryEnablePreferredConsole console con 1 pcs s
  let (err, s) := if err ≠ 0 then tryEnablePreferredConsole console con 0 pcs s else (err, s)
  if err ≠ 0 then (-ENOENT, s)
  else (SUCCESS, { exitActive console s with active_console := some con })

end Register

/-! ## What is asked for -/

section Asked

variable [DecidableEq ι] (console : ι → Console ι σ) (con : ι)

/-- The hook leaves the index of the console. -/
def KeepsIndex (f : Machine ι σ → ℤ × Machine ι σ) : Prop :=
  ∀ m, (f m).2.index con = m.index con

/-- The hooks of the console leave its index. -/
structure HooksKeep : Prop where
  conMatch : ∀ conMatch, (console con).conMatch = some conMatch →
    ∀ name options, KeepsIndex con (conMatch name options)
  setup : ∀ setup, (console con).setup = some setup → ∀ options, KeepsIndex con (setup options)

/-- The entry names the console, and its index is the one of the console if that has one. -/
def Fits (index : ℤ) (pc : PreferredConsole) : Prop :=
  pc.name = (console con).name ∧ (index < 0 ∨ index = pc.index)

instance (index : ℤ) (pc : PreferredConsole) : Decidable (Fits console con index pc) :=
  inferInstanceAs (Decidable (_ ∧ _))

/-- Among the calls there is one by which `match` accepts the entry. -/
def Accepted (calls : List (Hook ι × ℤ)) (pc : PreferredConsole) : Prop :=
  (.conMatch con pc.name pc.options, SUCCESS) ∈ calls

/-- The entry fits, and among the calls there is a `setup` for it that succeeds, if there is
that hook. -/
def SetUp (calls : List (Hook ι × ℤ)) (index : ℤ) (pc : PreferredConsole) : Prop :=
  Fits console con index pc ∧
    ((console con).setup = none ∨ (.setup con pc.options, SUCCESS) ∈ calls)

def Hook.isExit : Hook ι → Bool
  | .exit _ => true
  | _ => false

/-- The calls of the exit hook that a new console asks for. -/
def exitsOf (s : State ι σ) : List (Hook ι) :=
  match s.active_console with
  | none => []
  | some active => if (console active).exit.isSome then [.exit active] else []

/-- The first pass, in which the entries are those that the user has specified. -/
def firstPass (pcs : List PreferredConsole) (s : State ι σ) : ℤ × State ι σ :=
  tryEnablePreferredConsole console con 1 pcs s

/-- An error changes neither the active console nor the index, the second pass sees the
index that the console came with, and a console becomes active only for an entry, after
the one that was active has been left. -/
structure RegistersConsole (pcs : List PreferredConsole) (s : State ι σ) : Prop where
  unchanged : (registerConsole console con pcs s).1 ≠ SUCCESS →
    (registerConsole console con pcs s).2.active_console = s.active_console ∧
      (registerConsole console con pcs s).2.index con = s.index con
  second : (firstPass console con pcs s).1 ≠ SUCCESS →
    (firstPass console con pcs s).2.index con = s.index con
  success : (registerConsole console con pcs s).1 = SUCCESS →
    ∃ calls, (registerConsole console con pcs s).2.calls = s.calls ++ calls ∧
      (∃ pc ∈ pcs, Accepted con calls pc ∨ SetUp console con calls (s.index con) pc) ∧
      (calls.map Prod.fst).filter Hook.isExit = exitsOf console s

/-! ## Where a pass ends -/

/-- What `match` answers for an entry. A console without that hook is found by its name. -/
def matchAnswer (pc : PreferredConsole) (m : Machine ι σ) : ℤ × Machine ι σ :=
  match (console con).conMatch with
  | some conMatch => conMatch pc.name pc.options m
  | none => (-ENOENT, m)

/-- What `setup` answers when the console has the index of the entry. -/
def setupAnswer (pc : PreferredConsole) (m : Machine ι σ) : ℤ × Machine ι σ :=
  let m := { m with index := Function.update m.index con pc.index }
  match (console con).setup with
  | some setup => setup pc.options m
  | none => (SUCCESS, m)

/-- The entries of a pass: up to the first one without a name, those that the user has
specified, or the others. -/
def listed (user_specified : ℤ) (pcs : List PreferredConsole) : List PreferredConsole :=
  (pcs.takeWhile fun pc => pc.name ≠ []).filter fun pc => pc.user_specified = user_specified

inductive Found
  | nothing
  | accepted (pc : PreferredConsole)
  | fitting (pc : PreferredConsole)

/-- The first of the entries that `match` accepts, or that fits a console with this index, and
the machine after the answers up to it. -/
inductive Meets (index : ℤ) :
    List PreferredConsole → Machine ι σ → Found → Machine ι σ → Prop
  | nothing (m : Machine ι σ) : Meets index [] m .nothing m
  | accepted {pc : PreferredConsole} {rest : List PreferredConsole} {m : Machine ι σ}
      (haccepted : (matchAnswer console con pc m).1 = SUCCESS) :
      Meets index (pc :: rest) m (.accepted pc) (matchAnswer console con pc m).2
  | fitting {pc : PreferredConsole} {rest : List PreferredConsole} {m : Machine ι σ}
      (hrefused : (matchAnswer console con pc m).1 ≠ SUCCESS)
      (hfits : Fits console con index pc) :
      Meets index (pc :: rest) m (.fitting pc) (matchAnswer console con pc m).2
  | next {pc : PreferredConsole} {rest : List PreferredConsole} {m m' : Machine ι σ}
      {found : Found} (hrefused : (matchAnswer console con pc m).1 ≠ SUCCESS)
      (hfits : ¬ Fits console con index pc)
      (h : Meets index rest (matchAnswer console con pc m).2 found m') :
      Meets index (pc :: rest) m found m'

/-- The entries lead to one whose index takes the place of another one, and for which `setup`
fails. -/
def Spoils (index : ℤ) (entries : List PreferredConsole) (m : Machine ι σ) : Prop :=
  ∃ pc m', Meets console con index entries m (.fitting pc) m' ∧ index ≠ pc.index ∧
    (setupAnswer console con pc m').1 ≠ SUCCESS

/-- The entries do not lead to a console that is set up. The machine is left like this. -/
def Fails (index : ℤ) (entries : List PreferredConsole) (m m' : Machine ι σ) : Prop :=
  Meets console con index entries m .nothing m' ∨
    ∃ pc m₁, Meets console con index entries m (.fitting pc) m₁ ∧
      (setupAnswer console con pc m₁).1 ≠ SUCCESS ∧ m' = (setupAnswer console con pc m₁).2

end Asked

/-! ## What a pass does -/

section Pass

variable [DecidableEq ι] {console : ι → Console ι σ} {con : ι} {pc : PreferredConsole}
  {pcs : List PreferredConsole} {s : State ι σ}

theorem setIndex_self {index : ℤ} (h : s.index con = index) : s.setIndex con index = s := by
  rw [State.setIndex, ← h, Function.update_eq_self]

theorem setIndex_index (index : ℤ) : (s.setIndex con index).index con = index :=
  Function.update_self ..

theorem enableByName_of_not_fits (h : ¬ Fits console con (s.index con) pc) :
    enableByName console con pc s = .again s := by
  rw [enableByName]
  by_cases hname : pc.name = (console con).name
  · rw [if_neg (not_not.mpr hname), if_pos]
    constructor
    · exact Int.not_lt.mp fun hlt => h ⟨hname, .inl hlt⟩
    · exact fun heq => h ⟨hname, .inr heq⟩
  · rw [if_pos hname]

/-- Where an entry fits, its index is the one of the console from then on. -/
theorem enableByName_of_fits (h : Fits console con (s.index con) pc) :
    enableByName console con pc s =
      match (console con).setup with
      | some setup =>
        .leave ((s.setIndex con pc.index).call (.setup con pc.options) (setup pc.options))
      | none => .leave (SUCCESS, s.setIndex con pc.index) := by
  obtain ⟨hname, hindex⟩ := h
  have hset : (if 0 ≤ s.index con then s else s.setIndex con pc.index) =
      s.setIndex con pc.index := by
    split
    · next hle => exact (setIndex_self (hindex.resolve_left (Int.not_lt.mpr hle))).symm
    · rfl
  rw [enableByName, if_neg (not_not.mpr hname), if_neg (by omega), hset]

/-- What a pass comes to. -/
def ended (console : ι → Console ι σ) (con : ι) : Found → Machine ι σ → ℤ × Machine ι σ
  | .nothing, m => (-ENOENT, m)
  | .accepted _, m => (SUCCESS, m)
  | .fitting pc, m => setupAnswer console con pc m

/-- What a pass does, from the calls it makes. -/
structure PassEnds (console : ι → Console ι σ) (con : ι) (entries : List PreferredConsole)
    (s : State ι σ) (found : Found) (m : Machine ι σ) (r : ℤ × State ι σ)
    (calls : List (Hook ι × ℤ)) : Prop where
  calls_eq : r.2.calls = s.calls ++ calls
  no_exit : ∀ call ∈ calls, call.1.isExit = false
  active : r.2.active_console = s.active_console
  meets : Meets console con (s.index con) entries s.toMachine found m
  ended : (r.1, r.2.toMachine) = ended console con found m
  accepted : ∀ pc, found = .accepted pc → Accepted con calls pc
  set_up : ∀ pc, found = .fitting pc →
    (console con).setup = none ∨ (.setup con pc.options, r.1) ∈ calls

omit [DecidableEq ι] in
theorem matchAnswer_index (hkeep : HooksKeep console con) (pc : PreferredConsole)
    (m : Machine ι σ) : (matchAnswer console con pc m).2.index con = m.index con := by
  rw [matchAnswer]
  cases hmatch : (console con).conMatch with
  | none => rfl
  | some conMatch => exact hkeep.conMatch conMatch hmatch pc.name pc.options m

theorem setupAnswer_index (hkeep : HooksKeep console con) (pc : PreferredConsole)
    (m : Machine ι σ) : (setupAnswer console con pc m).2.index con = pc.index := by
  rw [setupAnswer]
  cases hsetup : (console con).setup with
  | none => exact Function.update_self ..
  | some setup => exact (hkeep.setup setup hsetup _ _).trans (Function.update_self ..)

omit [DecidableEq ι] in
theorem Meets.index {index : ℤ} {entries : List PreferredConsole} {m m' : Machine ι σ}
    {found : Found} (hkeep : HooksKeep console con)
    (h : Meets console con index entries m found m') : m'.index con = m.index con := by
  induction h with
  | nothing m => rfl
  | accepted haccepted => exact matchAnswer_index hkeep _ _
  | fitting hrefused hfits => exact matchAnswer_index hkeep _ _
  | next hrefused hfits h ih => exact ih.trans (matchAnswer_index hkeep _ _)

omit [DecidableEq ι] in
/-- The answers leave no choice. -/
theorem Meets.unique {index : ℤ} {entries : List PreferredConsole} {m m₁ m₂ : Machine ι σ}
    {found₁ found₂ : Found} (h₁ : Meets console con index entries m found₁ m₁)
    (h₂ : Meets console con index entries m found₂ m₂) : found₁ = found₂ ∧ m₁ = m₂ := by
  induction h₁ with
  | nothing m =>
      cases h₂
      exact ⟨rfl, rfl⟩
  | accepted haccepted =>
      cases h₂ with
      | accepted => exact ⟨rfl, rfl⟩
      | fitting hrefused => exact absurd haccepted hrefused
      | next hrefused => exact absurd haccepted hrefused
  | fitting hrefused hfits =>
      cases h₂ with
      | accepted haccepted => exact absurd haccepted hrefused
      | fitting => exact ⟨rfl, rfl⟩
      | next _ hnot => exact absurd hfits hnot
  | next hrefused hnot h ih =>
      cases h₂ with
      | accepted haccepted => exact absurd haccepted hrefused
      | fitting _ hfits => exact absurd hfits hnot
      | next _ _ h => exact ih h

omit [DecidableEq ι] in
theorem Meets.mem {index : ℤ} {entries : List PreferredConsole} {m m' : Machine ι σ}
    {found : Found} (h : Meets console con index entries m found m') :
    (∀ pc, found = .accepted pc → pc ∈ entries) ∧
      ∀ pc, found = .fitting pc → pc ∈ entries ∧ Fits console con index pc := by
  induction h with
  | nothing m => exact ⟨nofun, nofun⟩
  | accepted haccepted => exact ⟨by rintro _ ⟨⟩; exact List.mem_cons_self, nofun⟩
  | fitting hrefused hfits => exact ⟨nofun, by rintro _ ⟨⟩; exact ⟨List.mem_cons_self, hfits⟩⟩
  | next hrefused hfits h ih =>
      exact ⟨fun pc hpc => List.mem_cons_of_mem _ (ih.1 pc hpc),
        fun pc hpc => (ih.2 pc hpc).imp_left (List.mem_cons_of_mem _)⟩

/-- An entry is refused that does not fit. -/
theorem PassEnds.cons {entries : List PreferredConsole} {found : Found} {m : Machine ι σ}
    {r : ℤ × State ι σ} {calls asked : List (Hook ι × ℤ)} {s₁ : State ι σ}
    (hkeep : HooksKeep console con)
    (hrefused : (matchAnswer console con pc s.toMachine).1 ≠ SUCCESS)
    (hfits : ¬ Fits console con (s.index con) pc)
    (hasked : s₁.calls = s.calls ++ asked) (hexit : ∀ call ∈ asked, call.1.isExit = false)
    (hactive : s₁.active_console = s.active_console)
    (hs₁ : s₁.toMachine = (matchAnswer console con pc s.toMachine).2)
    (h : PassEnds console con entries s₁ found m r calls) :
    PassEnds console con (pc :: entries) s found m r (asked ++ calls) where
  calls_eq := by rw [h.calls_eq, hasked, List.append_assoc]
  no_exit := List.forall_mem_append.mpr ⟨hexit, h.no_exit⟩
  active := h.active.trans hactive
  meets := by
    have hmeets := h.meets
    rw [hs₁, matchAnswer_index hkeep] at hmeets
    exact .next hrefused hfits hmeets
  ended := h.ended
  accepted pc' hfound := List.mem_append_right _ (h.accepted pc' hfound)
  set_up pc' hfound := (h.set_up pc' hfound).imp_right (List.mem_append_right _)

/-- One is refused that fits. -/
theorem passEnds_fits {asked : List (Hook ι × ℤ)} {s₁ : State ι σ}
    (hkeep : HooksKeep console con) (entries : List PreferredConsole)
    (hrefused : (matchAnswer console con pc s.toMachine).1 ≠ SUCCESS)
    (hfits : Fits console con (s.index con) pc)
    (hasked : s₁.calls = s.calls ++ asked) (hexit : ∀ call ∈ asked, call.1.isExit = false)
    (hactive : s₁.active_console = s.active_console)
    (hs₁ : s₁.toMachine = (matchAnswer console con pc s.toMachine).2) :
    ∃ r calls, enableByName console con pc s₁ = .leave r ∧
      PassEnds console con (pc :: entries) s (.fitting pc)
        (matchAnswer console con pc s.toMachine).2 r calls := by
  have hindex : s₁.index con = s.index con := by
    rw [hs₁]
    exact matchAnswer_index hkeep pc s.toMachine
  rw [enableByName_of_fits (by rwa [hindex])]
  cases hsetup : (console con).setup with
  | none =>
      refine ⟨_, asked, rfl, hasked, hexit, hactive, .fitting hrefused hfits, ?_, nofun,
        fun _ _ => .inl hsetup⟩
      rw [Consoles.ended, setupAnswer, hsetup, ← hs₁]
      rfl
  | some setup =>
      let call : Hook ι × ℤ :=
        (.setup con pc.options, (setup pc.options (s₁.setIndex con pc.index).toMachine).1)
      refine ⟨_, asked ++ [call], rfl, ?_, ?_, hactive, .fitting hrefused hfits, ?_, nofun, ?_⟩
      · rw [State.call, ← List.append_assoc, ← hasked]
        rfl
      · exact List.forall_mem_append.mpr ⟨hexit, List.forall_mem_singleton.mpr rfl⟩
      · rw [Consoles.ended, setupAnswer, hsetup, ← hs₁]
        rfl
      · rintro _ ⟨⟩
        exact .inr (List.mem_append_right _ (List.mem_singleton_self _))

theorem listed_of_nil {user_specified : ℤ} (h : pc.name = []) :
    listed user_specified (pc :: pcs) = [] := by
  rw [listed, List.takeWhile_cons_of_neg (by simpa using h)]
  rfl

theorem listed_of_ne {user_specified : ℤ} (hname : pc.name ≠ [])
    (h : pc.user_specified ≠ user_specified) :
    listed user_specified (pc :: pcs) = listed user_specified pcs := by
  rw [listed, List.takeWhile_cons_of_pos (by simpa using hname),
    List.filter_cons_of_neg (by simpa using h)]
  rfl

theorem listed_of_eq {user_specified : ℤ} (hname : pc.name ≠ [])
    (h : pc.user_specified = user_specified) :
    listed user_specified (pc :: pcs) = pc :: listed user_specified pcs := by
  rw [listed, List.takeWhile_cons_of_pos (by simpa using hname),
    List.filter_cons_of_pos (by simpa using h)]
  rfl

theorem mem_of_listed {user_specified : ℤ} (h : pc ∈ listed user_specified pcs) : pc ∈ pcs :=
  (List.takeWhile_sublist _).subset (List.mem_filter.mp h).1

theorem passEnds_nothing (s : State ι σ) :
    PassEnds console con [] s .nothing s.toMachine (-ENOENT, s) [] :=
  ⟨(List.append_nil _).symm, by simp, rfl, .nothing _, rfl, nofun, nofun⟩

/-- A pass goes by the answers. -/
theorem passEnds (hkeep : HooksKeep console con) (user_specified : ℤ)
    (pcs : List PreferredConsole) (s : State ι σ) :
    ∃ found m calls, PassEnds console con (listed user_specified pcs) s found m
      (tryEnablePreferredConsole console con user_specified pcs s) calls := by
  induction pcs generalizing s with
  | nil => exact ⟨_, _, _, passEnds_nothing s⟩
  | cons pc pcs ih =>
      rw [tryEnablePreferredConsole, enableTurn]
      by_cases hname : pc.name = []
      · rw [if_pos hname, listed_of_nil hname]
        exact ⟨_, _, _, passEnds_nothing s⟩
      rw [if_neg hname]
      by_cases huser : pc.user_specified ≠ user_specified
      · rw [if_pos huser, listed_of_ne hname huser]
        exact ih s
      rw [if_neg huser, listed_of_eq hname (not_not.mp huser)]
      -- the state after `match` has been asked, if there is that hook
      have hbyName (asked : List (Hook ι × ℤ)) (s₁ : State ι σ)
          (hrefused : (matchAnswer console con pc s.toMachine).1 ≠ SUCCESS)
          (hasked : s₁.calls = s.calls ++ asked)
          (hexit : ∀ call ∈ asked, call.1.isExit = false)
          (hactive : s₁.active_console = s.active_console)
          (hs₁ : s₁.toMachine = (matchAnswer console con pc s.toMachine).2) :
          ∃ found m calls, PassEnds console con (pc :: listed user_specified pcs) s found m
            (match enableByName console con pc s₁ with
              | .again s => tryEnablePreferredConsole console con user_specified pcs s
              | .leave r => r) calls := by
        by_cases hfits : Fits console con (s.index con) pc
        · obtain ⟨r, calls, hleave, hends⟩ := passEnds_fits hkeep (listed user_specified pcs)
            hrefused hfits hasked hexit hactive hs₁
          rw [hleave]
          exact ⟨_, _, calls, hends⟩
        · have hindex : s₁.index con = s.index con := by
            rw [hs₁]
            exact matchAnswer_index hkeep pc s.toMachine
          obtain ⟨found, m, calls, hends⟩ := ih s₁
          rw [enableByName_of_not_fits (by rwa [hindex])]
          exact ⟨found, m, _, hends.cons hkeep hrefused hfits hasked hexit hactive hs₁⟩
      cases hmatch : (console con).conMatch with
      | none =>
          refine hbyName [] s ?_ (List.append_nil _).symm (by simp) rfl ?_
          · rw [matchAnswer, hmatch]
            dsimp only
            decide
          · rw [matchAnswer, hmatch]
      | some conMatch =>
          have hanswer : matchAnswer console con pc s.toMachine =
              conMatch pc.name pc.options s.toMachine := by rw [matchAnswer, hmatch]
          dsimp only
          by_cases herr : (s.call (.conMatch con pc.name pc.options)
              (conMatch pc.name pc.options)).1 = 0
          · rw [if_neg (not_not.mpr herr)]
            have haccepted : (matchAnswer console con pc s.toMachine).1 = SUCCESS := by
              rw [hanswer]
              exact herr
            refine ⟨_, _, [(.conMatch con pc.name pc.options, SUCCESS)], ?_, ?_, rfl,
              .accepted haccepted, ?_, ?_, nofun⟩
            · exact congrArg (fun err => s.calls ++ [(Hook.conMatch con pc.name pc.options, err)]) herr
            · exact List.forall_mem_singleton.mpr rfl
            · rw [hanswer]
              rfl
            · rintro _ ⟨⟩
              exact List.mem_singleton_self _
          · rw [if_pos herr]
            refine hbyName [_] _ ?_ rfl (List.forall_mem_singleton.mpr rfl) rfl ?_
            · rw [hanswer]
              exact herr
            · rw [hanswer]
              rfl

end Pass

/-! ## Both passes -/

section Both

variable [DecidableEq ι] {console : ι → Console ι σ} {con : ι} {pcs : List PreferredConsole}
  {s : State ι σ} {user_specified : ℤ} {m : Machine ι σ}

/-- A pass that fails leaves the machine as the answers do. -/
theorem fails_of_ne_success (hkeep : HooksKeep console con)
    (herr : (tryEnablePreferredConsole console con user_specified pcs s).1 ≠ SUCCESS) :
    Fails console con (s.index con) (listed user_specified pcs) s.toMachine
      (tryEnablePreferredConsole console con user_specified pcs s).2.toMachine := by
  obtain ⟨found, m, calls, hends⟩ := passEnds hkeep user_specified pcs s
  obtain ⟨hresult, hmachine⟩ := Prod.mk.inj hends.ended
  cases found with
  | nothing =>
      rw [hmachine]
      exact .inl hends.meets
  | accepted pc => exact absurd hresult herr
  | fitting pc =>
      rw [hresult] at herr
      exact .inr ⟨pc, m, hends.meets, herr, hmachine⟩

theorem Fails.result (hkeep : HooksKeep console con)
    (h : Fails console con (s.index con) (listed user_specified pcs) s.toMachine m) :
    (tryEnablePreferredConsole console con user_specified pcs s).1 ≠ SUCCESS ∧
      (tryEnablePreferredConsole console con user_specified pcs s).2.toMachine = m := by
  obtain ⟨found, m₁, calls, hends⟩ := passEnds hkeep user_specified pcs s
  obtain ⟨hresult, hmachine⟩ := Prod.mk.inj hends.ended
  obtain hmeets | ⟨pc, m₂, hmeets, herr, rfl⟩ := h
  · obtain ⟨rfl, rfl⟩ := hends.meets.unique hmeets
    refine ⟨?_, hmachine⟩
    rw [hresult]
    dsimp only [ended]
    decide
  · obtain ⟨rfl, rfl⟩ := hends.meets.unique hmeets
    exact ⟨hresult.trans_ne herr, hmachine⟩

/-- What fails leaves the index, unless it spoils it. -/
theorem Fails.index {entries : List PreferredConsole} {m m' : Machine ι σ}
    (hkeep : HooksKeep console con)
    (h : Fails console con (m.index con) entries m m')
    (hspoils : ¬ Spoils console con (m.index con) entries m) :
    m'.index con = m.index con := by
  obtain hmeets | ⟨pc, m₁, hmeets, herr, rfl⟩ := h
  · exact hmeets.index hkeep
  · rw [setupAnswer_index hkeep]
    by_contra hne
    exact hspoils ⟨pc, m₁, hmeets, Ne.symm hne, herr⟩

theorem Spoils.fails {entries : List PreferredConsole} {m : Machine ι σ}
    (hkeep : HooksKeep console con) {index : ℤ}
    (h : Spoils console con index entries m) :
    ∃ m', Fails console con index entries m m' ∧ m'.index con ≠ index := by
  obtain ⟨pc, m₁, hmeets, hne, herr⟩ := h
  refine ⟨_, .inr ⟨pc, m₁, hmeets, herr, rfl⟩, ?_⟩
  rw [setupAnswer_index hkeep]
  exact hne.symm

/-- A pass that succeeds has an entry for it. -/
theorem enabled_of_success (hkeep : HooksKeep console con)
    (h : (tryEnablePreferredConsole console con user_specified pcs s).1 = SUCCESS) :
    ∃ calls, (tryEnablePreferredConsole console con user_specified pcs s).2.calls =
        s.calls ++ calls ∧ (∀ call ∈ calls, call.1.isExit = false) ∧
      ∃ pc ∈ pcs, Accepted con calls pc ∨ SetUp console con calls (s.index con) pc := by
  obtain ⟨found, m, calls, hends⟩ := passEnds hkeep user_specified pcs s
  refine ⟨calls, hends.calls_eq, hends.no_exit, ?_⟩
  obtain ⟨haccepted, hfitting⟩ := hends.meets.mem
  cases found with
  | nothing =>
      obtain ⟨hresult, -⟩ := Prod.mk.inj hends.ended
      rw [h] at hresult
      exact absurd hresult (by decide)
  | accepted pc =>
      exact ⟨pc, mem_of_listed (haccepted pc rfl), .inl (hends.accepted pc rfl)⟩
  | fitting pc =>
      obtain ⟨hmem, hfits⟩ := hfitting pc rfl
      have hcalled := hends.set_up pc rfl
      rw [h] at hcalled
      exact ⟨pc, mem_of_listed hmem, .inr ⟨hfits, hcalled⟩⟩

end Both

section Exits

variable {console : ι → Console ι σ} {con : ι}

theorem exitActive_calls (console : ι → Console ι σ) (s : State ι σ) :
    ∃ calls, (exitActive console s).calls = s.calls ++ calls ∧
      calls.map Prod.fst = exitsOf console s := by
  rw [exitActive, exitsOf]
  cases s.active_console with
  | none => exact ⟨[], (List.append_nil _).symm, rfl⟩
  | some active =>
      cases hexit : (console active).exit with
      | none => exact ⟨[], by simp [hexit], by simp [hexit]⟩
      | some exit => exact ⟨_, by simp only [hexit]; rfl, by simp [hexit]⟩

theorem filter_isExit_exitsOf (console : ι → Console ι σ) (s : State ι σ) :
    (exitsOf console s).filter Hook.isExit = exitsOf console s := by
  rw [exitsOf]
  cases s.active_console with
  | none => rfl
  | some active =>
      dsimp only
      split
      · rfl
      · rfl

/-- The calls of hooks other than exit hooks, and then those of the exit hook. -/
theorem exits_of_calls {before exits : List (Hook ι × ℤ)} {s' : State ι σ}
    (hbefore : ∀ call ∈ before, call.1.isExit = false)
    (hexits : exits.map Prod.fst = exitsOf console s') :
    ((before ++ exits).map Prod.fst).filter Hook.isExit = exitsOf console s' := by
  have hnone : (before.map Prod.fst).filter Hook.isExit = [] := by
    rw [List.filter_eq_nil_iff]
    intro hook hmem
    obtain ⟨call, hcall, rfl⟩ := List.mem_map.mp hmem
    rw [hbefore call hcall]
    exact Bool.false_ne_true
  rw [List.map_append, List.filter_append, hnone, hexits, filter_isExit_exitsOf, List.nil_append]

end Exits

/-! ## The whole call -/

section Whole

variable [DecidableEq ι] {console : ι → Console ι σ} {con : ι} {pcs : List PreferredConsole}
  {s : State ι σ}

/-- The pass that decides. -/
def lastPass (console : ι → Console ι σ) (con : ι) (pcs : List PreferredConsole)
    (s : State ι σ) : ℤ × State ι σ :=
  if (firstPass console con pcs s).1 ≠ SUCCESS then
    tryEnablePreferredConsole console con 0 pcs (firstPass console con pcs s).2
  else firstPass console con pcs s

theorem registerConsole_of_fails (h : (lastPass console con pcs s).1 ≠ SUCCESS) :
    registerConsole console con pcs s = (-ENOENT, (lastPass console con pcs s).2) :=
  if_pos h

theorem registerConsole_of_succeeds (h : (lastPass console con pcs s).1 = SUCCESS) :
    registerConsole console con pcs s =
      (SUCCESS, { exitActive console (lastPass console con pcs s).2 with
        active_console := some con }) :=
  if_neg (not_not.mpr h)

theorem lastPass_active (hkeep : HooksKeep console con) :
    (lastPass console con pcs s).2.active_console = s.active_console := by
  obtain ⟨_, _, _, hfirst⟩ := passEnds hkeep 1 pcs s
  rw [lastPass]
  split
  · obtain ⟨_, _, _, hends⟩ := passEnds hkeep 0 pcs (firstPass console con pcs s).2
    exact hends.active.trans hfirst.active
  · exact hfirst.active

/-- The pass that decides has an entry for its success, if the second one sees the index
that the console came with. -/
theorem lastPass_success (hkeep : HooksKeep console con)
    (hsecond : (firstPass console con pcs s).1 ≠ SUCCESS →
      (firstPass console con pcs s).2.index con = s.index con)
    (h : (lastPass console con pcs s).1 = SUCCESS) :
    ∃ calls, (lastPass console con pcs s).2.calls = s.calls ++ calls ∧
      (∀ call ∈ calls, call.1.isExit = false) ∧
      ∃ pc ∈ pcs, Accepted con calls pc ∨ SetUp console con calls (s.index con) pc := by
  rw [lastPass] at h ⊢
  by_cases hfirst : (firstPass console con pcs s).1 = SUCCESS
  · rw [if_neg (not_not.mpr hfirst)]
    exact enabled_of_success hkeep hfirst
  · obtain ⟨_, _, before, hbefore⟩ := passEnds hkeep 1 pcs s
    rw [if_pos hfirst] at h ⊢
    obtain ⟨calls, hcalls, hexit, pc, hpc, henabled⟩ := enabled_of_success hkeep h
    rw [hsecond hfirst] at henabled
    refine ⟨before ++ calls, ?_, List.forall_mem_append.mpr ⟨hbefore.no_exit, hexit⟩, pc, hpc, ?_⟩
    · rw [hcalls, ← List.append_assoc]
      exact congrArg (· ++ calls) hbefore.calls_eq
    · refine henabled.imp (List.mem_append_right before) fun hsetup => ⟨hsetup.1, ?_⟩
      exact hsetup.2.imp_right (List.mem_append_right before)

/-- The second pass finds the machine as the first one leaves it. -/
theorem lastPass_index (hkeep : HooksKeep console con)
    (hfirst : ¬ Spoils console con (s.index con) (listed 1 pcs) s.toMachine)
    (hagain : ∀ m, Fails console con (s.index con) (listed 1 pcs) s.toMachine m →
      ¬ Spoils console con (s.index con) (listed 0 pcs) m)
    (h : (lastPass console con pcs s).1 ≠ SUCCESS) :
    (lastPass console con pcs s).2.index con = s.index con := by
  rw [lastPass] at h ⊢
  by_cases herr : (firstPass console con pcs s).1 = SUCCESS
  · rw [if_neg (not_not.mpr herr)] at h
    exact absurd herr h
  · rw [if_pos herr] at h ⊢
    have hfails := fails_of_ne_success hkeep herr
    have hindex : (firstPass console con pcs s).2.index con = s.index con :=
      hfails.index hkeep hfirst
    refine (Fails.index hkeep (fails_of_ne_success hkeep h) ?_).trans hindex
    rw [hindex]
    exact hagain _ hfails

/-- A console is registered as it should be exactly if no pass that is made leads to an entry
whose index takes the place of the one the console came with, and for which `setup` fails. The
entries of the second pass are met on the machine that the answers in the first one leave. -/
theorem registersConsole_iff (hkeep : HooksKeep console con) (pcs : List PreferredConsole)
    (s : State ι σ) :
    RegistersConsole console con pcs s ↔
      ¬ Spoils console con (s.index con) (listed 1 pcs) s.toMachine ∧
        ∀ m, Fails console con (s.index con) (listed 1 pcs) s.toMachine m →
          ¬ Spoils console con (s.index con) (listed 0 pcs) m := by
  constructor
  · intro h
    refine ⟨fun hspoils => ?_, fun m hfails hspoils => ?_⟩
    · obtain ⟨m, hfails, hindex⟩ := hspoils.fails hkeep
      obtain ⟨herr, hmachine⟩ := hfails.result hkeep
      refine hindex ?_
      rw [← hmachine]
      exact h.second herr
    · obtain ⟨herr, hmachine⟩ := hfails.result hkeep
      have hsecond : (firstPass console con pcs s).2.index con = s.index con := h.second herr
      obtain ⟨m', hfails', hindex⟩ := hspoils.fails hkeep
      rw [← hsecond, ← hmachine] at hfails'
      obtain ⟨herr', hmachine'⟩ := hfails'.result hkeep
      have hlast : lastPass console con pcs s =
          tryEnablePreferredConsole console con 0 pcs (firstPass console con pcs s).2 :=
        if_pos herr
      have hunchanged := h.unchanged
      rw [registerConsole_of_fails (by rw [hlast]; exact herr'), hlast] at hunchanged
      obtain ⟨-, hsame⟩ := hunchanged (by dsimp only; decide)
      refine hindex ?_
      rw [← hmachine']
      exact hsame
  · rintro ⟨hfirst, hagain⟩
    have hsecond (herr : (firstPass console con pcs s).1 ≠ SUCCESS) :
        (firstPass console con pcs s).2.index con = s.index con :=
      (fails_of_ne_success hkeep herr).index hkeep hfirst
    refine ⟨fun herr => ?_, hsecond, fun herr => ?_⟩
    · by_cases hlast : (lastPass console con pcs s).1 = SUCCESS
      · rw [registerConsole_of_succeeds hlast] at herr
        exact absurd rfl herr
      · rw [registerConsole_of_fails hlast]
        exact ⟨lastPass_active hkeep, lastPass_index hkeep hfirst hagain hlast⟩
    · by_cases hlast : (lastPass console con pcs s).1 = SUCCESS
      · obtain ⟨calls, hcalls, hexit, henabled⟩ := lastPass_success hkeep hsecond hlast
        obtain ⟨exits, hexits, hmap⟩ := exitActive_calls console (lastPass console con pcs s).2
        have hactive : exitsOf console (lastPass console con pcs s).2 = exitsOf console s := by
          rw [exitsOf, exitsOf, lastPass_active hkeep]
        rw [registerConsole_of_succeeds hlast]
        refine ⟨calls ++ exits, ?_, ?_, ?_⟩
        · dsimp only
          rw [hexits, hcalls, List.append_assoc]
        · obtain ⟨pc, hpc, henabled⟩ := henabled
          refine ⟨pc, hpc, henabled.imp (List.mem_append_left exits) fun hsetup => ⟨hsetup.1, ?_⟩⟩
          exact hsetup.2.imp_right (List.mem_append_left exits)
        · rw [exits_of_calls hexit hmap, hactive]
      · rw [registerConsole_of_fails hlast] at herr
        exact absurd herr (by dsimp only; decide)

end Whole

/-- A console whose `setup` always fails. -/
def refusing : Console Unit Unit :=
  ⟨[0x74, 0x74, 0x79, 0x53], some fun _ m => (-EINVAL, m), none, none⟩

theorem refusing_keeps : HooksKeep (fun _ => refusing) () where
  conMatch _ h := by cases h
  setup := by
    rintro setup ⟨⟩ options m
    rfl

/-- `console=ttyS3`. -/
def thirdPort : PreferredConsole := ⟨[0x74, 0x74, 0x79, 0x53], 3, 1, []⟩

/-- The console matches any port, and none is active. -/
def wildcard : State Unit Unit := ⟨⟨fun _ => -1, ()⟩, none, []⟩

theorem registersConsole_iff_thirdPort :
    RegistersConsole (fun _ => refusing) () [thirdPort] wildcard ↔
      ¬ Spoils (fun _ => refusing) () (-1) (listed 1 [thirdPort]) wildcard.toMachine ∧
        ∀ m, Fails (fun _ => refusing) () (-1) (listed 1 [thirdPort]) wildcard.toMachine m →
          ¬ Spoils (fun _ => refusing) () (-1) (listed 0 [thirdPort]) m :=
  registersConsole_iff refusing_keeps [thirdPort] wildcard

/-- The console is refused, and no longer matches any port. -/
theorem not_registersConsole_thirdPort : HooksKeep (fun _ => refusing) () ∧
    ¬ RegistersConsole (fun _ => refusing) () [thirdPort] wildcard := by
  refine ⟨refusing_keeps, ?_⟩
  intro h
  have hindex := (h.unchanged (by decide)).2
  revert hindex
  decide

end Cyanea.Consoles
