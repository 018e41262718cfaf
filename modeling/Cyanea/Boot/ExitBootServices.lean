/-
# Leaving the boot services

The model of `efi_exit_boot_services` in `efi-boot/efi.c`. The firmware is an adversary: it
answers the `n`-th call that is made to it as it likes, with any status, any map and any
key. A run records the calls with their answers.
-/

import Mathlib.Algebra.Group.Nat.Defs
import Mathlib.Data.List.Induction
import Mathlib.Data.Nat.Notation

namespace Cyanea.Boot

def EFI_SUCCESS : ℕ := 0

def EFI_LOAD_ERROR : ℕ := 1 ||| 1 <<< 63

def EFI_INVALID_PARAMETER : ℕ := 2 ||| 1 <<< 63

def EFI_BUFFER_TOO_SMALL : ℕ := 5 ||| 1 <<< 63

def EFI_LOADER_DATA : ℕ := 2

def EFI_MMAP_NR_SLACK_SLOTS : ℕ := 8

/-- `struct efi_boot_memmap`, with the descriptors as the bytes they are. -/
structure Memmap where
  map_size : ℕ
  desc_size : ℕ
  desc_ver : ℕ
  map_key : ℕ
  descs : List UInt8
  deriving DecidableEq, Repr

/-- `sizeof(struct efi_boot_memmap)`, without descriptors. -/
def sizeofMemmap : ℕ := 32

/-- A call of a boot service, with the arguments that matter here. -/
inductive Service
  | get_memory_map (map_size : ℕ)
  | allocate_pool (memory_type size : ℕ)
  | free_pool (addr : ℕ)
  | exit_boot_services (handle map_key : ℕ)
  deriving DecidableEq, Repr

/-- What the firmware answers: a status, and what it writes through the pointers it was
given, a map or an address. -/
structure Answer where
  status : ℕ
  memmap : Memmap
  addr : ℕ
  deriving DecidableEq, Repr

/-- The answer to the call that is made after `n` others. -/
abbrev Firmware := ℕ → Answer

/-- The calls so far, with their answers. -/
abbrev Trace := List (Service × Answer)

/-- `efi_bs_call`. -/
def efiBsCall (firmware : Firmware) (service : Service) : StateM Trace Answer :=
  fun trace => (firmware trace.length, trace ++ [(service, firmware trace.length)])

section Calls

variable (firmware : Firmware)

def efiAllocate (memory_type size : ℕ) : StateM Trace (ℕ × ℕ) := do
  let answer ← efiBsCall firmware (.allocate_pool memory_type size)
  return (answer.status, answer.addr)

def efiFree (addr : ℕ) : StateM Trace ℕ := do
  return (← efiBsCall firmware (.free_pool addr)).status

/-- The status, and what `*memmap` holds afterwards. -/
def efiGetMemoryMap (memmap : Memmap) : StateM Trace (ℕ × Memmap) := do
  let answer ← efiBsCall firmware (.get_memory_map memmap.map_size)
  return (answer.status, answer.memmap)

/-- The status that is returned, and the address and the contents of the map that `*memmap`
is set to. The contents of a fresh map are those of `fresh`. -/
def efiExitBootServices (handle : ℕ) (fresh : Memmap) :
    StateM Trace (ℕ × Option (ℕ × Memmap)) := do
  let (status, tmp) ← efiGetMemoryMap firmware { fresh with map_size := 0 }
  if status ≠ EFI_BUFFER_TOO_SMALL then
    return (EFI_LOAD_ERROR, none)
  else
    let size := (tmp.map_size + tmp.desc_size * EFI_MMAP_NR_SLACK_SLOTS) % 2 ^ 64
    let (status, addr) ← efiAllocate firmware EFI_LOADER_DATA ((sizeofMemmap + size) % 2 ^ 64)
    if status ≠ EFI_SUCCESS then
      return (status, none)
    else
      let (status, m) ← efiGetMemoryMap firmware { fresh with map_size := size }
      if status ≠ EFI_SUCCESS then
        let _ ← efiFree firmware addr
        return (status, none)
      else
        let answer ← efiBsCall firmware (.exit_boot_services handle m.map_key)
        if answer.status = EFI_INVALID_PARAMETER then
          let (status, m) ← efiGetMemoryMap firmware { m with map_size := size }
          if status ≠ EFI_SUCCESS then
            return (status, none)
          else
            let answer ← efiBsCall firmware (.exit_boot_services handle m.map_key)
            if answer.status ≠ EFI_SUCCESS then
              return (answer.status, none)
            else
              return (EFI_SUCCESS, some (addr, m))
        else
          return (EFI_SUCCESS, some (addr, m))

end Calls

/-! ## What a run should be -/

def Service.isExit : Service → Bool
  | .exit_boot_services _ _ => true
  | _ => false

def Service.isMap : Service → Bool
  | .get_memory_map _ => true
  | _ => false

/-- The last call of `exit_boot_services` succeeded, with the key that the most recent call
of `get_memory_map` before it had written into the map `m`. -/
def LeftWith (trace : Trace) (m : Memmap) : Prop :=
  ∃ before between behind size handle map exit,
    trace = before ++ (.get_memory_map size, map) :: between ++
      (.exit_boot_services handle m.map_key, exit) :: behind ∧
    (∀ call ∈ between, call.1.isMap = false) ∧ (∀ call ∈ behind, call.1.isExit = false) ∧
    exit.status = EFI_SUCCESS ∧ map.memmap = m

/-- Behind a call of `exit_boot_services` there are only such calls and those of
`get_memory_map`. -/
def QuietAfterExit (trace : Trace) : Prop :=
  ∀ before call behind, trace = before ++ call :: behind → call.1.isExit = true →
    ∀ later ∈ behind, later.1.isExit = true ∨ later.1.isMap = true

/-- A run reports success only when the boot services have been left with the map that it
returns, and does nothing else after it tried to leave them. -/
def LeavesProperly (firmware : Firmware) (handle : ℕ) (fresh : Memmap) : Prop :=
  let r := (efiExitBootServices firmware handle fresh).run []
  (r.1.1 = EFI_SUCCESS → ∃ addr m, r.1.2 = some (addr, m) ∧ LeftWith r.2 m) ∧
    QuietAfterExit r.2

/-! ## The runs -/

theorem quietAfterExit_nil : QuietAfterExit [] := by
  intro before call behind heq
  simp at heq

theorem quietAfterExit_cons {call : Service × Answer} {trace : Trace} :
    QuietAfterExit (call :: trace) ↔ (call.1.isExit = true →
      ∀ later ∈ trace, later.1.isExit = true ∨ later.1.isMap = true) ∧ QuietAfterExit trace := by
  constructor
  · intro h
    refine ⟨h [] call trace rfl, fun before call' behind heq => ?_⟩
    exact h (call :: before) call' behind (by rw [heq, List.cons_append])
  · rintro ⟨hcall, htrace⟩ before call' behind heq
    cases before with
    | nil =>
        obtain ⟨rfl, rfl⟩ : call = call' ∧ trace = behind := by simpa using heq
        exact hcall
    | cons first before =>
        obtain ⟨-, rfl⟩ : call = first ∧ trace = before ++ call' :: behind := by simpa using heq
        exact htrace before call' behind rfl

/-- Where a run ends with a call of `exit_boot_services`, that is the one that counts. -/
theorem LeftWith.last {trace : Trace} {handle key : ℕ} {answer : Answer} {m : Memmap}
    (h : LeftWith (trace ++ [(.exit_boot_services handle key, answer)]) m) :
    answer.status = EFI_SUCCESS := by
  obtain ⟨before, between, behind, size, handle', map, exit, heq, -, hbehind, hstatus, -⟩ := h
  cases behind using List.reverseRecOn with
  | nil =>
      obtain ⟨-, hlast⟩ := List.append_inj' heq rfl
      obtain ⟨-, rfl⟩ : _ ∧ answer = exit := by simpa using hlast
      exact hstatus
  | append_singleton behind call =>
      rw [← List.cons_append, ← List.append_assoc] at heq
      obtain ⟨-, hlast⟩ := List.append_inj' heq rfl
      obtain rfl : (.exit_boot_services handle key, answer) = call := by simpa using hlast
      cases hbehind _ (List.mem_append_right _ List.mem_cons_self)

section Runs

theorem state_pure {σ α : Type} (a : α) (s : σ) : StateT.pure (m := Id) a s = (a, s) := rfl

variable {firmware : Firmware} {handle : ℕ} {fresh : Memmap}

/-- Runs that do not get as far as leaving. -/
theorem leavesProperly_of_refused (h : ¬ ((firmware 0).status = EFI_BUFFER_TOO_SMALL ∧
    (firmware 1).status = EFI_SUCCESS ∧ (firmware 2).status = EFI_SUCCESS)) :
    LeavesProperly firmware handle fresh := by
  by_cases h0 : (firmware 0).status = EFI_BUFFER_TOO_SMALL
  · by_cases h1 : (firmware 1).status = EFI_SUCCESS
    · have h2 : (firmware 2).status ≠ EFI_SUCCESS := fun h2 => h ⟨h0, h1, h2⟩
      simp [LeavesProperly, efiExitBootServices, efiGetMemoryMap, efiAllocate, efiFree,
        efiBsCall, StateT.run, bind, StateT.bind, pure, state_pure, h0, h1, h2,
        quietAfterExit_cons, quietAfterExit_nil, Service.isExit]
    · simp [LeavesProperly, efiExitBootServices, efiGetMemoryMap, efiAllocate,
        efiBsCall, StateT.run, bind, StateT.bind, pure, state_pure, h0, h1,
        quietAfterExit_cons, quietAfterExit_nil, Service.isExit]
  · have herr : EFI_LOAD_ERROR ≠ EFI_SUCCESS := by decide
    simp [LeavesProperly, efiExitBootServices, efiGetMemoryMap,
      efiBsCall, StateT.run, bind, StateT.bind, pure, state_pure, h0, herr,
      quietAfterExit_cons, quietAfterExit_nil, Service.isExit]

/-- The calls that are made before the first one of `exit_boot_services`. -/
def prepared (firmware : Firmware) : Trace :=
  [(.get_memory_map 0, firmware 0),
    (.allocate_pool EFI_LOADER_DATA ((sizeofMemmap + ((firmware 0).memmap.map_size +
      (firmware 0).memmap.desc_size * EFI_MMAP_NR_SLACK_SLOTS) % 2 ^ 64) % 2 ^ 64), firmware 1),
    (.get_memory_map (((firmware 0).memmap.map_size +
      (firmware 0).memmap.desc_size * EFI_MMAP_NR_SLACK_SLOTS) % 2 ^ 64), firmware 2)]

theorem quietAfterExit_prepared (calls : Trace) :
    QuietAfterExit (prepared firmware ++ calls) ↔ QuietAfterExit calls := by
  simp [prepared, quietAfterExit_cons, Service.isExit]

variable (h0 : (firmware 0).status = EFI_BUFFER_TOO_SMALL)
  (h1 : (firmware 1).status = EFI_SUCCESS) (h2 : (firmware 2).status = EFI_SUCCESS)

include h0 h1 h2

/-- A first call of `exit_boot_services` that does not find its key out of date ends the
run with success, whatever else it answers. -/
theorem run_of_current (h3 : (firmware 3).status ≠ EFI_INVALID_PARAMETER) :
    (efiExitBootServices firmware handle fresh).run [] =
      ((EFI_SUCCESS, some ((firmware 1).addr, (firmware 2).memmap)), prepared firmware ++
        [(.exit_boot_services handle (firmware 2).memmap.map_key, firmware 3)]) := by
  simp [efiExitBootServices, efiGetMemoryMap, efiAllocate, efiBsCall, StateT.run, bind,
    StateT.bind, pure, state_pure, h0, h1, h2, h3, prepared]

/-- Otherwise the map is fetched again. -/
theorem run_of_stale (h3 : (firmware 3).status = EFI_INVALID_PARAMETER) :
    ∃ size, (efiExitBootServices firmware handle fresh).run [] =
      if (firmware 4).status ≠ EFI_SUCCESS then
        (((firmware 4).status, none), prepared firmware ++
          [(.exit_boot_services handle (firmware 2).memmap.map_key, firmware 3),
            (.get_memory_map size, firmware 4)])
      else
        ((if (firmware 5).status ≠ EFI_SUCCESS then ((firmware 5).status, none)
          else (EFI_SUCCESS, some ((firmware 1).addr, (firmware 4).memmap))),
          prepared firmware ++
          [(.exit_boot_services handle (firmware 2).memmap.map_key, firmware 3),
            (.get_memory_map size, firmware 4),
            (.exit_boot_services handle (firmware 4).memmap.map_key, firmware 5)]) := by
  refine ⟨((firmware 0).memmap.map_size +
      (firmware 0).memmap.desc_size * EFI_MMAP_NR_SLACK_SLOTS) % 2 ^ 64, ?_⟩
  by_cases h4 : (firmware 4).status = EFI_SUCCESS
  · by_cases h5 : (firmware 5).status = EFI_SUCCESS
    · simp [efiExitBootServices, efiGetMemoryMap, efiAllocate, efiBsCall, StateT.run, bind,
        StateT.bind, pure, state_pure, h0, h1, h2, h3, h4, h5, prepared]
    · simp [efiExitBootServices, efiGetMemoryMap, efiAllocate, efiBsCall, StateT.run, bind,
        StateT.bind, pure, state_pure, h0, h1, h2, h3, h4, h5, prepared]
  · simp [efiExitBootServices, efiGetMemoryMap, efiAllocate, efiBsCall, StateT.run, bind,
      StateT.bind, pure, state_pure, h0, h1, h2, h3, h4, prepared]

end Runs

/-- Success means that the boot services have been left exactly when the first call of
`exit_boot_services`, if it comes to that, answers one of the two statuses it is tested
for. -/
theorem leavesProperly_iff (firmware : Firmware) (handle : ℕ) (fresh : Memmap) :
    LeavesProperly firmware handle fresh ↔ ((firmware 0).status = EFI_BUFFER_TOO_SMALL →
      (firmware 1).status = EFI_SUCCESS → (firmware 2).status = EFI_SUCCESS →
      (firmware 3).status = EFI_SUCCESS ∨ (firmware 3).status = EFI_INVALID_PARAMETER) := by
  constructor
  · intro h h0 h1 h2
    by_contra h3
    rw [not_or] at h3
    rw [LeavesProperly, run_of_current h0 h1 h2 h3.2] at h
    obtain ⟨addr, m, -, hleft⟩ := h.1 rfl
    exact h3.1 hleft.last
  · intro h
    by_cases hprep : (firmware 0).status = EFI_BUFFER_TOO_SMALL ∧
        (firmware 1).status = EFI_SUCCESS ∧ (firmware 2).status = EFI_SUCCESS
    · obtain ⟨h0, h1, h2⟩ := hprep
      by_cases h3 : (firmware 3).status = EFI_INVALID_PARAMETER
      · obtain ⟨size, hrun⟩ : ∃ size, (efiExitBootServices firmware handle fresh).run [] = _ :=
          run_of_stale h0 h1 h2 h3
        rw [LeavesProperly, hrun]
        by_cases h4 : (firmware 4).status = EFI_SUCCESS
        · rw [if_neg (not_not.2 h4)]
          constructor
          · by_cases h5 : (firmware 5).status = EFI_SUCCESS
            · rw [if_neg (not_not.2 h5)]
              intro _
              refine ⟨_, _, rfl, prepared firmware ++ [(.exit_boot_services handle
                (firmware 2).memmap.map_key, firmware 3)], [], [], size, handle, firmware 4,
                firmware 5, ?_, nofun, nofun, h5, rfl⟩
              simp
            · rw [if_pos h5]
              exact fun h => absurd h h5
          · rw [quietAfterExit_prepared]
            simp [quietAfterExit_cons, quietAfterExit_nil, Service.isExit, Service.isMap]
        · rw [if_pos h4]
          refine ⟨fun h => absurd h h4, ?_⟩
          rw [quietAfterExit_prepared]
          simp [quietAfterExit_cons, quietAfterExit_nil, Service.isExit, Service.isMap]
      · have h3' := (h h0 h1 h2).resolve_right h3
        rw [LeavesProperly, run_of_current h0 h1 h2 h3]
        refine ⟨fun _ => ⟨_, _, rfl, ?_⟩, ?_⟩
        · refine ⟨(prepared firmware).take 2, [], [], _, handle, firmware 2, firmware 3, rfl, nofun,
            nofun, h3', rfl⟩
        · rw [quietAfterExit_prepared]
          simp [quietAfterExit_cons, quietAfterExit_nil]
    · exact leavesProperly_of_refused hprep

/-- A firmware whose only unexpected answer is `EFI_LOAD_ERROR` to `exit_boot_services`. -/
theorem not_leavesProperly_loadError :
    ¬ LeavesProperly (fun n => ⟨[EFI_BUFFER_TOO_SMALL, EFI_SUCCESS, EFI_SUCCESS,
        EFI_LOAD_ERROR].getD n 0, ⟨48, 48, 1, 7, []⟩, 0x1000⟩) 1 ⟨0, 0, 0, 0, []⟩ := by
  intro h
  rw [LeavesProperly, run_of_current rfl rfl rfl (by decide)] at h
  obtain ⟨addr, m, -, hleft⟩ := h.1 rfl
  exact absurd hleft.last (by decide)

end Cyanea.Boot
