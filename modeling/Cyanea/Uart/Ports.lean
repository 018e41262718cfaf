/-
# The table of UART ports

The model of `register_uart_port` and `__find_match_port` in `drivers/uart_core.c`. The
table has `UART_NR` slots, zeroed at boot. A search compares all of them, so that an empty
slot, whose zeroes read as the I/O port at address 0, can be what it finds.
-/

import Cyanea.Errno
import Mathlib.Data.List.Induction
import Mathlib.Data.Nat.Notation

namespace Cyanea.Uart

def PORT_UNKNOWN : ℕ := 0

def PORT_8250 : ℕ := 1

/-- 8-bit I/O port access. -/
def UART_IO_PORT : ℕ := 0

/-- Driver specific access. -/
def UART_IO_MEM : ℕ := 1

/-- `struct uart_port`. The members of the union `io` share one word. -/
structure UartPort where
  up_name : List UInt8
  type : ℕ
  io_type : ℕ
  io : BitVec 64
  index : ℤ
  uart_clock : ℕ
  poll_putchar : ℕ
  deriving DecidableEq, Repr

/-- `io.port`. -/
def UartPort.port (up : UartPort) : BitVec 16 := up.io.setWidth 16

/-- `io.mem`. -/
def UartPort.mem (up : UartPort) : BitVec 64 := up.io

/-- A slot at boot. -/
def UartPort.zeroed : UartPort := ⟨[], PORT_UNKNOWN, UART_IO_PORT, 0, 0, 0, 0⟩

def uartMatchPort (up1 up2 : UartPort) : Bool :=
  if up1.io_type ≠ up2.io_type then false
  else if up1.io_type = UART_IO_PORT then up1.port == up2.port
  else if up1.io_type = UART_IO_MEM then up1.mem == up2.mem
  else false

/-- The port as slot `i` keeps it. -/
def UartPort.inSlot (up : UartPort) (i : ℕ) : UartPort := { up with index := i }

/-- The index of the port that `__find_match_port` points to. -/
def findMatchPort (uart_ports : List UartPort) (up : UartPort) : Option ℕ :=
  uart_ports.findIdx? fun p => uartMatchPort p up

/-- What is returned, and the table. -/
def registerUartPort (uart_ports : List UartPort) (up : UartPort) : ℤ × List UartPort :=
  if up.uart_clock = 0 then (-EINVAL, uart_ports)
  else if (findMatchPort uart_ports up).isSome then (-EEXIST, uart_ports)
  else
    match uart_ports.findIdx? fun p => p.type = PORT_UNKNOWN with
    | none => (-ENOSPC, uart_ports)
    | some i => (SUCCESS, uart_ports.set i (up.inSlot i))

/-! ## Sequences of calls -/

inductive Call
  | register_uart_port (up : UartPort)
  | find_match_port (up : UartPort)

/-- The table, and the ports whose registration succeeded, in this order. -/
structure Session where
  uart_ports : List UartPort
  registered : List UartPort

def Session.step (s : Session) : Call → Session
  | .register_uart_port up =>
    let (err, uart_ports) := registerUartPort s.uart_ports up
    ⟨uart_ports, if err = SUCCESS then s.registered ++ [up] else s.registered⟩
  | .find_match_port _ => s

/-- The session after the calls, from the zeroed table on. -/
def after (UART_NR : ℕ) (calls : List Call) : Session :=
  calls.foldl Session.step ⟨List.replicate UART_NR .zeroed, []⟩

/-! ## What is asked for -/

/-- The address that the port has under its access style. -/
def UartPort.address (up : UartPort) : Option ℕ :=
  if up.io_type = UART_IO_PORT then some up.port.toNat
  else if up.io_type = UART_IO_MEM then some up.mem.toNat
  else none

/-- The two have the same access style, and the same address under it. -/
def SameAddress (p q : UartPort) : Prop :=
  p.io_type = q.io_type ∧ ∃ a, p.address = some a ∧ q.address = some a

/-- The slots hold the registered ports, with their index, and the others are as at boot. -/
def layout (UART_NR : ℕ) (registered : List UartPort) : List UartPort :=
  registered.mapIdx (fun i up => up.inSlot i) ++
    List.replicate (UART_NR - registered.length) .zeroed

/-- The registered ports differ, and are what the table holds. -/
structure InOrder (UART_NR : ℕ) (s : Session) : Prop where
  differ : s.registered.Pairwise fun p q => ¬ SameAddress p q
  uart_ports_eq : s.uart_ports = layout UART_NR s.registered

/-- What a call returns in a session, and what it leaves. -/
def AsPromised (UART_NR : ℕ) (s : Session) : Call → Prop
  | .register_uart_port up =>
    let err := (registerUartPort s.uart_ports up).1
    let exists? := ∃ p ∈ s.registered, SameAddress p up
    (err = -EEXIST ↔ exists?) ∧
      (err = -ENOSPC ↔ ¬ exists? ∧ s.registered.length = UART_NR) ∧
      (err = SUCCESS ↔ ¬ exists? ∧ s.registered.length < UART_NR) ∧
      InOrder UART_NR (s.step (.register_uart_port up))
  | .find_match_port up =>
    ∀ i, findMatchPort s.uart_ports up = some i →
      ∃ p, s.uart_ports[i]? = some p ∧ p.type ≠ PORT_UNKNOWN

/-- The arguments that callers give. -/
def Call.Valid : Call → Prop
  | .register_uart_port up => up.uart_clock ≠ 0 ∧ up.type ≠ PORT_UNKNOWN
  | .find_match_port _ => True

/-- The port that a call looks for. -/
def Call.up : Call → UartPort
  | .register_uart_port up | .find_match_port up => up

/-- The call does not look for the I/O port at address 0 while there is an empty slot. -/
def Call.Told (uart_ports : List UartPort) (call : Call) : Prop :=
  call.up.io_type = UART_IO_PORT → call.up.port = 0 → ∀ p ∈ uart_ports, p.type ≠ PORT_UNKNOWN

/-! ## Searching -/

/-- The port is what an empty slot looks like. -/
def UartPort.LooksEmpty (up : UartPort) : Prop := up.io_type = UART_IO_PORT ∧ up.port = 0

section Search

variable {UART_NR : ℕ} {registered : List UartPort} {p q up : UartPort}

theorem uartMatchPort_iff : uartMatchPort p q = true ↔ SameAddress p q := by
  rw [uartMatchPort, SameAddress, UartPort.address, UartPort.address]
  by_cases htype : p.io_type = q.io_type
  · by_cases hport : q.io_type = UART_IO_PORT
    · simp [htype, hport, ← BitVec.toNat_inj, eq_comm (a := q.port.toNat)]
    · by_cases hmem : q.io_type = UART_IO_MEM
      · have hne : ¬ UART_IO_MEM = UART_IO_PORT := by decide
        simp [htype, hmem, hne, ← BitVec.toNat_inj, eq_comm (a := q.mem.toNat)]
      · simp [htype, hport, hmem]
  · simp [htype]

theorem uartMatchPort_zeroed : uartMatchPort .zeroed up = true ↔ up.LooksEmpty := by
  rw [uartMatchPort, UartPort.LooksEmpty]
  by_cases htype : up.io_type = UART_IO_PORT
  · simp [UartPort.zeroed, UartPort.port, htype, eq_comm (a := 0#16)]
  · simp [UartPort.zeroed, htype, Ne.symm htype]

theorem mem_layout : p ∈ layout UART_NR registered ↔
    (∃ i, ∃ h : i < registered.length, registered[i].inSlot i = p) ∨
      registered.length < UART_NR ∧ p = .zeroed := by
  rw [layout, List.mem_append, List.mem_mapIdx, List.mem_replicate, Nat.sub_ne_zero_iff_lt]

theorem getElem?_layout {i : ℕ} (h : i < registered.length) :
    (layout UART_NR registered)[i]? = some (registered[i].inSlot i) := by
  rw [layout, List.getElem?_append_left (by rwa [List.length_mapIdx]), List.getElem?_mapIdx,
    List.getElem?_eq_getElem h, Option.map_some]

theorem set_layout (h : registered.length < UART_NR) :
    (layout UART_NR registered).set registered.length (up.inSlot registered.length) =
      layout UART_NR (registered ++ [up]) := by
  obtain ⟨n, hn⟩ : ∃ n, UART_NR - registered.length = n + 1 := ⟨_, (Nat.succ_pred (by omega)).symm⟩
  have hn' : UART_NR - (registered ++ [up]).length = n := by
    rw [List.length_append, List.length_singleton]
    omega
  rw [layout, layout, hn, hn', List.replicate_succ, List.set_append_right _ _ (by simp),
    List.length_mapIdx, Nat.sub_self, List.set_cons_zero, List.mapIdx_concat, List.append_assoc,
    List.singleton_append]

/-- The search finds a registered port, or an empty slot. -/
theorem findMatchPort_layout :
    (findMatchPort (layout UART_NR registered) up).isSome ↔
      (∃ p ∈ registered, SameAddress p up) ∨
        registered.length < UART_NR ∧ up.LooksEmpty := by
  rw [findMatchPort, List.findIdx?_isSome, List.any_eq_true]
  constructor
  · rintro ⟨p, hp, hmatch⟩
    obtain ⟨i, hi, rfl⟩ | ⟨hlt, rfl⟩ := mem_layout.mp hp
    · exact .inl ⟨registered[i], List.getElem_mem hi, uartMatchPort_iff.mp hmatch⟩
    · exact .inr ⟨hlt, uartMatchPort_zeroed.mp hmatch⟩
  · rintro (⟨p, hp, hsame⟩ | ⟨hlt, hempty⟩)
    · obtain ⟨i, hi, rfl⟩ := List.mem_iff_getElem.mp hp
      exact ⟨registered[i].inSlot i, mem_layout.mpr (.inl ⟨i, hi, rfl⟩),
        uartMatchPort_iff.mpr hsame⟩
    · exact ⟨.zeroed, mem_layout.mpr (.inr ⟨hlt, rfl⟩), uartMatchPort_zeroed.mpr hempty⟩

/-- The first empty slot is the one behind the registered ports. -/
theorem findIdx?_unknown (hknown : ∀ p ∈ registered, p.type ≠ PORT_UNKNOWN) :
    ((layout UART_NR registered).findIdx? fun p => p.type = PORT_UNKNOWN) =
      if registered.length < UART_NR then some registered.length else none := by
  have hnone : ((registered.mapIdx fun i up => up.inSlot i).findIdx?
      fun p => p.type = PORT_UNKNOWN) = none := by
    rw [List.findIdx?_eq_none_iff]
    intro p hp
    obtain ⟨i, hi, rfl⟩ := List.mem_mapIdx.mp hp
    exact decide_eq_false (hknown registered[i] (List.getElem_mem hi))
  rw [layout, List.findIdx?_append, hnone, Option.none_or, List.findIdx?_replicate]
  by_cases hlt : registered.length < UART_NR
  · rw [if_pos hlt, if_pos ⟨Nat.sub_pos_of_lt hlt, rfl⟩, Option.map_some, List.length_mapIdx,
      Nat.zero_add]
  · rw [if_neg hlt, if_neg fun h => hlt (Nat.lt_of_sub_pos h.1), Option.map_none]

variable (UART_NR) in
/-- What a registration comes to. -/
theorem registerUartPort_cases (hknown : ∀ p ∈ registered, p.type ≠ PORT_UNKNOWN)
    (hclock : up.uart_clock ≠ 0) :
    (((∃ p ∈ registered, SameAddress p up) ∨ registered.length < UART_NR ∧ up.LooksEmpty) ∧
      registerUartPort (layout UART_NR registered) up =
        (-EEXIST, layout UART_NR registered)) ∨
    (¬ ((∃ p ∈ registered, SameAddress p up) ∨ registered.length < UART_NR ∧ up.LooksEmpty) ∧
      registered.length < UART_NR ∧ registerUartPort (layout UART_NR registered) up =
        (SUCCESS, layout UART_NR (registered ++ [up]))) ∨
    (¬ ((∃ p ∈ registered, SameAddress p up) ∨ registered.length < UART_NR ∧ up.LooksEmpty) ∧
      ¬ registered.length < UART_NR ∧ registerUartPort (layout UART_NR registered) up =
        (-ENOSPC, layout UART_NR registered)) := by
  rw [registerUartPort, if_neg hclock, findIdx?_unknown hknown, ← findMatchPort_layout]
  by_cases hfound : (findMatchPort (layout UART_NR registered) up).isSome
  · exact .inl ⟨hfound, if_pos hfound⟩
  · rw [if_neg hfound]
    by_cases hlt : registered.length < UART_NR
    · rw [if_pos hlt]
      exact .inr (.inl ⟨hfound, hlt, by rw [← set_layout hlt]⟩)
    · rw [if_neg hlt]
      exact .inr (.inr ⟨hfound, hlt, rfl⟩)

end Search

/-! ## A step -/

/-- What the calls keep, as long as the table is not searched for an empty slot. -/
structure Good (UART_NR : ℕ) (s : Session) : Prop extends InOrder UART_NR s where
  known : ∀ p ∈ s.registered, p.type ≠ PORT_UNKNOWN
  plain : ∀ p ∈ s.registered, ¬ p.LooksEmpty
  length_le : s.registered.length ≤ UART_NR

section Step

variable {UART_NR : ℕ} {s : Session} {up : UartPort} {call : Call}

theorem SameAddress.looksEmpty {p q : UartPort} (h : SameAddress p q) (hq : q.LooksEmpty) :
    p.LooksEmpty := by
  obtain ⟨htype, a, hp, hq'⟩ := h
  have hp' : p.io_type = UART_IO_PORT := htype.trans hq.1
  rw [UartPort.address, if_pos hp'] at hp
  rw [UartPort.address, if_pos hq.1, hq.2, ← hp] at hq'
  exact ⟨hp', BitVec.eq_of_toNat_eq (Option.some.inj hq').symm⟩

theorem Good.not_same (h : Good UART_NR s) (hup : up.LooksEmpty) :
    ¬ ∃ p ∈ s.registered, SameAddress p up := by
  rintro ⟨p, hp, hsame⟩
  exact h.plain p hp (hsame.looksEmpty hup)

theorem Good.told_iff (h : Good UART_NR s) :
    call.Told s.uart_ports ↔ ¬ (s.registered.length < UART_NR ∧ call.up.LooksEmpty) := by
  rw [Call.Told, h.uart_ports_eq]
  constructor
  · rintro htold ⟨hlt, htype, hport⟩
    exact htold htype hport .zeroed (mem_layout.mpr (.inr ⟨hlt, rfl⟩)) rfl
  · intro hnot htype hport p hp
    obtain ⟨i, hi, rfl⟩ | ⟨hlt, -⟩ := mem_layout.mp hp
    · exact h.known s.registered[i] (List.getElem_mem hi)
    · exact absurd ⟨hlt, htype, hport⟩ hnot

theorem good_start (UART_NR : ℕ) : Good UART_NR ⟨List.replicate UART_NR .zeroed, []⟩ where
  differ := .nil
  uart_ports_eq := rfl
  known := by simp
  plain := by simp
  length_le := Nat.zero_le _

theorem step_register {err : ℤ} {uart_ports : List UartPort}
    (h : registerUartPort s.uart_ports up = (err, uart_ports)) :
    s.step (.register_uart_port up) =
      ⟨uart_ports, if err = SUCCESS then s.registered ++ [up] else s.registered⟩ := by
  rw [Session.step, h]

/-- The port is added behind the others. -/
theorem Good.add (h : Good UART_NR s) (hknown : up.type ≠ PORT_UNKNOWN)
    (hplain : ¬ up.LooksEmpty) (hnew : ¬ ∃ p ∈ s.registered, SameAddress p up)
    (hlt : s.registered.length < UART_NR) :
    Good UART_NR ⟨layout UART_NR (s.registered ++ [up]), s.registered ++ [up]⟩ where
  differ := by
    refine List.pairwise_append.mpr ⟨h.differ, List.pairwise_singleton _ _, ?_⟩
    intro p hp q hq hsame
    obtain rfl := List.mem_singleton.mp hq
    exact hnew ⟨p, hp, hsame⟩
  uart_ports_eq := rfl
  known := List.forall_mem_append.mpr ⟨h.known, List.forall_mem_singleton.mpr hknown⟩
  plain := List.forall_mem_append.mpr ⟨h.plain, List.forall_mem_singleton.mpr hplain⟩
  length_le := by
    rw [List.length_append, List.length_singleton]
    exact hlt

theorem Good.register (h : Good UART_NR s) (hvalid : (Call.register_uart_port up).Valid)
    (htold : (Call.register_uart_port up).Told s.uart_ports) :
    AsPromised UART_NR s (.register_uart_port up) ∧
      Good UART_NR (s.step (.register_uart_port up)) := by
  have hempty := h.told_iff.mp htold
  have hle := h.length_le
  have hcases := registerUartPort_cases UART_NR h.known hvalid.1
  rw [← h.uart_ports_eq] at hcases
  obtain ⟨hfound, hreg⟩ | ⟨hfound, hlt, hreg⟩ | ⟨hfound, hlt, hreg⟩ := hcases
  · have hexists := hfound.resolve_right hempty
    have hstep : s.step (.register_uart_port up) = s := step_register hreg
    rw [AsPromised, hreg, hstep]
    dsimp only
    exact ⟨⟨iff_of_true rfl hexists, iff_of_false (by decide) fun hnew => hnew.1 hexists,
      iff_of_false (by decide) fun hnew => hnew.1 hexists, h.toInOrder⟩, h⟩
  · have hnew := fun hexists => hfound (.inl hexists)
    have hgood := h.add hvalid.2 (fun hup => hfound (.inr ⟨hlt, hup⟩)) hnew hlt
    have hstep := step_register hreg
    rw [if_pos rfl] at hstep
    rw [← hstep] at hgood
    rw [AsPromised, hreg]
    dsimp only
    exact ⟨⟨iff_of_false (by decide) hnew, iff_of_false (by decide) fun hfull => Nat.ne_of_lt hlt hfull.2,
      iff_of_true rfl ⟨hnew, hlt⟩, hgood.toInOrder⟩, hgood⟩
  · have hnew := fun hexists => hfound (.inl hexists)
    have hstep : s.step (.register_uart_port up) = s := step_register hreg
    rw [AsPromised, hreg, hstep]
    dsimp only
    exact ⟨⟨iff_of_false (by decide) hnew, iff_of_true rfl ⟨hnew, by omega⟩,
      iff_of_false (by decide) fun hroom => hlt hroom.2, h.toInOrder⟩, h⟩

/-- What the search finds in an empty slot is taken for a registered port. -/
theorem Good.not_promised (h : Good UART_NR s) (hvalid : call.Valid)
    (hempty : s.registered.length < UART_NR ∧ call.up.LooksEmpty) :
    ¬ AsPromised UART_NR s call := by
  have hnew := h.not_same hempty.2
  have hfound : (findMatchPort s.uart_ports call.up).isSome := by
    rw [h.uart_ports_eq]
    exact findMatchPort_layout.mpr (.inr hempty)
  intro hpromised
  cases call with
  | register_uart_port up =>
      have herr : (registerUartPort s.uart_ports up).1 = -EEXIST := by
        rw [registerUartPort, if_neg hvalid.1]
        exact congrArg Prod.fst (if_pos hfound)
      exact hnew (hpromised.1.mp herr)
  | find_match_port up =>
      obtain ⟨i, hi⟩ := Option.isSome_iff_exists.mp hfound
      obtain ⟨p, hp, hknown⟩ := hpromised i hi
      obtain ⟨hlt, hmatch, -⟩ := List.findIdx?_eq_some_iff_getElem.mp hi
      obtain rfl := Option.some.inj ((List.getElem?_eq_getElem hlt).symm.trans hp)
      have hmem := List.getElem_mem hlt
      generalize s.uart_ports[i] = p at hmatch hmem hknown
      rw [h.uart_ports_eq] at hmem
      obtain ⟨j, hj, rfl⟩ | ⟨-, rfl⟩ := mem_layout.mp hmem
      · exact hnew ⟨s.registered[j], List.getElem_mem hj, uartMatchPort_iff.mp hmatch⟩
      · exact hknown rfl

theorem Good.find (h : Good UART_NR s)
    (htold : (Call.find_match_port up).Told s.uart_ports) :
    AsPromised UART_NR s (.find_match_port up) := by
  have hempty := h.told_iff.mp htold
  intro i hi
  obtain ⟨hlt, hmatch, -⟩ := List.findIdx?_eq_some_iff_getElem.mp hi
  refine ⟨s.uart_ports[i], List.getElem?_eq_getElem hlt, ?_⟩
  have hmem := List.getElem_mem hlt
  generalize s.uart_ports[i] = p at hmatch hmem ⊢
  rw [h.uart_ports_eq] at hmem
  obtain ⟨j, hj, rfl⟩ | ⟨hroom, rfl⟩ := mem_layout.mp hmem
  · exact h.known s.registered[j] (List.getElem_mem hj)
  · exact absurd ⟨hroom, uartMatchPort_zeroed.mp hmatch⟩ hempty

/-- In a good session a call does what it should exactly if it is told from an empty slot,
and then the session stays good. -/
theorem Good.promised_iff (h : Good UART_NR s) (hvalid : call.Valid) :
    AsPromised UART_NR s call ↔ call.Told s.uart_ports := by
  constructor
  · intro hpromised
    rw [h.told_iff]
    exact fun hempty => h.not_promised hvalid hempty hpromised
  · intro htold
    cases call with
    | register_uart_port up => exact (h.register hvalid htold).1
    | find_match_port up => exact h.find htold

theorem Good.step (h : Good UART_NR s) (hvalid : call.Valid) (htold : call.Told s.uart_ports) :
    Good UART_NR (s.step call) := by
  cases call with
  | register_uart_port up => exact (h.register hvalid htold).2
  | find_match_port up => exact h

end Step

/-! ## Runs -/

theorem after_concat (UART_NR : ℕ) (calls : List Call) (call : Call) :
    after UART_NR (calls ++ [call]) = (after UART_NR calls).step call := by
  rw [after, after, List.foldl_append, List.foldl_cons, List.foldl_nil]

/-- The sessions are good as long as every call is told from an empty slot where it is
made. -/
theorem good_after {UART_NR : ℕ} {calls : List Call} (hvalid : ∀ call ∈ calls, call.Valid)
    (htold : ∀ before call behind, calls = before ++ call :: behind →
      Good UART_NR (after UART_NR before) → call.Told (after UART_NR before).uart_ports) :
    Good UART_NR (after UART_NR calls) := by
  induction calls using List.reverseRecOn with
  | nil => exact good_start UART_NR
  | append_singleton calls call ih =>
      obtain ⟨hvalid, hcall⟩ := List.forall_mem_append.mp hvalid
      have hgood : Good UART_NR (after UART_NR calls) := by
        apply ih hvalid
        rintro before call' behind rfl
        apply htold before call' (behind ++ [call])
        rw [List.append_assoc, List.cons_append]
      rw [after_concat]
      exact hgood.step (List.forall_mem_singleton.mp hcall) (htold calls call [] rfl hgood)

/-- All calls of a sequence do what they should exactly if none of them looks for the I/O
port at address 0 while there is an empty slot. -/
theorem asPromised_iff {UART_NR : ℕ} {calls : List Call} (hvalid : ∀ call ∈ calls, call.Valid) :
    (∀ before call behind, calls = before ++ call :: behind →
      AsPromised UART_NR (after UART_NR before) call) ↔
    ∀ before call behind, calls = before ++ call :: behind →
      call.Told (after UART_NR before).uart_ports := by
  have hsplit : ∀ {before call behind}, calls = before ++ call :: behind →
      (∀ call ∈ before, call.Valid) ∧ call.Valid := by
    rintro before call behind rfl
    obtain ⟨hbefore, hrest⟩ := List.forall_mem_append.mp hvalid
    exact ⟨hbefore, hrest call List.mem_cons_self⟩
  have hmore : ∀ {before call behind before' call' behind'}, calls = before ++ call :: behind →
      before = before' ++ call' :: behind' → ∃ rest, calls = before' ++ call' :: rest := by
    rintro before call behind before' call' behind' rfl rfl
    exact ⟨behind' ++ call :: behind, by rw [List.append_assoc, List.cons_append]⟩
  constructor
  · intro hall before call behind hcalls
    obtain ⟨hbefore, hcall⟩ := hsplit hcalls
    have hgood : Good UART_NR (after UART_NR before) := by
      apply good_after hbefore
      intro before' call' behind' hbefore' hgood
      obtain ⟨rest, hrest⟩ := hmore hcalls hbefore'
      exact (hgood.promised_iff (hsplit hrest).2).mp (hall before' call' rest hrest)
    exact (hgood.promised_iff hcall).mp (hall before call behind hcalls)
  · intro hall before call behind hcalls
    obtain ⟨hbefore, hcall⟩ := hsplit hcalls
    have hgood : Good UART_NR (after UART_NR before) := by
      apply good_after hbefore
      intro before' call' behind' hbefore' _
      obtain ⟨rest, hrest⟩ := hmore hcalls hbefore'
      exact hall before' call' rest hrest
    exact (hgood.promised_iff hcall).mpr (hall before call behind hcalls)

/-- An 8250 port at an I/O address. -/
def serialPort (port : BitVec 16) : UartPort :=
  ⟨[0x74, 0x74, 0x79, 0x53], PORT_8250, UART_IO_PORT, port.setWidth 64, 0, 115200 * 16, 1⟩

/-- Two ports, one of them a second time. -/
def threeCalls : List Call :=
  [.register_uart_port (serialPort 0x3f8), .register_uart_port (serialPort 0x2f8),
    .register_uart_port (serialPort 0x3f8)]

theorem asPromised_iff_three :
    (∀ before call behind, threeCalls = before ++ call :: behind →
      AsPromised 4 (after 4 before) call) ↔
    ∀ before call behind, threeCalls = before ++ call :: behind →
      call.Told (after 4 before).uart_ports :=
  asPromised_iff (by simp [threeCalls, Call.Valid, serialPort, PORT_8250, PORT_UNKNOWN])

/-- The first port to be registered is the one at address 0, and counts as registered. -/
theorem not_asPromised_zero :
    (Call.register_uart_port (serialPort 0)).Valid ∧
      ¬ AsPromised 4 (after 4 []) (.register_uart_port (serialPort 0)) := by
  refine ⟨⟨by decide, by decide⟩, ?_⟩
  intro h
  obtain ⟨p, hp, -⟩ := h.1.mp (by decide)
  cases hp

end Cyanea.Uart
