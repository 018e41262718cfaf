/-
# The 8250 console

The model of the console hooks in `drivers/uart/8250.c` and of `uart_io_parse_option` and
`uart_poll_put_char` in `drivers/uart_core.c`. The port that is set up and written to is
`uart_ports[con->index]`, without a test of the index. What is around the table, and what
the device answers, are parameters; the indices at which the table is accessed for the
console are recorded.
-/

import Cyanea.Consoles.Register
import Cyanea.IoBuffer.Strtox
import Cyanea.Uart.Ports
import Mathlib.Data.List.TakeWhile

namespace Cyanea.Uart

open Consoles (PreferredConsole Machine Console Hook State)
open Math.Simulation (Turn)

/-! ## The port -/

/-- An access to an I/O port, with the value that is read or written. -/
inductive Io
  | inb (port value : ℕ)
  | outb (value port : ℕ)
  deriving DecidableEq, Repr

def UART_THR : ℕ := 0
def UART_DLL : ℕ := 0
def UART_DLH : ℕ := 1
def UART_IER : ℕ := 1
def UART_FCR : ℕ := 2
def UART_LCR : ℕ := 3
def UART_MCR : ℕ := 4
def UART_LSR : ℕ := 5

def UART_LCR_DLAB : ℕ := 0x80
def UART_LCR_WLEN8 : ℕ := 0x03
def UART_MCR_RTS : ℕ := 0x02
def UART_MCR_DTR : ℕ := 0x01
def UART_LSR_TEMT : ℕ := 0x40
def UART_LSR_THRE : ℕ := 0x20

section Device

variable (device : List Io → ℕ → ℕ)

def uartIn (up : UartPort) (offset : ℕ) : StateM (List Io) ℕ := fun io =>
  if up.io_type = UART_IO_PORT then
    let port := (up.port.toNat + offset) % 2 ^ 16
    (device io port % 2 ^ 8, io ++ [.inb port (device io port % 2 ^ 8)])
  else (0, io)

def uartOut (up : UartPort) (offset value : ℕ) : StateM (List Io) Unit := fun io =>
  if up.io_type = UART_IO_PORT then
    ((), io ++ [.outb (value % 2 ^ 8) ((up.port.toNat + offset) % 2 ^ 16)])
  else ((), io)

/-- `wait_for_lsr`, with `t` turns left. -/
def waitForLsr (up : UartPort) (bits : ℕ) : (t : ℕ) → StateM (List Io) Unit
  | 0 => return ()
  | t + 1 => do
    let status ← uartIn device up UART_LSR
    if status &&& bits = bits then return () else waitForLsr up bits t

def setSpeed (up : UartPort) (speed : ℕ) : StateM (List Io) Unit := do
  let divisor := up.uart_clock / (speed * 16)
  let c ← uartIn device up UART_LCR
  uartOut up UART_LCR (c ||| UART_LCR_DLAB)
  uartOut up UART_DLL (divisor &&& 0xFF)
  uartOut up UART_DLH ((divisor >>> 8) &&& 0xFF)
  uartOut up UART_LCR c

def putchar (up : UartPort) (c : ℕ) : StateM (List Io) Unit := do
  waitForLsr device up UART_LSR_THRE 10000
  uartOut up UART_THR c

def setupPort (up : UartPort) (speed : ℕ) : StateM (List Io) ℤ := do
  uartOut up UART_IER 0
  waitForLsr device up (UART_LSR_TEMT ||| UART_LSR_THRE) 10000
  uartOut up UART_MCR 0
  uartOut up UART_FCR 0
  uartOut up UART_LCR UART_LCR_WLEN8
  setSpeed device up speed
  uartOut up UART_MCR (UART_MCR_DTR ||| UART_MCR_RTS)
  return SUCCESS

def exitPort (up : UartPort) : StateM (List Io) ℤ := do
  waitForLsr device up (UART_LSR_TEMT ||| UART_LSR_THRE) 10000
  uartOut up UART_MCR 0
  return SUCCESS

end Device

/-! ## Options -/

/-- The string that an array of characters holds. -/
def stringOf (chars : List UInt8) : CString :=
  ⟨chars.takeWhile (· ≠ 0), by
    intro h
    have hne := List.mem_takeWhile_imp h
    simp at hne⟩

/-- `strtoul(p, 0, &addr)`. -/
def strtoul (p : List UInt8) : Option ℕ :=
  match IoBuffer.strtoull (stringOf p) 0 0 with
  | some (.ok result) => some result
  | _ => none

/-- `strchr(p, ',')`, and behind it. -/
def behindComma (p : List UInt8) : Option (List UInt8) :=
  match p.dropWhile (· ≠ code ',') with
  | [] => none
  | _ :: options => some options

/-- `*io_type`, `*addr` and `*options`, if the option is parsed. -/
def uartIoParseOption (p : List UInt8) : Option (ℕ × ℕ × Option (List UInt8)) :=
  if [code 'i', code 'o', code ','].isPrefixOf p then do
    let p := p.drop 3
    return (UART_IO_PORT, ← strtoul p, behindComma p)
  else if [code '0', code 'x'].isPrefixOf p then do
    return (UART_IO_MEM, ← strtoul p, behindComma p)
  else none

/-! ## The hooks -/

/-- What the hooks work on: the table, the indices at which it has been accessed for the
console, `con->speed`, and the accesses to the device. -/
structure World where
  uart_ports : List UartPort
  accesses : List ℤ
  speed : ℕ
  io : List Io
  deriving DecidableEq, Repr

section Hooks

variable {ι : Type} [DecidableEq ι] (device : List Io → ℕ → ℕ) (around : ℤ → UartPort) (con : ι)

/-- `uart_ports[index]`. Outside of the table there is something else. -/
def portAt (uart_ports : List UartPort) (index : ℤ) : UartPort :=
  if 0 ≤ index then (uart_ports[index.toNat]?).getD (around index) else around index

/-- `uart_ports[index]` is accessed. -/
def World.access (w : World) (index : ℤ) : World := { w with accesses := w.accesses ++ [index] }

def conSetup (m : Machine ι World) : ℤ × Machine ι World :=
  let up := portAt around m.world.uart_ports (m.index con)
  let w := m.world.access (m.index con)
  let (err, io) := setupPort device up 9600 w.io
  (err, ⟨m.index, { w with io, speed := if err = 0 then 9600 else w.speed }⟩)

/-- The port that `con_match` looks for. Of what is not set only the bits of `io` next to
`io.port` would matter, and nothing reads them. -/
def askedPort (io_type addr : ℕ) : UartPort :=
  { UartPort.zeroed with
    io_type
    io := if io_type = UART_IO_PORT then BitVec.ofNat 64 (addr % 2 ^ 16) else BitVec.ofNat 64 addr }

def conMatch (name options : List UInt8) (m : Machine ι World) : ℤ × Machine ι World :=
  if ¬ [code 'u', code 'a', code 'r', code 't'].isPrefixOf name then (-ENODEV, m)
  else
    match uartIoParseOption options with
    | none => (-ENODEV, m)
    | some (io_type, addr, _) =>
      match findMatchPort m.world.uart_ports (askedPort io_type addr) with
      | some i =>
        conSetup device around con
          { m with index := Function.update m.index con (portAt around m.world.uart_ports i).index }
      | none => conSetup device around con m

def conExit (m : Machine ι World) : ℤ × Machine ι World :=
  let up := portAt around m.world.uart_ports (m.index con)
  let w := m.world.access (m.index con)
  let (err, io) := exitPort device up w.io
  (err, ⟨m.index, { w with io }⟩)

/-- `__DRIVER_ID__`. -/
def DRIVER_ID : List UInt8 := [code 't', code 't', code 'y', code 'S']

def console8250 : Console ι World where
  name := DRIVER_ID
  setup := some fun _ => conSetup device around con
  conMatch := some (conMatch device around con)
  exit := some (conExit device around con)

/-- `up->poll_putchar(up, ch)`, which is `putchar` for every port of this driver. -/
def uartPollPutChar (index : ℕ) (ch : UInt8) (w : World) : World :=
  let up := portAt around w.uart_ports index
  let w := w.access index
  let io := if ch = code '\n' then (putchar device up (code '\r').toNat w.io).2 else w.io
  { w with io := (putchar device up ch.toNat io).2 }

/-- `con_write`. The index is an `unsigned int` of `uart_poll_put_char`. -/
def conWrite (index : ℤ) (s : List UInt8) (w : World) : World :=
  s.foldl (fun w ch => uartPollPutChar device around (index % 2 ^ 32).toNat ch w) w

end Hooks

/-! ## What is asked for -/

/-- The drivers that have a console. -/
inductive Driver
  | efifb
  | serial8250
  deriving DecidableEq, Repr

section Asked

variable (device : List Io → ℕ → ℕ) (around : ℤ → UartPort)
  (efifbSetup : List UInt8 → Machine Driver World → ℤ × Machine Driver World)

/-- `console_efifb` and `console_8250`. -/
def consoles : Driver → Console Driver World
  | .efifb => ⟨[code 't', code 't', code 'y'], some efifbSetup, none, none⟩
  | .serial8250 => console8250 device around .serial8250

/-- The state in which `console_init` registers the console. -/
structure Start (UART_NR : ℕ) (registered : List UartPort) (s : State Driver World) : Prop where
  uart_ports : s.world.uart_ports = layout UART_NR registered
  known : ∀ p ∈ registered, p.type ≠ PORT_UNKNOWN
  length_le : registered.length ≤ UART_NR
  isInt : UART_NR < 2 ^ 31
  index : s.index .serial8250 = -1
  active : s.active_console ≠ some .serial8250
  accesses : s.world.accesses = []
  calls : s.calls = []

/-- A registered port has the index. -/
def IsRegistered (uart_ports : List UartPort) (index : ℤ) : Prop :=
  ∃ i : ℕ, index = i ∧ ∃ p, uart_ports[i]? = some p ∧ p.type ≠ PORT_UNKNOWN

/-- What `register_console(&console_8250)` comes to. -/
def register8250 (pcs : List PreferredConsole) (s : State Driver World) : ℤ × State Driver World :=
  Consoles.registerConsole (consoles device around efifbSetup) .serial8250 pcs s

/-- Only registered ports are accessed, at once and by what is written later, and no entry
is accepted that asks for an address where there is no port. -/
structure UsesRegistered (registered : List UartPort) (pcs : List PreferredConsole)
    (s : State Driver World) : Prop where
  index : (register8250 device around efifbSetup pcs s).1 = SUCCESS →
    IsRegistered s.world.uart_ports
      ((register8250 device around efifbSetup pcs s).2.index .serial8250)
  accesses : ∀ i ∈ (register8250 device around efifbSetup pcs s).2.world.accesses,
    IsRegistered s.world.uart_ports i
  writes : (register8250 device around efifbSetup pcs s).1 = SUCCESS → ∀ text,
    ∀ i ∈ (conWrite device around
      ((register8250 device around efifbSetup pcs s).2.index .serial8250) text
      (register8250 device around efifbSetup pcs s).2.world).accesses,
    IsRegistered s.world.uart_ports i
  refused : ∀ name options, (.conMatch .serial8250 name options, SUCCESS) ∈
      (register8250 device around efifbSetup pcs s).2.calls →
    ∀ io_type addr rest, uartIoParseOption options = some (io_type, addr, rest) →
      ∃ p ∈ registered, SameAddress p (askedPort io_type addr)

end Asked

/-! ## What an entry names -/

/-- What an entry asks the console for: a port by its address, or by its index. -/
inductive Wish
  | address (io_type addr : ℕ)
  | slot (index : ℤ)
  deriving DecidableEq, Repr

/-- What the console is asked for by an entry, if that is for it. -/
def wishOf (pc : PreferredConsole) : Option Wish :=
  if [code 'u', code 'a', code 'r', code 't'].isPrefixOf pc.name then
    (uartIoParseOption pc.options).map fun (io_type, addr, _) => .address io_type addr
  else if pc.name = DRIVER_ID then some (.slot pc.index)
  else none

/-- The entries that a pass goes through. -/
def entriesOf (user_specified : ℤ) (pcs : List PreferredConsole) : List PreferredConsole :=
  (pcs.takeWhile (·.name ≠ [])).filter (·.user_specified = user_specified)

/-- What is asked for by the first entry for the console, those of the user before the
others. -/
def firstWish (pcs : List PreferredConsole) : Option Wish :=
  (entriesOf 1 pcs ++ entriesOf 0 pcs).findSome? wishOf

/-- There is such a port. -/
def Wish.Names (UART_NR : ℕ) (registered : List UartPort) : Wish → Prop
  | .address io_type addr => ∃ p ∈ registered, SameAddress p (askedPort io_type addr)
  | .slot index => IsRegistered (layout UART_NR registered) index

/-- The index that the console gets. -/
def Wish.index (around : ℤ → UartPort) (uart_ports : List UartPort) : Wish → ℤ
  | .address io_type addr =>
    match findMatchPort uart_ports (askedPort io_type addr) with
    | some i => (portAt around uart_ports i).index
    | none => -1
  | .slot index => index

/-! ## The hooks, one by one -/

section Called

variable {ι : Type} [DecidableEq ι] {device : List Io → ℕ → ℕ} {around : ℤ → UartPort} {con : ι}
  {m : Machine ι World} {name options : List UInt8}

omit [DecidableEq ι] in
/-- Setting a port up never fails, whatever the port is. -/
theorem conSetup_runs (device : List Io → ℕ → ℕ) (around : ℤ → UartPort) (con : ι)
    (m : Machine ι World) :
    ∃ m', conSetup device around con m = (SUCCESS, m') ∧ m'.index = m.index ∧
      m'.world.uart_ports = m.world.uart_ports ∧
      m'.world.accesses = m.world.accesses ++ [m.index con] :=
  ⟨_, rfl, rfl, rfl, rfl⟩

/-- What `con_match` turns down. -/
theorem conMatch_refuses
    (h : [code 'u', code 'a', code 'r', code 't'].isPrefixOf name = true →
      uartIoParseOption options = none) :
    conMatch device around con name options m = (-ENODEV, m) := by
  rw [conMatch]
  by_cases hname : [code 'u', code 'a', code 'r', code 't'].isPrefixOf name = true
  · rw [if_neg (not_not.mpr hname), h hname]
  · rw [if_pos hname]

variable (device around con) in
/-- An address that is parsed is accepted, with a port or without. -/
theorem conMatch_accepts {io_type addr : ℕ} {rest : Option (List UInt8)}
    (hname : [code 'u', code 'a', code 'r', code 't'].isPrefixOf name = true)
    (hparse : uartIoParseOption options = some (io_type, addr, rest)) (hindex : m.index con = -1) :
    ∃ m', conMatch device around con name options m = (SUCCESS, m') ∧
      m'.index con = (Wish.address io_type addr).index around m.world.uart_ports ∧
      m'.world.uart_ports = m.world.uart_ports ∧
      m'.world.accesses = m.world.accesses ++ [m'.index con] := by
  rw [conMatch, if_neg (not_not.mpr hname), hparse, Wish.index]
  dsimp only
  cases findMatchPort m.world.uart_ports (askedPort io_type addr) with
  | none => exact ⟨_, rfl, hindex, rfl, rfl⟩
  | some i => exact ⟨_, rfl, Function.update_self .., rfl, rfl⟩

end Called

section Pass

variable {device : List Io → ℕ → ℕ} {around : ℤ → UartPort}
  {efifbSetup : List UInt8 → Machine Driver World → ℤ × Machine Driver World}
  {user_specified : ℤ} {pc : PreferredConsole} {pcs : List PreferredConsole}
  {s : State Driver World} {w : Wish}

/-- The hooks of the console have been asked, and nothing but the calls has changed. -/
def asked (s : State Driver World) (pc : PreferredConsole) : State Driver World :=
  { s with calls := s.calls ++ [(.conMatch .serial8250 pc.name pc.options, -ENODEV)] }

theorem call_refused (h : conMatch device around .serial8250 pc.name pc.options s.toMachine =
      (-ENODEV, s.toMachine)) :
    s.call (.conMatch .serial8250 pc.name pc.options)
      (conMatch device around .serial8250 pc.name pc.options) = (-ENODEV, asked s pc) := by
  rw [State.call, h]
  rfl

theorem enodev_ne_success : -ENODEV ≠ SUCCESS := by decide

theorem enoent_ne_success : -ENOENT ≠ SUCCESS := by decide

theorem uart_ne_driverId {name : List UInt8}
    (h : [code 'u', code 'a', code 'r', code 't'].isPrefixOf name = true) : name ≠ DRIVER_ID := by
  rintro rfl
  revert h
  decide

theorem wishOf_none (h : wishOf pc = none) :
    ([code 'u', code 'a', code 'r', code 't'].isPrefixOf pc.name = true →
      uartIoParseOption pc.options = none) ∧ pc.name ≠ DRIVER_ID := by
  rw [wishOf] at h
  by_cases hname : [code 'u', code 'a', code 'r', code 't'].isPrefixOf pc.name = true
  · rw [if_pos hname, Option.map_eq_none_iff] at h
    exact ⟨fun _ => h, uart_ne_driverId hname⟩
  · rw [if_neg hname] at h
    refine ⟨fun hprefix => absurd hprefix hname, fun hid => ?_⟩
    rw [if_pos hid] at h
    cases h

variable (device around efifbSetup) in
/-- What is not for the console is passed over. -/
theorem enableTurn_none (huser : pc.user_specified = user_specified) (h : wishOf pc = none) :
    Consoles.enableTurn (consoles device around efifbSetup) .serial8250 user_specified pc s =
      .again (asked s pc) := by
  obtain ⟨hparse, hname⟩ := wishOf_none h
  rw [Consoles.enableTurn, if_neg (not_not.mpr huser)]
  dsimp only [consoles, console8250]
  rw [call_refused (conMatch_refuses hparse)]
  dsimp only
  rw [if_pos (by decide)]
  exact Consoles.enableByName_of_not_fits fun hfits => hname hfits.1

/-- What the registration leaves, when an entry for the console has been found. -/
structure Took (around : ℤ → UartPort) (s : State Driver World) (w : Wish)
    (s' : State Driver World) : Prop where
  active : s'.active_console = s.active_console
  uart_ports : s'.world.uart_ports = s.world.uart_ports
  index : s'.index .serial8250 = w.index around s.world.uart_ports
  accesses : s'.world.accesses = s.world.accesses ++ [s'.index .serial8250]
  accepted : ∃ calls, s'.calls = s.calls ++ calls ∧
    (∀ name options, (.conMatch .serial8250 name options, SUCCESS) ∈ calls →
      ∀ io_type addr rest, uartIoParseOption options = some (io_type, addr, rest) →
        w = .address io_type addr) ∧
    ∀ io_type addr, w = .address io_type addr → ∃ name options rest,
      (.conMatch .serial8250 name options, SUCCESS) ∈ calls ∧
        uartIoParseOption options = some (io_type, addr, rest)

variable (device around efifbSetup) in
/-- The first entry for the console is taken. -/
theorem enableTurn_some (huser : pc.user_specified = user_specified)
    (hindex : s.index .serial8250 = -1) (h : wishOf pc = some w) :
    ∃ s', Consoles.enableTurn (consoles device around efifbSetup) .serial8250 user_specified pc s =
        .leave (SUCCESS, s') ∧ Took around s w s' := by
  rw [Consoles.enableTurn, if_neg (not_not.mpr huser)]
  dsimp only [consoles, console8250]
  rw [wishOf] at h
  by_cases hname : [code 'u', code 'a', code 'r', code 't'].isPrefixOf pc.name = true
  · rw [if_pos hname] at h
    obtain ⟨⟨io_type, addr, rest⟩, hparse, rfl⟩ := Option.map_eq_some_iff.mp h
    obtain ⟨m', hrun, hindex', hports, haccesses⟩ :=
      conMatch_accepts device around Driver.serial8250 hname hparse hindex
    rw [State.call, hrun]
    dsimp only
    rw [if_neg (by decide)]
    refine ⟨_, rfl, rfl, hports, hindex', haccesses, _, rfl, ?_, ?_⟩
    · intro name options hcall io_type' addr' rest' hparse'
      rw [List.mem_singleton, Prod.mk.injEq, Hook.conMatch.injEq] at hcall
      obtain ⟨⟨-, -, rfl⟩, -⟩ := hcall
      rw [hparse] at hparse'
      obtain ⟨rfl, rfl, -⟩ : io_type = io_type' ∧ addr = addr' ∧ rest = rest' := by
        simpa using hparse'
      rfl
    · rintro _ _ ⟨⟩
      exact ⟨pc.name, pc.options, rest, List.mem_singleton_self _, hparse⟩
  · rw [if_neg hname] at h
    by_cases hid : pc.name = DRIVER_ID
    · rw [if_pos hid] at h
      obtain rfl := Option.some.inj h
      have hfits : Consoles.Fits (consoles device around efifbSetup) .serial8250
          ((asked s pc).index .serial8250) pc := ⟨hid, .inl (by rw [asked, hindex]; decide)⟩
      rw [call_refused (conMatch_refuses fun hprefix => absurd hprefix hname)]
      dsimp only
      rw [if_pos (by decide), Consoles.enableByName_of_fits hfits]
      obtain ⟨m', hrun, hindex', hports, haccesses⟩ := conSetup_runs device around .serial8250
        ((asked s pc).setIndex .serial8250 pc.index).toMachine
      have hslot : m'.index .serial8250 = pc.index :=
        (congrFun hindex' _).trans (Consoles.setIndex_index _)
      have hcall : ((asked s pc).setIndex .serial8250 pc.index).call
          (.setup .serial8250 pc.options) (conSetup device around .serial8250) =
          (SUCCESS, ⟨m', s.active_console, (asked s pc).calls ++
            [(.setup .serial8250 pc.options, SUCCESS)]⟩) := by
        rw [State.call, hrun]
        rfl
      refine ⟨_, congrArg Turn.leave hcall, rfl, hports, hslot, ?_, [_, _],
        List.append_assoc .., ?_, by rintro _ _ ⟨⟩⟩
      · rw [← hindex'] at haccesses
        exact haccesses
      · intro name options hmem
        exact absurd hmem (by simp [SUCCESS, ENODEV])
    · rw [if_neg hid] at h
      cases h

theorem entriesOf_stop (h : pc.name = []) : entriesOf user_specified (pc :: pcs) = [] := by
  rw [entriesOf, List.takeWhile_cons_of_neg (by simp [h]), List.filter_nil]

theorem entriesOf_skip (hname : pc.name ≠ []) (huser : pc.user_specified ≠ user_specified) :
    entriesOf user_specified (pc :: pcs) = entriesOf user_specified pcs := by
  rw [entriesOf, List.takeWhile_cons_of_pos (by simp [hname]),
    List.filter_cons_of_neg (by simp [huser]), entriesOf]

theorem entriesOf_take (hname : pc.name ≠ []) (huser : pc.user_specified = user_specified) :
    entriesOf user_specified (pc :: pcs) = pc :: entriesOf user_specified pcs := by
  rw [entriesOf, List.takeWhile_cons_of_pos (by simp [hname]),
    List.filter_cons_of_pos (by simp [huser]), entriesOf]

variable (device around efifbSetup) in
/-- Without an entry for the console a pass fails, and has only asked. -/
theorem pass_none (pcs : List PreferredConsole) (s : State Driver World)
    (h : ∀ pc ∈ entriesOf user_specified pcs, wishOf pc = none) :
    ∃ calls, Consoles.tryEnablePreferredConsole (consoles device around efifbSetup) .serial8250
        user_specified pcs s = (-ENOENT, { s with calls := s.calls ++ calls }) ∧
      ∀ call ∈ calls, call.2 ≠ SUCCESS := by
  induction pcs generalizing s with
  | nil => exact ⟨[], by rw [List.append_nil]; rfl, by simp⟩
  | cons pc pcs ih =>
      rw [Consoles.tryEnablePreferredConsole]
      by_cases hname : pc.name = []
      · rw [if_pos hname]
        exact ⟨[], by rw [List.append_nil], by simp⟩
      · rw [if_neg hname]
        by_cases huser : pc.user_specified = user_specified
        · rw [entriesOf_take hname huser] at h
          obtain ⟨hpc, hrest⟩ := List.forall_mem_cons.mp h
          rw [enableTurn_none device around efifbSetup huser hpc]
          obtain ⟨calls, hrun, hcalls⟩ := ih (asked s pc) hrest
          refine ⟨(.conMatch .serial8250 pc.name pc.options, -ENODEV) :: calls, hrun.trans ?_,
            List.forall_mem_cons.mpr ⟨?_, hcalls⟩⟩
          · rw [asked, List.append_assoc, List.singleton_append]
          · exact enodev_ne_success
        · rw [entriesOf_skip hname huser] at h
          rw [Consoles.enableTurn, if_pos huser]
          exact ih s h

/-- Calls that accept nothing may come before. -/
theorem Took.of_calls {s' : State Driver World} {before : List (Hook Driver × ℤ)}
    (hbefore : ∀ call ∈ before, call.2 ≠ SUCCESS)
    (h : Took around { s with calls := s.calls ++ before } w s') : Took around s w s' := by
  obtain ⟨calls, hcalls, haccepted, hasks⟩ := h.accepted
  refine ⟨h.active, h.uart_ports, h.index, h.accesses, before ++ calls,
    hcalls.trans (List.append_assoc ..), ?_, ?_⟩
  · intro name options hmem
    obtain hmem | hmem := List.mem_append.mp hmem
    · exact absurd rfl (hbefore _ hmem)
    · exact haccepted name options hmem
  · intro io_type addr hw
    obtain ⟨name, options, rest, hmem, hparse⟩ := hasks io_type addr hw
    exact ⟨name, options, rest, List.mem_append_right before hmem, hparse⟩

variable (device around efifbSetup) in
/-- A pass takes the first entry that is for the console. -/
theorem pass_some (pcs : List PreferredConsole) (s : State Driver World)
    (hindex : s.index .serial8250 = -1)
    (h : (entriesOf user_specified pcs).findSome? wishOf = some w) :
    ∃ s', Consoles.tryEnablePreferredConsole (consoles device around efifbSetup) .serial8250
        user_specified pcs s = (SUCCESS, s') ∧ Took around s w s' := by
  induction pcs generalizing s with
  | nil => cases h
  | cons pc pcs ih =>
      rw [Consoles.tryEnablePreferredConsole]
      by_cases hname : pc.name = []
      · rw [entriesOf_stop hname] at h
        cases h
      · rw [if_neg hname]
        by_cases huser : pc.user_specified = user_specified
        · rw [entriesOf_take hname huser] at h
          cases hpc : wishOf pc with
          | none =>
              rw [List.findSome?_cons_of_isNone (by rw [hpc]; rfl)] at h
              rw [enableTurn_none device around efifbSetup huser hpc]
              obtain ⟨s', hrun, htook⟩ := ih (asked s pc) hindex h
              exact ⟨s', hrun, htook.of_calls (List.forall_mem_singleton.mpr enodev_ne_success)⟩
          | some w' =>
              rw [List.findSome?_cons_of_isSome (by rw [hpc]; rfl), hpc] at h
              obtain rfl := Option.some.inj h
              obtain ⟨s', hturn, htook⟩ := enableTurn_some device around efifbSetup huser hindex hpc
              rw [hturn]
              exact ⟨s', rfl, htook⟩
        · rw [entriesOf_skip hname huser] at h
          rw [Consoles.enableTurn, if_pos huser]
          exact ih s hindex h

variable (device around efifbSetup) in
/-- The pass that decides, without an entry for the console. -/
theorem lastPass_none (pcs : List PreferredConsole) (s : State Driver World)
    (h : firstWish pcs = none) :
    ∃ calls, Consoles.lastPass (consoles device around efifbSetup) .serial8250 pcs s =
        (-ENOENT, { s with calls := s.calls ++ calls }) ∧ ∀ call ∈ calls, call.2 ≠ SUCCESS := by
  rw [firstWish, List.findSome?_eq_none_iff, List.forall_mem_append] at h
  obtain ⟨before, hfirst, hbefore⟩ := pass_none device around efifbSetup pcs s h.1
  obtain ⟨calls, hsecond, hcalls⟩ := pass_none device around efifbSetup pcs { s with calls := s.calls ++ before } h.2
  refine ⟨before ++ calls, ?_, List.forall_mem_append.mpr ⟨hbefore, hcalls⟩⟩
  rw [Consoles.lastPass, Consoles.firstPass, hfirst]
  dsimp only
  rw [if_pos (by decide), hsecond, List.append_assoc]

variable (device around efifbSetup) in
/-- The pass that decides takes the first entry for the console. -/
theorem lastPass_some (pcs : List PreferredConsole) (s : State Driver World)
    (hindex : s.index .serial8250 = -1) (h : firstWish pcs = some w) :
    ∃ s', Consoles.lastPass (consoles device around efifbSetup) .serial8250 pcs s =
        (SUCCESS, s') ∧ Took around s w s' := by
  rw [firstWish, List.findSome?_append] at h
  rw [Consoles.lastPass, Consoles.firstPass]
  cases hone : (entriesOf 1 pcs).findSome? wishOf with
  | some w' =>
      rw [hone, Option.some_or] at h
      obtain rfl := Option.some.inj h
      obtain ⟨s', hrun, htook⟩ := pass_some device around efifbSetup pcs s hindex hone
      rw [hrun]
      exact ⟨s', rfl, htook⟩
  | none =>
      rw [hone, Option.none_or] at h
      obtain ⟨before, hfirst, hbefore⟩ := pass_none device around efifbSetup pcs s (List.findSome?_eq_none_iff.mp hone)
      obtain ⟨s', hsecond, htook⟩ := pass_some device around efifbSetup pcs { s with calls := s.calls ++ before } hindex h
      refine ⟨s', ?_, htook.of_calls hbefore⟩
      rw [hfirst]
      dsimp only
      rw [if_pos (by decide), hsecond]

variable (device around efifbSetup) in
theorem register8250_none (pcs : List PreferredConsole) (s : State Driver World)
    (h : firstWish pcs = none) :
    ∃ calls, register8250 device around efifbSetup pcs s =
        (-ENOENT, { s with calls := s.calls ++ calls }) ∧ ∀ call ∈ calls, call.2 ≠ SUCCESS := by
  obtain ⟨calls, hrun, hcalls⟩ := lastPass_none device around efifbSetup pcs s h
  refine ⟨calls, ?_, hcalls⟩
  rw [register8250, Consoles.registerConsole_of_fails, hrun]
  rw [hrun]
  exact enoent_ne_success

/-- The other console has no exit hook. -/
theorem exitActive_eq (hactive : s.active_console ≠ some .serial8250) :
    Consoles.exitActive (consoles device around efifbSetup) s = s := by
  rw [Consoles.exitActive]
  cases h : s.active_console with
  | none => rfl
  | some active =>
      cases active with
      | efifb => rfl
      | serial8250 => exact absurd h hactive

variable (device around efifbSetup) in
theorem register8250_some (pcs : List PreferredConsole) (s : State Driver World)
    (hindex : s.index .serial8250 = -1) (hactive : s.active_console ≠ some .serial8250)
    (h : firstWish pcs = some w) :
    ∃ s', register8250 device around efifbSetup pcs s =
        (SUCCESS, { s' with active_console := some .serial8250 }) ∧ Took around s w s' := by
  obtain ⟨s', hrun, htook⟩ := lastPass_some device around efifbSetup pcs s hindex h
  refine ⟨s', ?_, htook⟩
  rw [register8250, Consoles.registerConsole_of_succeeds, hrun]
  · dsimp only
    rw [exitActive_eq (by rw [htook.active]; exact hactive)]
  · rw [hrun]

end Pass

/-! ## When only registered ports are used -/

section Registered

variable {device : List Io → ℕ → ℕ} {around : ℤ → UartPort} {UART_NR : ℕ}
  {registered : List UartPort} {w : Wish}

theorem isRegistered_layout {i : ℕ} (hknown : ∀ p ∈ registered, p.type ≠ PORT_UNKNOWN) :
    IsRegistered (layout UART_NR registered) i ↔ i < registered.length := by
  constructor
  · rintro ⟨j, hij, p, hp, hne⟩
    obtain rfl : i = j := by exact_mod_cast hij
    by_contra hle
    have hmem := List.mem_of_getElem? hp
    rw [layout, List.getElem?_append_right (by simpa using hle), List.getElem?_replicate] at hp
    split at hp
    · exact hne (congrArg UartPort.type (Option.some.inj hp).symm)
    · cases hp
  · intro hlt
    exact ⟨i, rfl, _, getElem?_layout hlt, hknown registered[i] (List.getElem_mem hlt)⟩

variable (around) in
/-- The search for an address where there is a port finds a registered one. -/
theorem index_isRegistered (hknown : ∀ p ∈ registered, p.type ≠ PORT_UNKNOWN)
    (h : w.Names UART_NR registered) :
    IsRegistered (layout UART_NR registered)
      (w.index around (layout UART_NR registered)) := by
  cases w with
  | slot index => exact h
  | address io_type addr =>
      obtain ⟨p, hp, hsame⟩ := h
      obtain ⟨i, hi, rfl⟩ := List.mem_iff_getElem.mp hp
      have hfound : (findMatchPort (layout UART_NR registered) (askedPort io_type addr)).isSome :=
        findMatchPort_layout.mpr (.inl ⟨registered[i], hp, hsame⟩)
      obtain ⟨j, hj⟩ := Option.isSome_iff_exists.mp hfound
      obtain ⟨hlt, -, hfirst⟩ := List.findIdx?_eq_some_iff_getElem.mp hj
      have hji : j < registered.length := by
        by_contra hle
        have hslot : (layout UART_NR registered)[i]? = some (registered[i].inSlot i) :=
          getElem?_layout hi
        obtain ⟨hi', hslot⟩ := List.getElem_of_getElem? hslot
        have hno := hfirst i (by omega)
        rw [hslot] at hno
        exact hno (uartMatchPort_iff.mpr hsame)
      have hat : portAt around (layout UART_NR registered) j = registered[j].inSlot j := by
        rw [portAt, if_pos (Int.natCast_nonneg j), Int.toNat_natCast, getElem?_layout hji]
        rfl
      rw [Wish.index, hj]
      dsimp only
      rw [hat]
      exact (isRegistered_layout hknown).mpr hji

/-- What is written goes through the index. -/
theorem mem_accesses_conWrite {index i : ℤ} (text : List UInt8) {m : World}
    (h : i ∈ (conWrite device around index text m).accesses) :
    i ∈ m.accesses ∨ i = (index % 2 ^ 32).toNat := by
  induction text generalizing m with
  | nil => exact .inl h
  | cons ch text ih =>
      obtain h | h := ih h
      · obtain h | h := List.mem_append.mp (show i ∈ m.accesses ++ [_] from h)
        · exact .inl h
        · exact .inr (List.mem_singleton.mp h)
      · exact .inr h

/-- The index of a registered port is the same as an `unsigned int`. -/
theorem Start.unsigned_index {s : State Driver World} (h : Start UART_NR registered s) {index : ℤ}
    (hregistered : IsRegistered (layout UART_NR registered) index) :
    ((index % 2 ^ 32).toNat : ℤ) = index := by
  obtain ⟨i, rfl, hi⟩ := hregistered
  have hlt := (isRegistered_layout h.known).mp ⟨i, rfl, hi⟩
  have hle := h.length_le
  have hint := h.isInt
  omega

/-- The console uses registered ports only exactly if the first entry that is for it, if
there is one, names a registered port. -/
theorem usesRegistered_iff
    (efifbSetup : List UInt8 → Machine Driver World → ℤ × Machine Driver World)
    {s : State Driver World} (hstart : Start UART_NR registered s)
    (pcs : List PreferredConsole) :
    UsesRegistered device around efifbSetup registered pcs s ↔
      ∀ w, firstWish pcs = some w → w.Names UART_NR registered := by
  cases hwish : firstWish pcs with
  | none =>
      obtain ⟨calls, hrun, hcalls⟩ := register8250_none device around efifbSetup pcs s hwish
      refine iff_of_true ?_ (by rintro w ⟨⟩)
      constructor
      · rw [hrun]
        exact fun h => absurd h enoent_ne_success
      · rw [hrun]
        intro i hi
        rw [hstart.accesses] at hi
        cases hi
      · rw [hrun]
        exact fun h => absurd h enoent_ne_success
      · rw [hrun]
        intro name options hmem
        rw [hstart.calls, List.nil_append] at hmem
        exact absurd rfl (hcalls _ hmem)
  | some w =>
      obtain ⟨s', hrun, htook⟩ := register8250_some device around efifbSetup pcs s hstart.index hstart.active hwish
      obtain ⟨calls, hcalls, haccepted, hasks⟩ := htook.accepted
      have hindex := htook.index
      have haccesses := htook.accesses
      rw [hstart.calls, List.nil_append] at hcalls
      rw [hstart.uart_ports] at hindex
      rw [hstart.accesses, List.nil_append] at haccesses
      constructor
      · rintro h _ ⟨⟩
        cases w with
        | address io_type addr =>
            obtain ⟨name, options, rest, hmem, hparse⟩ := hasks io_type addr rfl
            refine h.refused name options ?_ io_type addr rest hparse
            rw [hrun]
            exact hcalls ▸ hmem
        | slot index =>
            have hregistered := h.index (by rw [hrun])
            rw [hrun, hstart.uart_ports] at hregistered
            have hslot : s'.index .serial8250 = index := hindex
            rw [Wish.Names, ← hslot]
            exact hregistered
      · intro h
        have hregistered := index_isRegistered around hstart.known (h w rfl)
        rw [← hindex] at hregistered
        have hall : ∀ i ∈ s'.world.accesses, IsRegistered (layout UART_NR registered) i := by
          rw [haccesses]
          exact List.forall_mem_singleton.mpr hregistered
        constructor
        · rw [hrun, hstart.uart_ports]
          exact fun _ => hregistered
        · rw [hrun, hstart.uart_ports]
          exact hall
        · rw [hrun, hstart.uart_ports]
          intro _ text i hi
          obtain hi | rfl := mem_accesses_conWrite text hi
          · exact hall i hi
          · rwa [hstart.unsigned_index hregistered]
        · rw [hrun]
          intro name options hmem io_type addr rest hparse
          have hmem' : (.conMatch .serial8250 name options, SUCCESS) ∈ calls := hcalls ▸ hmem
          obtain rfl := haccepted name options hmem' io_type addr rest hparse
          exact h _ rfl

end Registered

/-- Two of four ports are registered, and no console is active. -/
def twoPorts : List UartPort := [serialPort 0x3f8, serialPort 0x2f8]

def atBoot : State Driver World :=
  ⟨⟨fun _ => -1, ⟨layout 4 twoPorts, [], 0, []⟩⟩, none, []⟩

theorem start_atBoot : Start 4 twoPorts atBoot where
  uart_ports := rfl
  known := by decide
  length_le := by decide
  isInt := by decide
  index := rfl
  active := by decide
  accesses := rfl
  calls := rfl

/-- `console=ttyS` and an index. -/
def ttyS (index : ℤ) : PreferredConsole := ⟨DRIVER_ID, index, 1, []⟩

theorem usesRegistered_iff_one :
    UsesRegistered (fun _ _ => 0x60) (fun _ => .zeroed) (fun _ m => (SUCCESS, m)) twoPorts
        [ttyS 1] atBoot ↔
      ∀ w, firstWish [ttyS 1] = some w → w.Names 4 twoPorts :=
  usesRegistered_iff _ start_atBoot [ttyS 1]

/-- There is no port with the index 99, and the console is registered. -/
theorem not_usesRegistered_99 : Start 4 twoPorts atBoot ∧
    ¬ UsesRegistered (fun _ _ => 0x60) (fun _ => .zeroed) (fun _ m => (SUCCESS, m)) twoPorts
      [ttyS 99] atBoot := by
  refine ⟨start_atBoot, ?_⟩
  intro h
  obtain ⟨s', hrun, htook⟩ := register8250_some (w := .slot 99) (fun _ _ => 0x60)
    (fun _ => .zeroed) (fun _ m => (SUCCESS, m)) [ttyS 99] atBoot rfl (by decide) (by decide)
  have hregistered := h.index (by rw [hrun])
  rw [hrun] at hregistered
  have hindex : s'.index .serial8250 = (99 : ℕ) := htook.index
  have hslot : IsRegistered (layout 4 twoPorts) (99 : ℕ) := hindex ▸ hregistered
  have hlt := (isRegistered_layout start_atBoot.known).mp hslot
  revert hlt
  decide

end Cyanea.Uart
