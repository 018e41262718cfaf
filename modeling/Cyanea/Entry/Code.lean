/-
# Kernel entry and exit

An interrupt or exception comes to the kernel through an entry point in assembly code. It puts
the registers on the stack in the order of `struct utask_regs`, has them moved to the stack of
the interrupted task if that was in user mode, calls the C function that handles the event, and
returns by the way it came. This is the code of `entry_64.S` for one entry point, line by line,
with the routines that all of them share.
-/

import Cyanea.Asm.Stack

namespace Cyanea.Entry

open Asm

/-! ## The registers in memory -/

/-- `registers[]`, by the constants that index it. -/
def registers : List Reg :=
  [.r15, .r14, .r13, .r12, .rbp, .rbx, .r11, .r10, .r9, .r8, .rax, .rcx, .rdx, .rsi, .rdi]

/-- A word of `struct utask_regs`. -/
inductive Field where
  | register (r : Reg)
  | orig_rax
  | rip
  | cs
  | eflags
  | rsp
  | ss
  deriving DecidableEq

/-- `struct utask_regs`. -/
def utaskRegs : List Field :=
  registers.map .register ++ [.orig_rax, .rip, .cs, .eflags, .rsp, .ss]

/-- `offsetof(struct utask_regs, f)`. -/
def offsetof (f : Field) : Word := bytes (utaskRegs.idxOf f)

def utask_regs_cs : Word := offsetof .cs

def utask_regs_orig_rax : Word := offsetof .orig_rax

/-! ## The code -/

inductive Symbol where
  | error_entry
  | Lerror_entry_user
  | Lerror_entry_ukernel
  | common_interrupt_return
  | return_to_user
  | return_to_ukernel
  | Lnative_iret
  | error_return
  | irq_entries_start
  | asm_cfunc
  | cfunc
  | switch_utask_stack
  deriving DecidableEq

/-- `cpu_tss.rsp0`, the one variable of the processor that the code reads itself. -/
inductive PerCpu where
  | cpu_tss_rsp0

abbrev Listing : Type := List (Line Symbol PerCpu)

/-- The registers in the order in which `PUSH_REGS` pushes them. -/
def pushRegs : List Reg :=
  [.rdx, .rcx, .rax, .r8, .r9, .r10, .r11, .rbx, .rbp, .r12, .r13, .r14, .r15]

/-- Those that `POP_REGS` pops. -/
def popRegs : List Reg :=
  [.r15, .r14, .r13, .r12, .rbp, .rbx, .r11, .r10, .r9, .r8, .rax, .rcx, .rdx]

def PUSH_REGS : Listing := pushRegs.map fun r => .pushq (.reg r)

def POP_REGS : Listing := popRegs.map .popq

def POP_REGS_ALL : Listing := POP_REGS ++ [.popq .rsi, .popq .rdi]

def PUSH_REGS_RETURN_ADDRESS : Listing :=
  [.pushq (.reg .rsi),
    .movq (.mem 8 .rsp) (.reg .rsi),
    .movq (.reg .rdi) (.mem 8 .rsp)] ++
  PUSH_REGS ++
  [.pushq (.reg .rsi)]

/-- `error_entry`. -/
def errorEntry : Listing :=
  [.label .error_entry] ++
  PUSH_REGS_RETURN_ADDRESS ++
  [.testb 3 (utask_regs_cs + 8) .rsp,
    .jz .Lerror_entry_ukernel,
    .label .Lerror_entry_user,
    .swapgs,
    .leaq 8 .rsp .rdi,
    .jmp .switch_utask_stack,
    .label .Lerror_entry_ukernel,
    .leaq 8 .rsp .rax,
    .ret]

/-- `common_interrupt_return`. -/
def commonInterruptReturn : Listing :=
  [.label .common_interrupt_return,
    .label .return_to_user] ++
  POP_REGS ++
  [.popq .rsi,
    .movq (.reg .rsp) (.reg .rdi),
    .movq (.percpu .cpu_tss_rsp0) (.reg .rsp),
    .pushq (.mem (6 * 8) .rdi),
    .pushq (.mem (5 * 8) .rdi),
    .pushq (.mem (4 * 8) .rdi),
    .pushq (.mem (3 * 8) .rdi),
    .pushq (.mem (2 * 8) .rdi),
    .movq (.mem 0 .rdi) (.reg .rdi),
    .swapgs,
    .jmp .Lnative_iret,
    .label .return_to_ukernel] ++
  POP_REGS_ALL ++
  [.addq 8 .rsp,
    .label .Lnative_iret,
    .iretq]

/-- `error_return`. -/
def errorReturn : Listing :=
  [.label .error_return,
    .testb 3 utask_regs_cs .rsp,
    .jz .return_to_ukernel,
    .jmp .return_to_user]

def IDTENTRY_BODY (has_error_code : Bool) : Listing :=
  [.call .error_entry,
    .movq (.reg .rax) (.reg .rsp),
    .movq (.reg .rsp) (.reg .rdi)] ++
  (if has_error_code then
    [.movq (.mem utask_regs_orig_rax .rsp) (.reg .rsi),
      .movq (.imm (-1)) (.mem utask_regs_orig_rax .rsp)]
  else []) ++
  [.call .cfunc,
    .jmp .error_return]

def IDTENTRY (has_error_code : Bool) : Listing :=
  [.label .asm_cfunc,
    .cld] ++
  (if has_error_code then [] else [.pushq (.imm (-1))]) ++
  IDTENTRY_BODY has_error_code

/-- What comes to the entry point: an exception, one for which the processor pushes an error
code, or a device's interrupt, whose vector is pushed by its own piece of `irq_entries_start`. -/
inductive Event where
  | exception
  | exceptionWithCode (code : Word)
  | interrupt (vector : Word)

namespace Event

/-- The word that the C function gets as its second argument. -/
def argument : Event → Option Word
  | exception => none
  | exceptionWithCode code => some code
  | interrupt vector => some vector

/-- The word that the processor pushes. -/
def errorCode : Event → Option Word
  | exceptionWithCode code => some code
  | _ => none

/-- The piece of `irq_entries_start`. -/
def irqEntry : Event → Listing
  | interrupt vector => [.label .irq_entries_start, .pushq (.imm vector), .jmp .asm_cfunc]
  | _ => []

/-- Where the gate of the event leads. -/
def gate : Event → Symbol
  | interrupt _ => .irq_entries_start
  | _ => .asm_cfunc

end Event

/-- The code that runs for an event. -/
def listing (e : Event) : Listing :=
  errorEntry ++ commonInterruptReturn ++ errorReturn ++ e.irqEntry ++ IDTENTRY e.argument.isSome

/-! ## What the processor does -/

/-- What an interrupt interrupts. -/
structure Context where
  reg : Reg → Word
  rip : Word
  cs : Word
  rflags : Word
  ss : Word

namespace Context

variable (c : Context)

/-- The privilege level is in the lowest bits of the code segment. -/
def User : Prop := c.cs.setWidth 8 &&& 3 ≠ 0

instance : Decidable c.User := inferInstanceAs (Decidable (_ ≠ _))

def field (orig_rax : Word) : Field → Word
  | .register r => c.reg r
  | .orig_rax => orig_rax
  | .rip => c.rip
  | .cs => c.cs
  | .eflags => c.rflags
  | .rsp => c.reg .rsp
  | .ss => c.ss

/-- The context as a `struct utask_regs`. -/
def toUtaskRegs (orig_rax : Word) : List Word := utaskRegs.map (c.field orig_rax)

/-- The context that a `struct utask_regs` in memory says. -/
def ofMem (mem : Word → Word) (regs : Word) : Context where
  reg r := mem (regs + offsetof (if r = .rsp then .rsp else .register r))
  rip := mem (regs + offsetof .rip)
  cs := mem (regs + offsetof .cs)
  rflags := mem (regs + offsetof .eflags)
  ss := mem (regs + offsetof .ss)

/-- What the processor pushes for every event, the last word first. -/
def iretFrame : List Word := [c.rip, c.cs, c.rflags, c.reg .rsp, c.ss]

end Context

/-- The stacks of a processor: `cpu_tss.rsp0` is the end of its own, and `percpu_hot.top_of_stack`
that of the task's. They are apart from each other, and have room for the registers. -/
structure Cpu where
  rsp0 : Word
  top_of_stack : Word
  /-- Where the processor's own stack begins. -/
  percpu_stack : Word
  rsp0_aligned : Aligned rsp0
  top_aligned : Aligned top_of_stack
  percpu_room : percpu_stack.toNat + 8 * 23 ≤ rsp0.toNat
  utask_room : 8 * 21 ≤ top_of_stack.toNat
  apart : top_of_stack.toNat ≤ percpu_stack.toNat ∨
    rsp0.toNat ≤ top_of_stack.toNat - 8 * 21

/-- The address that the processor pushes in front of: the end of its own stack, or where the
kernel's stack has been interrupted, aligned to 16 bytes. -/
def Cpu.frame (cpu : Cpu) (c : Context) : Word :=
  BitVec.ofNat 64 ((if c.User then cpu.rsp0 else c.reg .rsp).toNat / 16 * 16)

/-- The processor has delivered an event: it has pushed its words, and goes on at the gate. In
user mode GS has the base of the user. -/
def deliver (cpu : Cpu) (e : Event) (c : Context) (mem : Word → Word) : State Symbol :=
  State.pushes
    { place := find (listing e) e.gate
      reg := Function.update c.reg .rsp (cpu.frame c)
      zf := c.rflags.getLsbD 6
      df := c.rflags.getLsbD 10
      mem
      kernelGs := !decide c.User
      swaps := 0 }
    (c.iretFrame.reverse ++ e.errorCode.toList)

/-- `iretq`. -/
def iretq (s : State Symbol) : Option Context := do
  let rip ← s.load (s.reg .rsp)
  let cs ← s.load (s.reg .rsp + 8)
  let rflags ← s.load (s.reg .rsp + 16)
  let rsp ← s.load (s.reg .rsp + 24)
  let ss ← s.load (s.reg .rsp + 32)
  return ⟨Function.update s.reg .rsp rsp, rip, cs, rflags, ss⟩

/-! ## The C functions -/

/-- `switch_utask_stack`: what it returns, and memory behind it. -/
def switchUtaskStack (cpu : Cpu) (percpu_regs : Word) (mem : Word → Word) : Word × (Word → Word) :=
  let regs := cpu.top_of_stack - bytes utaskRegs.length
  (regs, fun a =>
    if (a - regs).toNat < 8 * utaskRegs.length then mem (percpu_regs + (a - regs)) else mem a)

/-- The calling convention: a function returns to where it has been called from and keeps the
stack pointer, the callee-saved registers, the direction flag and GS. -/
structure Returns (s t : State Symbol) : Prop where
  place : t.place = .line (s.mem (s.reg .rsp)).toNat
  rsp : t.reg .rsp = s.reg .rsp + 8
  saved : ∀ r ∈ [Reg.rbx, .rbp, .r12, .r13, .r14, .r15], t.reg r = s.reg r
  keeps : s.Keeps t

/-- `switch_utask_stack` is called on the processor's stack, below the registers. -/
structure Cpu.Switching (cpu : Cpu) (s : State Symbol) : Prop where
  df : s.df = false
  kernelGs : s.kernelGs = true
  room : cpu.percpu_stack.toNat ≤ (s.reg .rsp).toNat
  below : (s.reg .rsp).toNat + 8 * 22 ≤ cpu.rsp0.toNat

/-- `switch_utask_stack` as it has been compiled. It has what is below the stack pointer for
itself. -/
structure Compiled (cpu : Cpu) (f : State Symbol → State Symbol) : Prop where
  returns : ∀ s, cpu.Switching s → Returns s (f s)
  rax : ∀ s, cpu.Switching s → (f s).reg .rax = (switchUtaskStack cpu (s.reg .rdi) s.mem).1
  mem : ∀ s, cpu.Switching s → ∀ a,
    a.toNat < cpu.percpu_stack.toNat ∨ (s.reg .rsp).toNat ≤ a.toNat →
      (f s).mem a = (switchUtaskStack cpu (s.reg .rdi) s.mem).2 a

/-- A function that handles an event is called with the registers on top of the stack. -/
structure Handling (s : State Symbol) : Prop where
  df : s.df = false
  kernelGs : s.kernelGs = true
  regs : s.reg .rdi = s.reg .rsp + 8

/-- It obeys the calling convention, and may change the registers, but not from those of kernel
mode to those of user mode or back. -/
structure Handles (f : State Symbol → State Symbol) : Prop where
  returns : ∀ s, Handling s → Returns s (f s)
  user : ∀ s, Handling s →
    ((Context.ofMem (f s).mem (s.reg .rdi)).User ↔ (Context.ofMem s.mem (s.reg .rdi)).User)

/-- It obeys the calling convention, and leaves the registers as they are, apart from `orig_rax`. -/
structure KeepsRegs (f : State Symbol → State Symbol) : Prop where
  returns : ∀ s, Handling s → Returns s (f s)
  keeps : ∀ s, Handling s → ∀ field ∈ utaskRegs, field ≠ .orig_rax →
    (f s).mem (s.reg .rdi + offsetof field) = s.mem (s.reg .rdi + offsetof field)

/-! ## Registers that memory holds -/

section Registers

variable {mem : Word → Word} {regs word : Word}

theorem mem_utaskRegs_of_ne {r : Reg} (h : r ≠ .rsp) : .register r ∈ utaskRegs := by
  revert h
  cases r <;> decide

theorem Context.ofMem_reg {r : Reg} (h : r ≠ .rsp) (mem : Word → Word) (regs : Word) :
    (ofMem mem regs).reg r = mem (regs + offsetof (.register r)) :=
  congrArg (fun f => mem (regs + offsetof f)) (if_neg h)

/-- What is in memory for a field. -/
theorem Context.mem_of_holds {c : Context} (h : Holds mem regs (c.toUtaskRegs word)) {f : Field}
    (hf : f ∈ utaskRegs) : mem (regs + offsetof f) = c.field word f := by
  have hindex := List.idxOf_lt_length_of_mem hf
  rw [offsetof, h.get (by rwa [toUtaskRegs, List.length_map])]
  exact (List.getElem_map _).trans (congrArg (c.field word) (List.getElem_idxOf hindex))

theorem Context.ofMem_of_holds {c : Context} (h : Holds mem regs (c.toUtaskRegs word)) :
    ofMem mem regs = c := by
  have hreg : (ofMem mem regs).reg = c.reg := funext fun r => by
    by_cases hr : r = .rsp
    · subst hr
      exact mem_of_holds (f := .rsp) h (by decide)
    · exact (ofMem_reg hr mem regs).trans (mem_of_holds h (mem_utaskRegs_of_ne hr))
  have hrip : (ofMem mem regs).rip = c.rip := mem_of_holds (f := .rip) h (by decide)
  have hcs : (ofMem mem regs).cs = c.cs := mem_of_holds (f := .cs) h (by decide)
  have hflags : (ofMem mem regs).rflags = c.rflags := mem_of_holds (f := .eflags) h (by decide)
  have hss : (ofMem mem regs).ss = c.ss := mem_of_holds (f := .ss) h (by decide)
  generalize ofMem mem regs = d at hreg hrip hcs hflags hss
  cases d
  cases c
  subst hreg hrip hcs hflags hss
  rfl

theorem Context.ofMem_congr {mem' : Word → Word} (h : ∀ f ∈ utaskRegs, f ≠ .orig_rax →
    mem' (regs + offsetof f) = mem (regs + offsetof f)) : ofMem mem' regs = ofMem mem regs := by
  have hreg : (ofMem mem' regs).reg = (ofMem mem regs).reg := funext fun r => by
    by_cases hr : r = .rsp
    · subst hr
      exact h .rsp (by decide) nofun
    · rw [ofMem_reg hr, ofMem_reg hr]
      exact h _ (mem_utaskRegs_of_ne hr) nofun
  have hrip := h .rip (by decide) nofun
  have hcs := h .cs (by decide) nofun
  have hflags := h .eflags (by decide) nofun
  have hss := h .ss (by decide) nofun
  exact Context.mk.injEq .. ▸ ⟨hreg, hrip, hcs, hflags, hss⟩

/-- Memory holds what it says. -/
theorem Context.holds_ofMem (mem : Word → Word) (regs : Word) :
    Holds mem regs ((ofMem mem regs).toUtaskRegs (mem (regs + utask_regs_orig_rax))) := by
  refine holds_iff.mpr fun i hi => ?_
  rw [toUtaskRegs, List.length_map] at hi
  have hnodup : utaskRegs.Nodup := by decide
  have hrsp : .register .rsp ∉ utaskRegs := by decide
  have hfield : ∀ f, f ≠ .register .rsp →
      mem (regs + offsetof f) = (ofMem mem regs).field (mem (regs + utask_regs_orig_rax)) f := by
    intro f hf
    cases f with
    | register r =>
        exact (ofMem_reg (fun heq => hf (congrArg _ heq)) mem regs).symm
    | _ => rfl
  have hf := hfield utaskRegs[i] fun heq => hrsp (heq ▸ List.getElem_mem hi)
  rw [offsetof, hnodup.idxOf_getElem] at hf
  exact hf.trans (List.getElem_map _).symm

theorem KeepsRegs.ofMem {f : State Symbol → State Symbol} (h : KeepsRegs f) {s : State Symbol}
    (hs : Handling s) :
    Context.ofMem (f s).mem (s.reg .rdi) = Context.ofMem s.mem (s.reg .rdi) :=
  Context.ofMem_congr (h.keeps s hs)

theorem KeepsRegs.handles {f : State Symbol → State Symbol} (h : KeepsRegs f) : Handles f where
  returns := h.returns
  user s hs := by rw [h.ofMem hs]

end Registers

/-- The code runs with these C functions, on this processor. -/
def environment (cpu : Cpu) (switch cfunc : State Symbol → State Symbol) :
    Environment Symbol PerCpu where
  outside
    | .switch_utask_stack => some switch
    | .cfunc => some cfunc
    | _ => none
  percpu
    | .cpu_tss_rsp0 => cpu.rsp0

end Cyanea.Entry
