/-
# Running assembly code

The few instructions of a 64-bit x86 processor that code for kernel entry consists of. A program
is a listing of labels and instructions, so that it can be read next to its source, and an
address of code is a position in the listing. A label that the listing does not have is code
outside of it, which takes one step to return.

Memory is made of aligned words, and addresses wrap around. An access that is not aligned stops
the machine.
-/

import Mathlib.Algebra.Group.Nat.Defs
import Mathlib.Data.Nat.Notation
import Mathlib.Logic.Function.Basic
import Mathlib.Logic.Relation

namespace Cyanea.Asm

abbrev Word : Type := BitVec 64

inductive Reg where
  | rax | rbx | rcx | rdx | rsi | rdi | rbp | rsp | r8 | r9 | r10 | r11 | r12 | r13 | r14 | r15
  deriving DecidableEq

/-- What an instruction reads or writes: a register, a number, `disp(%base)`, or a variable of
the processor that runs the code, which is found through GS. -/
inductive Operand (V : Type) where
  | reg (r : Reg)
  | imm (v : Word)
  | mem (disp : Word) (base : Reg)
  | percpu (x : V)

/-- A line of a listing. -/
inductive Line (L V : Type) where
  | label (l : L)
  | cld
  | pushq (src : Operand V)
  | popq (r : Reg)
  | movq (src dst : Operand V)
  | leaq (disp : Word) (base dst : Reg)
  | addq (v : Word) (r : Reg)
  | testb (mask : BitVec 8) (disp : Word) (base : Reg)
  | jz (l : L)
  | jmp (l : L)
  | call (l : L)
  | ret
  | swapgs
  | iretq

/-- Where control is: at a line of the listing, or at the beginning of code outside. -/
inductive Place (L : Type) where
  | line (i : ℕ)
  | outside (l : L)

/-- The registers, two of the flags, memory, and whether GS has the base of the kernel; `swaps`
counts the instructions that exchange it. -/
structure State (L : Type) where
  place : Place L
  reg : Reg → Word
  zf : Bool
  df : Bool
  mem : Word → Word
  kernelGs : Bool
  swaps : ℕ

/-- What code outside of the listing does until it has returned, and the processor's
variables. -/
structure Environment (L V : Type) where
  outside : L → Option (State L → State L)
  percpu : V → Word

/-- The address of a word. -/
def Aligned (a : Word) : Prop := a.toNat % 8 = 0

instance (a : Word) : Decidable (Aligned a) := inferInstanceAs (Decidable (_ = _))

namespace State

variable {L : Type} (s : State L)

def goto (i : ℕ) : State L := { s with place := .line i }

def setReg (r : Reg) (v : Word) : State L := { s with reg := Function.update s.reg r v }

def setMem (a v : Word) : State L := { s with mem := Function.update s.mem a v }

def load (a : Word) : Option Word := if Aligned a then some (s.mem a) else none

def store (a v : Word) : Option (State L) := if Aligned a then some (s.setMem a v) else none

def push (v : Word) : Option (State L) := (s.setReg .rsp (s.reg .rsp - 8)).store (s.reg .rsp - 8) v

end State

section Step

variable {L V : Type} [DecidableEq L] (text : List (Line L V)) (env : Environment L V)

def value (s : State L) : Operand V → Option Word
  | .reg r => some (s.reg r)
  | .imm v => some v
  | .mem disp base => s.load (s.reg base + disp)
  | .percpu x => if s.kernelGs then some (env.percpu x) else none

def assign (s : State L) (v : Word) : Operand V → Option (State L)
  | .reg r => some (s.setReg r v)
  | .mem disp base => s.store (s.reg base + disp) v
  | _ => none

def isLabel (l : L) : Line L V → Bool
  | .label m => m = l
  | _ => false

/-- Where a label is. -/
def find (l : L) : Place L :=
  match text.findIdx? (isLabel l) with
  | some i => .line i
  | none => .outside l

/-- The line at this position. There is no next state if the machine stops; `iretq` ends the run,
since it leaves the listing. -/
def exec (i : ℕ) (s : State L) : Line L V → Option (State L)
  | .label _ => some (s.goto (i + 1))
  | .cld => some { s.goto (i + 1) with df := false }
  | .pushq src => (value env s src).bind (s.goto (i + 1)).push
  | .popq r =>
    (s.load (s.reg .rsp)).map fun v => ((s.goto (i + 1)).setReg .rsp (s.reg .rsp + 8)).setReg r v
  | .movq src dst => (value env s src).bind fun v => assign (s.goto (i + 1)) v dst
  | .leaq disp base dst => some ((s.goto (i + 1)).setReg dst (s.reg base + disp))
  | .addq v r => some ((s.goto (i + 1)).setReg r (s.reg r + v))
  | .testb mask disp base =>
    (s.load (s.reg base + disp)).map fun v =>
      { s.goto (i + 1) with zf := v.setWidth 8 &&& mask = 0 }
  | .jz l => some (if s.zf then { s with place := find text l } else s.goto (i + 1))
  | .jmp l => some { s with place := find text l }
  | .call l => ({ s with place := find text l }).push (BitVec.ofNat 64 (i + 1))
  | .ret => (s.load (s.reg .rsp)).map fun v => (s.goto v.toNat).setReg .rsp (s.reg .rsp + 8)
  | .swapgs => some { s.goto (i + 1) with kernelGs := !s.kernelGs, swaps := s.swaps + 1 }
  | .iretq => none

def step (s : State L) : Option (State L) :=
  match s.place with
  | .line i => text[i]?.bind (exec text env i s)
  | .outside l => (env.outside l).map fun f => f s

/-- The run from one state comes to another. -/
def Leads : State L → State L → Prop := Relation.ReflTransGen fun s t => step text env s = some t

end Step

/-! ## Addresses -/

/-- The size of so many words. -/
def bytes (n : ℕ) : Word := BitVec.ofNat 64 (8 * n)

theorem bytes_add (m n : ℕ) : bytes (m + n) = bytes m + bytes n := by
  rw [bytes, Nat.mul_add, BitVec.ofNat_add]
  rfl

theorem aligned_add {a : Word} (h : Aligned a) (n : ℕ) : Aligned (a + bytes n) := by
  rw [Aligned] at h ⊢
  rw [bytes, BitVec.toNat_add, BitVec.toNat_ofNat]
  omega

theorem aligned_sub {a : Word} (h : Aligned a) (n : ℕ) : Aligned (a - bytes n) := by
  rw [Aligned] at h ⊢
  rw [bytes, BitVec.toNat_sub, BitVec.toNat_ofNat]
  omega

/-- Words that do not come around to each other. -/
theorem add_bytes_ne {a : Word} {m n : ℕ} (h : m < n) (hn : n < m + 2 ^ 61) :
    a + bytes m ≠ a + bytes n := by
  intro heq
  have hnat := congrArg BitVec.toNat heq
  rw [bytes, bytes, BitVec.toNat_add, BitVec.toNat_add, BitVec.toNat_ofNat,
    BitVec.toNat_ofNat] at hnat
  omega

end Cyanea.Asm
