/-
# The way into the kernel

From the gate of an event to the C function that handles it. The registers are pushed as a
`struct utask_regs`, below the words of the processor; after an interrupt in user mode they are
copied to the stack of the task.
-/

import Cyanea.Entry.Code

namespace Cyanea.Entry

open Asm

variable {cpu : Cpu} {e : Event} {c : Context} {mem : Word → Word}
  {env : Environment Symbol PerCpu} {s : State Symbol}

/-- The word above the words of the processor: the error code, the vector, or `-1`. -/
def Event.word (e : Event) : Word := e.argument.getD (-1)

/-- Where `IDTENTRY_BODY` begins. -/
def Event.body (e : Event) : ℕ := (listing e).length - (IDTENTRY_BODY e.argument.isSome).length

theorem aligned_frame (cpu : Cpu) (c : Context) : Aligned (cpu.frame c) := by
  rw [Aligned, Cpu.frame, BitVec.toNat_ofNat]
  omega

/-! ## The entry point -/

/-- Control is here, and these words are on the stack, below the frame of the processor. -/
structure Entered (cpu : Cpu) (c : Context) (place : Place Symbol) (words : List Word)
    (t : State Symbol) : Prop where
  place : t.place = place
  rsp : t.reg .rsp = cpu.frame c - bytes words.length
  reg : ∀ r, r ≠ .rsp → t.reg r = c.reg r
  holds : Holds t.mem (t.reg .rsp) words
  kernelGs : t.kernelGs = !decide c.User
  swaps : t.swaps = 0

variable {place : Place Symbol} {words : List Word} {i : ℕ}

theorem Entered.aligned (h : Entered cpu c place words s) : Aligned (s.reg .rsp) := by
  rw [h.rsp]
  exact aligned_sub (aligned_frame cpu c) _

theorem Entered.goto (h : Entered cpu c place words s) (i : ℕ) :
    Entered cpu c (.line i) words (s.goto i) :=
  ⟨rfl, h.rsp, h.reg, h.holds, h.kernelGs, h.swaps⟩

theorem Entered.cld (h : Entered cpu c place words s) (i : ℕ) :
    Entered cpu c (.line i) words { s.goto i with df := false } :=
  ⟨rfl, h.rsp, h.reg, h.holds, h.kernelGs, h.swaps⟩

theorem Entered.pushed (h : Entered cpu c place words s) (hlength : words.length + 1 < 2 ^ 61)
    (v : Word) : Entered cpu c place (v :: words) (s.pushed v) where
  place := h.place
  rsp := by
    rw [State.pushed_rsp, h.rsp, List.length_cons, bytes_add, bytes_one, BitVec.sub_sub]
  reg r hr := (State.pushed_reg hr s v).trans (h.reg r hr)
  holds := by
    rw [State.pushed_rsp]
    exact h.holds.push hlength v
  kernelGs := h.kernelGs
  swaps := h.swaps

theorem entered_deliver (cpu : Cpu) (e : Event) (c : Context) (mem : Word → Word) :
    Entered cpu c (find (listing e) e.gate) (e.errorCode.toList ++ c.iretFrame)
      (deliver cpu e c mem) := by
  have hstart : Entered cpu c (find (listing e) e.gate) []
      { place := find (listing e) e.gate
        reg := Function.update c.reg .rsp (cpu.frame c)
        zf := c.rflags.getLsbD 6
        df := c.rflags.getLsbD 10
        mem
        kernelGs := !decide c.User
        swaps := 0 } :=
    { place := rfl
      rsp := by
        dsimp only
        rw [Function.update_self]
        exact (BitVec.sub_zero _).symm
      reg := fun r hr => Function.update_of_ne hr ..
      holds := trivial
      kernelGs := rfl
      swaps := rfl }
  have hframe := ((((hstart.pushed (by decide) c.ss).pushed (by simp) (c.reg .rsp)).pushed
    (by simp) c.rflags).pushed (by simp) c.cs).pushed (by simp) c.rip
  cases e with
  | exception => exact hframe
  | exceptionWithCode code => exact hframe.pushed (by simp) code
  | interrupt vector => exact hframe

/-- The entry point has pushed the word that the processor may have left out. -/
theorem leads_entered (cpu : Cpu) (e : Event) (c : Context) (mem : Word → Word) :
    ∃ t, Leads (listing e) env (deliver cpu e c mem) t ∧
      Entered cpu c (.line e.body) (e.word :: c.iretFrame) t ∧ t.df = false := by
  have hstart := entered_deliver cpu e c mem
  generalize deliver cpu e c mem = s at hstart
  have hlength : c.iretFrame.length + 1 < 2 ^ 61 := (by decide : 5 + 1 < 2 ^ 61)
  cases e with
  | exception =>
      have hlabel : Leads (listing .exception) env s (s.goto 77) :=
        leads_line hstart.place rfl rfl
      generalize ht : ({ (s.goto 77).goto 78 with df := false } : State Symbol) = t
      have hcld : Leads (listing .exception) env (s.goto 77) t :=
        ht ▸ leads_line rfl rfl rfl
      have hentered : Entered cpu c (.line 78) c.iretFrame t := ht ▸ (hstart.goto 77).cld 78
      exact ⟨_, (hlabel.trans hcld).trans (leads_pushq hentered.place rfl rfl hentered.aligned),
        (hentered.goto 79).pushed hlength (-1), ht ▸ rfl⟩
  | exceptionWithCode code =>
      have hlabel : Leads (listing (.exceptionWithCode code)) env s (s.goto 77) :=
        leads_line hstart.place rfl rfl
      exact ⟨_, hlabel.trans (leads_line rfl rfl rfl), (hstart.goto 77).cld 78, rfl⟩
  | interrupt vector =>
      have hlabel : Leads (listing (.interrupt vector)) env s (s.goto 77) :=
        leads_line hstart.place rfl rfl
      have hpush : Leads (listing (.interrupt vector)) env (s.goto 77)
          (((s.goto 77).goto 78).pushed vector) :=
        leads_pushq (hstart.goto 77).place rfl rfl (hstart.goto 77).aligned
      have hpushed := ((hstart.goto 77).goto 78).pushed hlength vector
      generalize (((s.goto 77).goto 78).pushed vector) = t at hpush hpushed
      have hjmp : Leads (listing (.interrupt vector)) env t (t.goto 79) :=
        leads_line hpushed.place rfl rfl
      have hlabel' : Leads (listing (.interrupt vector)) env (t.goto 79) ((t.goto 79).goto 80) :=
        leads_line rfl rfl rfl
      exact ⟨_, (((hlabel.trans hpush).trans hjmp).trans hlabel').trans (leads_line rfl rfl rfl),
        ((hpushed.goto 79).goto 80).cld 81, rfl⟩

/-! ## Saving the registers -/

/-- Where the body goes on after `error_entry`. -/
def Event.resume (e : Event) : ℕ := e.body + 1

/-- `error_entry` has been called, and RSI pushed. -/
theorem leads_called (h : Entered cpu c (.line e.body) (e.word :: c.iretFrame) s)
    (hdf : s.df = false) :
    ∃ t, Leads (listing e) env s t ∧ t.df = false ∧ Entered cpu c (.line 2)
      (c.reg .rsi :: BitVec.ofNat 64 e.resume :: e.word :: c.iretFrame) t := by
  have hcode : (listing e)[e.body]? = some (.call .error_entry) := by
    cases e with
    | exception => rfl
    | exceptionWithCode code => rfl
    | interrupt vector => rfl
  have hcall : Leads (listing e) env s ((s.goto 0).pushed (BitVec.ofNat 64 e.resume)) :=
    leads_call h.place hcode h.aligned
  have hcalled := (h.goto 0).pushed (by decide : 6 + 1 < 2 ^ 61) (BitVec.ofNat 64 e.resume)
  have hdf' : ((s.goto 0).pushed (BitVec.ofNat 64 e.resume)).df = false := hdf
  generalize (s.goto 0).pushed (BitVec.ofNat 64 e.resume) = t at hcall hcalled hdf'
  have hlabel : Leads (listing e) env t (t.goto 1) := leads_line hcalled.place rfl rfl
  have hrsi : Leads (listing e) env (t.goto 1) (((t.goto 1).goto 2).pushed (c.reg .rsi)) := by
    rw [← hcalled.reg .rsi (by decide)]
    exact leads_pushq rfl rfl rfl hcalled.aligned
  exact ⟨_, (hcall.trans hlabel).trans hrsi, hdf',
    ((hcalled.goto 1).goto 2).pushed (by decide : 7 + 1 < 2 ^ 61) _⟩

/-- RDI has been stored in the place of the return address, which is in RSI. -/
structure Exchanged (cpu : Cpu) (e : Event) (c : Context) (t : State Symbol) : Prop where
  place : t.place = .line 4
  rsp : t.reg .rsp = cpu.frame c - bytes 8
  rsi : t.reg .rsi = BitVec.ofNat 64 e.resume
  reg : ∀ r, r ≠ .rsp → r ≠ .rsi → t.reg r = c.reg r
  holds : Holds t.mem (t.reg .rsp) (c.reg .rsi :: c.reg .rdi :: e.word :: c.iretFrame)
  df : t.df = false
  kernelGs : t.kernelGs = !decide c.User
  swaps : t.swaps = 0

theorem leads_exchanged (h : Entered cpu c (.line 2)
      (c.reg .rsi :: BitVec.ofNat 64 e.resume :: e.word :: c.iretFrame) s) (hdf : s.df = false) :
    ∃ t, Leads (listing e) env s t ∧ Exchanged cpu e c t := by
  generalize hret : BitVec.ofNat 64 e.resume = ret at h
  have haligned : Aligned (s.reg .rsp + 8) := aligned_add h.aligned 1
  have htake : Leads (listing e) env s ((s.goto 3).setReg .rsi ret) := by
    refine leads_line h.place rfl ?_
    rw [exec, value, State.load_eq haligned, h.holds.2.1]
    rfl
  generalize ht : (s.goto 3).setReg .rsi ret = t at htake
  have hplace : t.place = .line 3 := ht ▸ rfl
  have hreg : ∀ r, r ≠ .rsi → t.reg r = s.reg r :=
    fun r hr => ht ▸ State.setReg_of_ne hr (s.goto 3) ret
  have hrsp : t.reg .rsp = s.reg .rsp := hreg .rsp (by decide)
  have hput : Leads (listing e) env t ((t.goto 4).setMem (t.reg .rsp + 8) (t.reg .rdi)) := by
    refine leads_line hplace rfl ?_
    exact State.store_eq (s := t.goto 4) (hrsp ▸ haligned) _
  refine ⟨_, htake.trans hput, ?_⟩
  have hset : Holds (Function.update s.mem (s.reg .rsp + 8) (c.reg .rdi)) (s.reg .rsp)
      (c.reg .rsi :: c.reg .rdi :: e.word :: c.iretFrame) :=
    h.holds.set (by decide : 8 < 2 ^ 61) (by decide : 1 < 8) (c.reg .rdi)
  have hrsi : t.reg .rsi = ret := ht ▸ State.setReg_self (s.goto 3) .rsi ret
  refine ⟨rfl, hrsp.trans h.rsp, hrsi.trans hret.symm,
    fun r hr hr' => (hreg r hr').trans (h.reg r hr), ?_, ?_, ?_, ?_⟩
  · have hmem : t.mem = s.mem := ht ▸ rfl
    have hrdi : t.reg .rdi = c.reg .rdi := (hreg .rdi (by decide)).trans (h.reg .rdi (by decide))
    rw [← hrdi, ← hmem, ← hrsp] at hset
    rw [← hrdi]
    exact hset
  · exact ht ▸ hdf
  · exact ht ▸ h.kernelGs
  · exact ht ▸ h.swaps

/-- All registers are on the stack, below them the address that `error_entry` returns to. -/
structure Saved (cpu : Cpu) (e : Event) (c : Context) (i : ℕ) (t : State Symbol) : Prop where
  place : t.place = .line i
  rsp : t.reg .rsp = cpu.frame c - bytes 22
  holds : Holds t.mem (t.reg .rsp) (BitVec.ofNat 64 e.resume :: c.toUtaskRegs e.word)
  df : t.df = false
  kernelGs : t.kernelGs = !decide c.User
  swaps : t.swaps = 0

/-- `PUSH_REGS`, and the return address again. -/
theorem leads_saved (h : Exchanged cpu e c s) :
    ∃ t, Leads (listing e) env s t ∧ Saved cpu e c 18 t := by
  have hregs : pushRegs.map s.reg = pushRegs.map c.reg := List.map_congr_left fun r hr => by
    have hne : ∀ r ∈ pushRegs, r ≠ .rsp ∧ r ≠ .rsi := by decide
    exact h.reg r (hne r hr).1 (hne r hr).2
  have haligned : Aligned (s.reg .rsp) := by
    rw [h.rsp]
    exact aligned_sub (aligned_frame cpu c) 8
  obtain ⟨t, hleads, hplace, hpushes⟩ : ∃ t, Leads (listing e) env s t ∧
      t.place = .line 17 ∧ s.Pushes (pushRegs.map s.reg) t :=
    leads_pushes h.place rfl (by decide : .rsp ∉ pushRegs) haligned
  rw [hregs] at hpushes
  have hrsp : t.reg .rsp = cpu.frame c - bytes 21 := by
    rw [hpushes.rsp, h.rsp, BitVec.sub_sub]
    rfl
  have haligned' : Aligned (t.reg .rsp) := by
    rw [hrsp]
    exact aligned_sub (aligned_frame cpu c) 21
  have hrsi : t.reg .rsi = BitVec.ofNat 64 e.resume :=
    (hpushes.reg .rsi (by decide)).trans h.rsi
  have hpush : Leads (listing e) env t ((t.goto 18).pushed (BitVec.ofNat 64 e.resume)) := by
    rw [← hrsi]
    exact leads_pushq hplace rfl rfl haligned'
  refine ⟨_, hleads.trans hpush, rfl, ?_, ?_, hpushes.keeps.df.trans h.df,
    hpushes.keeps.kernelGs.trans h.kernelGs, hpushes.keeps.swaps.trans h.swaps⟩
  · rw [State.pushed_rsp]
    show t.reg .rsp - 8 = _
    rw [hrsp, BitVec.sub_sub]
    rfl
  · have hholds : Holds t.mem (t.reg .rsp) (c.toUtaskRegs e.word) :=
      hpushes.holds _ (by decide : 13 + 8 < 2 ^ 61) h.holds
    exact hholds.push (by decide : 21 + 1 < 2 ^ 61) _

theorem Saved.aligned (h : Saved cpu e c i s) : Aligned (s.reg .rsp) := by
  rw [h.rsp]
  exact aligned_sub (aligned_frame cpu c) 22

theorem Saved.goto (h : Saved cpu e c i s) (j : ℕ) : Saved cpu e c j (s.goto j) :=
  ⟨rfl, h.rsp, h.holds, h.df, h.kernelGs, h.swaps⟩

/-- The test of the code segment tells where the event comes from. -/
theorem leads_tested (h : Saved cpu e c 18 s) : ∃ t, Leads (listing e) env s t ∧
    Saved cpu e c (if c.User then 20 else 24) t := by
  have hcs : s.mem (s.reg .rsp + bytes 18) = c.cs := h.holds.get (by decide : 18 < 22)
  have htest : Leads (listing e) env s { s with
      place := if c.cs.setWidth 8 &&& 3 = 0 then find (listing e) .Lerror_entry_ukernel
        else .line 20
      zf := c.cs.setWidth 8 &&& 3 = 0 } :=
    leads_testb_jz h.place rfl rfl (aligned_add h.aligned 18) hcs
  refine ⟨_, htest, ?_, h.rsp, h.holds, h.df, h.kernelGs, h.swaps⟩
  by_cases huser : c.User
  · rw [if_pos huser]
    exact if_neg huser
  · rw [if_neg huser]
    exact if_pos (not_not.mp huser)

/-- An event comes to one of the two ends of `error_entry`. -/
theorem leads_deliver (cpu : Cpu) (e : Event) (c : Context) (mem : Word → Word) :
    ∃ t, Leads (listing e) env (deliver cpu e c mem) t ∧
      Saved cpu e c (if c.User then 20 else 24) t := by
  obtain ⟨s₁, (hleads₁ : Leads (listing e) env _ _), hentered, hdf⟩ := leads_entered cpu e c mem
  obtain ⟨s₂, (hleads₂ : Leads (listing e) env _ _), hdf', hcalled⟩ := leads_called hentered hdf
  obtain ⟨s₃, (hleads₃ : Leads (listing e) env _ _), hexchanged⟩ := leads_exchanged hcalled hdf'
  obtain ⟨s₄, (hleads₄ : Leads (listing e) env _ _), hsaved⟩ := leads_saved hexchanged
  obtain ⟨s₅, (hleads₅ : Leads (listing e) env _ _), htested⟩ := leads_tested hsaved
  exact ⟨s₅, (((hleads₁.trans hleads₂).trans hleads₃).trans hleads₄).trans hleads₅, htested⟩

/-- The registers are in a `struct utask_regs` at this address, on the stack that the C function
runs on. -/
structure Switched (e : Event) (c : Context) (regs : Word) (t : State Symbol) : Prop where
  place : t.place = .line e.resume
  rax : t.reg .rax = regs
  holds : Holds t.mem regs (c.toUtaskRegs e.word)
  df : t.df = false
  kernelGs : t.kernelGs = true
  swaps : t.swaps = if c.User then 1 else 0

/-- Where the registers are. -/
def Cpu.regs (cpu : Cpu) (c : Context) : Word :=
  (if c.User then cpu.top_of_stack else cpu.frame c) - bytes 21

theorem Cpu.regs_aligned (cpu : Cpu) (c : Context) : Aligned (cpu.regs c) := by
  rw [Cpu.regs]
  split
  · exact aligned_sub cpu.top_aligned 21
  · exact aligned_sub (aligned_frame cpu c) 21

theorem toNat_resume (e : Event) : (BitVec.ofNat 64 e.resume).toNat = e.resume := by
  cases e with
  | exception => rfl
  | exceptionWithCode code => rfl
  | interrupt vector => rfl

/-- In kernel mode they are where they have been pushed. -/
theorem leads_switched_kernel (hkernel : ¬ c.User) (h : Saved cpu e c 24 s) :
    ∃ t, Leads (listing e) env s t ∧ Switched e c (cpu.regs c) t := by
  have hregs : s.reg .rsp + 8 = cpu.regs c := by
    rw [h.rsp, Cpu.regs, if_neg hkernel, (bytes_add 21 1 : bytes 22 = _), ← BitVec.sub_sub]
    exact BitVec.sub_add_cancel ..
  generalize ht : (s.goto 26).setReg .rax (cpu.regs c) = t
  have hleaq : Leads (listing e) env s t := by
    rw [← ht, ← hregs]
    exact (leads_line h.place rfl rfl).trans (leads_line rfl rfl rfl)
  have hrsp : t.reg .rsp = s.reg .rsp := ht ▸ State.setReg_of_ne (by decide) (s.goto 26) _
  have hrax : t.reg .rax = cpu.regs c := ht ▸ State.setReg_self (s.goto 26) ..
  have hmem : t.mem = s.mem := ht ▸ rfl
  have hret : Leads (listing e) env t ((t.goto e.resume).setReg .rsp (t.reg .rsp + 8)) := by
    refine leads_line (i := 26) (ht ▸ rfl) rfl ?_
    rw [exec, State.load_eq (hrsp ▸ h.aligned), hmem, hrsp, h.holds.1, Option.map_some, toNat_resume]
  refine ⟨_, hleaq.trans hret, rfl, ?_, ?_, ?_, ?_, ?_⟩
  · exact (State.setReg_of_ne (by decide) _ _).trans hrax
  · show Holds t.mem _ _
    rw [hmem, ← hregs]
    exact h.holds.2
  · exact ht ▸ h.df
  · have hgs := h.kernelGs
    rw [decide_eq_false hkernel] at hgs
    exact ht ▸ hgs
  · rw [if_neg hkernel]
    exact ht ▸ h.swaps

/-! ## Moving the registers to the stack of the task -/

section User

variable {switch cfunc : State Symbol → State Symbol}

theorem toNat_regs (huser : c.User) {i : ℕ} (hi : i < 21) :
    (cpu.regs c + bytes i).toNat = cpu.top_of_stack.toNat - 8 * 21 + 8 * i := by
  have hroom := cpu.utask_room
  have hlt := cpu.top_of_stack.isLt
  rw [Cpu.regs, if_pos huser, bytes, bytes, BitVec.toNat_add, BitVec.toNat_sub,
    BitVec.toNat_ofNat, BitVec.toNat_ofNat]
  omega

theorem toNat_frame_sub (cpu : Cpu) (huser : c.User) :
    cpu.percpu_stack.toNat ≤ (cpu.frame c - bytes 22).toNat ∧
      (cpu.frame c - bytes 22).toNat + 8 * 22 ≤ cpu.rsp0.toNat := by
  have hroom := cpu.percpu_room
  have haligned := cpu.rsp0_aligned
  have hlt := cpu.rsp0.isLt
  rw [Aligned] at haligned
  rw [Cpu.frame, if_pos huser, bytes, BitVec.toNat_sub, BitVec.toNat_ofNat, BitVec.toNat_ofNat]
  omega

/-- The stack of the task is out of reach of `switch_utask_stack`, apart from the registers. -/
theorem regs_apart (cpu : Cpu) (huser : c.User) {i : ℕ} (hi : i < 21) :
    (cpu.regs c + bytes i).toNat < cpu.percpu_stack.toNat ∨
      (cpu.frame c - bytes 22).toNat ≤ (cpu.regs c + bytes i).toNat := by
  have hroom := cpu.utask_room
  have hframe : (cpu.frame c - bytes 22).toNat + 8 * 22 ≤ _ := (toNat_frame_sub cpu huser).2
  rw [toNat_regs huser hi]
  obtain hbelow | habove := cpu.apart
  · exact .inl (by omega)
  · exact .inr (by omega)

theorem find_switch (e : Event) :
    find (listing e) .switch_utask_stack = .outside .switch_utask_stack := by
  cases e with
  | exception => rfl
  | exceptionWithCode code => rfl
  | interrupt vector => rfl

/-- `switch_utask_stack` is called with the registers. -/
theorem leads_switch (huser : c.User) (h : Saved cpu e c 20 s) :
    ∃ t, Leads (listing e) env s t ∧ t.place = .outside .switch_utask_stack ∧
      t.reg .rsp = s.reg .rsp ∧ t.reg .rdi = s.reg .rsp + 8 ∧ t.mem = s.mem ∧ t.df = false ∧
      t.kernelGs = true ∧ t.swaps = 1 := by
  generalize hgs : ({ s.goto 22 with kernelGs := !s.kernelGs, swaps := s.swaps + 1 } :
    State Symbol) = t
  have hswapgs : Leads (listing e) env s t :=
    hgs ▸ (leads_line h.place rfl rfl).trans (leads_line rfl rfl rfl)
  generalize hrdi : (t.goto 23).setReg .rdi (s.reg .rsp + 8) = u
  have hleaq : Leads (listing e) env t u := by
    rw [← hrdi, ← hgs]
    exact leads_line rfl rfl rfl
  have hjmp : Leads (listing e) env u { u with place := find (listing e) .switch_utask_stack } :=
    leads_line (i := 23) (hrdi ▸ rfl) rfl rfl
  have hrsp : u.reg .rsp = s.reg .rsp := by
    rw [← hrdi, ← hgs]
    exact State.setReg_of_ne (by decide) _ _
  have hrdi' : u.reg .rdi = s.reg .rsp + 8 := hrdi ▸ State.setReg_self (t.goto 23) ..
  have hkernel := h.kernelGs
  rw [decide_eq_true huser] at hkernel
  refine ⟨_, (hswapgs.trans hleaq).trans hjmp, find_switch e, hrsp, hrdi', ?_, ?_, ?_, ?_⟩
  · rw [← hrdi, ← hgs]
    rfl
  · rw [← hrdi, ← hgs]
    exact h.df
  · rw [← hrdi, ← hgs]
    exact congrArg (!·) hkernel
  · rw [← hrdi, ← hgs]
    exact congrArg (· + 1) h.swaps

theorem leads_switched_user (hswitch : Compiled cpu switch) (huser : c.User)
    (h : Saved cpu e c 20 s) :
    ∃ t, Leads (listing e) (environment cpu switch cfunc) s t ∧
      Switched e c (cpu.regs c) t := by
  obtain ⟨t, hleads, hplace, hrsp, hrdi, hmem, hdf, hgs, hswaps⟩ := leads_switch huser h
  have hcall : Leads (listing e) (environment cpu switch cfunc) t (switch t) :=
    leads_outside hplace rfl
  obtain ⟨hroom, hbelow⟩ := toNat_frame_sub cpu huser
  have hcalled : cpu.Switching t :=
    ⟨hdf, hgs, by rwa [hrsp, h.rsp], by rwa [hrsp, h.rsp]⟩
  have hreturns := hswitch.returns t hcalled
  refine ⟨_, hleads.trans hcall, ?_, ?_, ?_, hreturns.keeps.df.trans hdf,
    hreturns.keeps.kernelGs.trans hgs, ?_⟩
  · rw [hreturns.place, hmem, hrsp, h.holds.1, toNat_resume]
  · rw [hswitch.rax t hcalled, Cpu.regs, if_pos huser]
    rfl
  · refine holds_iff.mpr fun i hi => ?_
    have hi' : i < 21 := hi
    have hapart := regs_apart cpu huser hi'
    have hinside : (bytes i).toNat < 8 * 21 := by
      rw [bytes, BitVec.toNat_ofNat]
      omega
    have hregs : cpu.top_of_stack - bytes 21 = cpu.regs c := by rw [Cpu.regs, if_pos huser]
    have hcopy : (switchUtaskStack cpu (s.reg .rsp + 8) s.mem).2 (cpu.regs c + bytes i) =
        s.mem (s.reg .rsp + 8 + bytes i) := by
      have hoffset : cpu.regs c + bytes i - cpu.regs c = bytes i := by
        rw [BitVec.add_comm, BitVec.add_sub_cancel]
      show (if (cpu.regs c + bytes i - (cpu.top_of_stack - bytes 21)).toNat < 8 * 21 then
        s.mem (s.reg .rsp + 8 + (cpu.regs c + bytes i - (cpu.top_of_stack - bytes 21)))
          else s.mem (cpu.regs c + bytes i)) = _
      rw [hregs, hoffset, if_pos hinside]
    rw [hswitch.mem t hcalled _ (by rw [hrsp, h.rsp]; exact hapart), hrdi, hmem, hcopy]
    exact Holds.get h.holds.2 hi
  · rw [hreturns.keeps.swaps, hswaps, if_pos huser]

/-- Then they are on the stack of the task. -/
theorem leads_switched (hswitch : Compiled cpu switch) (mem : Word → Word) :
    ∃ t, Leads (listing e) (environment cpu switch cfunc) (deliver cpu e c mem) t ∧
      Switched e c (cpu.regs c) t := by
  obtain ⟨s, (hleads : Leads (listing e) (environment cpu switch cfunc) _ _), hsaved⟩ :=
    leads_deliver cpu e c mem
  by_cases huser : c.User
  · rw [if_pos huser] at hsaved
    obtain ⟨t, hleads', hswitched⟩ := leads_switched_user hswitch huser hsaved
    exact ⟨t, hleads.trans hleads', hswitched⟩
  · rw [if_neg huser] at hsaved
    obtain ⟨t, hleads', hswitched⟩ := leads_switched_kernel huser hsaved
    exact ⟨t, hleads.trans hleads', hswitched⟩

end User

end Cyanea.Entry
