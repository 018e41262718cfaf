/-
# The way back

The C function is called with the registers, and what it leaves of them goes back to the
processor. To user mode the return goes over the stack of the processor, where the words for
`iretq` are put together once more.
-/

import Cyanea.Entry.Entering

namespace Cyanea.Entry

open Asm

variable {cpu : Cpu} {e : Event} {c : Context} {regs word : Word} {i : ℕ}
  {env : Environment Symbol PerCpu} {s : State Symbol}

/-! ## Calling the C function -/

/-- The registers are at the top of the stack. -/
structure OnStack (c : Context) (regs word : Word) (i : ℕ) (t : State Symbol) : Prop where
  place : t.place = .line i
  rsp : t.reg .rsp = regs
  holds : Holds t.mem regs (c.toUtaskRegs word)
  df : t.df = false
  kernelGs : t.kernelGs = true
  swaps : t.swaps = if c.User then 1 else 0

/-- The body of the entry point, behind the call of `error_entry`. -/
theorem body_lines (e : Event) :
    (listing e)[e.resume]? = some (.movq (.reg .rax) (.reg .rsp)) ∧
      (listing e)[e.resume + 1]? = some (.movq (.reg .rsp) (.reg .rdi)) := by
  cases e with
  | exception => exact ⟨rfl, rfl⟩
  | exceptionWithCode code => exact ⟨rfl, rfl⟩
  | interrupt vector => exact ⟨rfl, rfl⟩

theorem leads_onStack (h : Switched e c regs s) : ∃ t, Leads (listing e) env s t ∧
    OnStack c regs e.word (e.resume + 2) t ∧ t.reg .rdi = regs := by
  obtain ⟨hrsp, hrdi⟩ := body_lines e
  generalize ht : (s.goto (e.resume + 1)).setReg .rsp regs = t
  have hfirst : Leads (listing e) env s t := by
    rw [← ht, ← h.rax]
    exact leads_line h.place hrsp rfl
  have hrsp' : t.reg .rsp = regs := ht ▸ State.setReg_self (s.goto (e.resume + 1)) ..
  have hsecond : Leads (listing e) env t ((t.goto (e.resume + 2)).setReg .rdi (t.reg .rsp)) :=
    leads_line (i := e.resume + 1) (ht ▸ rfl) hrdi rfl
  refine ⟨_, hfirst.trans hsecond, ⟨rfl, hrsp', ?_, ?_, ?_, ?_⟩, ?_⟩
  · exact ht ▸ h.holds
  · exact ht ▸ h.df
  · exact ht ▸ h.kernelGs
  · exact ht ▸ h.swaps
  · exact (State.setReg_self (t.goto (e.resume + 2)) ..).trans hrsp'

theorem utask_regs_orig_rax_eq : utask_regs_orig_rax = bytes 15 := rfl

/-- The second argument is taken out of `orig_rax`. -/
theorem leads_taken
    (hload : (listing e)[i]? = some (.movq (.mem utask_regs_orig_rax .rsp) (.reg .rsi)))
    (hstore : (listing e)[i + 1]? = some (.movq (.imm (-1)) (.mem utask_regs_orig_rax .rsp)))
    (haligned : Aligned regs) (h : OnStack c regs word i s) :
    ∃ t, Leads (listing e) env s t ∧ OnStack c regs (-1) (i + 2) t ∧ t.reg .rdi = s.reg .rdi ∧
      t.reg .rsi = word := by
  have haligned' : Aligned (regs + bytes 15) := aligned_add haligned 15
  have hword : s.mem (regs + bytes 15) = word := h.holds.get (by decide : 15 < 21)
  generalize ht : (s.goto (i + 1)).setReg .rsi word = t
  have hfirst : Leads (listing e) env s t := by
    refine leads_line h.place hload ?_
    rw [exec, value, h.rsp, utask_regs_orig_rax_eq, State.load_eq haligned', hword, ← ht]
    rfl
  have hreg : ∀ r, r ≠ .rsi → t.reg r = s.reg r :=
    fun r hr => ht ▸ State.setReg_of_ne hr (s.goto (i + 1)) word
  have hrsp : t.reg .rsp = regs := (hreg .rsp (by decide)).trans h.rsp
  have hrsi : t.reg .rsi = word := ht ▸ State.setReg_self (s.goto (i + 1)) ..
  have hsecond : Leads (listing e) env t ((t.goto (i + 2)).setMem (regs + bytes 15) (-1)) := by
    refine leads_line (i := i + 1) (ht ▸ rfl) hstore ?_
    rw [← hrsp]
    exact State.store_eq (s := t.goto (i + 2)) (hrsp.symm ▸ haligned') (-1)
  have hset : Holds (Function.update s.mem (regs + bytes 15) (-1)) regs (c.toUtaskRegs (-1)) :=
    h.holds.set (by decide : 21 < 2 ^ 61) (by decide : 15 < 21) (-1)
  refine ⟨_, hfirst.trans hsecond, ⟨rfl, hrsp, ?_, ?_, ?_, ?_⟩, hreg .rdi (by decide), hrsi⟩
  · have hmem : t.mem = s.mem := ht ▸ rfl
    rw [← hmem] at hset
    exact hset
  · exact ht ▸ h.df
  · exact ht ▸ h.kernelGs
  · exact ht ▸ h.swaps

/-- Where the C function is called. -/
def Event.call (e : Event) : ℕ := (listing e).length - 2

theorem call_lines (e : Event) : (listing e)[e.call]? = some (.call .cfunc) ∧
    (listing e)[e.call + 1]? = some (.jmp .error_return) := by
  cases e with
  | exception => exact ⟨rfl, rfl⟩
  | exceptionWithCode code => exact ⟨rfl, rfl⟩
  | interrupt vector => exact ⟨rfl, rfl⟩

theorem leads_argument (haligned : Aligned regs) (h : OnStack c regs e.word (e.resume + 2) s) :
    ∃ t, Leads (listing e) env s t ∧ OnStack c regs (-1) e.call t ∧ t.reg .rdi = s.reg .rdi ∧
      ∀ v, e.argument = some v → t.reg .rsi = v := by
  cases e with
  | exception => exact ⟨s, .refl s, h, rfl, fun v hv => nomatch hv⟩
  | exceptionWithCode code =>
      obtain ⟨t, hleads, hstack, hrdi, hrsi⟩ :=
        leads_taken (e := .exceptionWithCode code) rfl rfl haligned h
      exact ⟨t, hleads, hstack, hrdi, fun v hv => hrsi.trans (Option.some.inj hv)⟩
  | interrupt vector =>
      obtain ⟨t, hleads, hstack, hrdi, hrsi⟩ :=
        leads_taken (e := .interrupt vector) rfl rfl haligned h
      exact ⟨t, hleads, hstack, hrdi, fun v hv => hrsi.trans (Option.some.inj hv)⟩

/-- The C function is about to run. -/
structure Called (e : Event) (c : Context) (regs : Word) (t : State Symbol) : Prop where
  place : t.place = .outside .cfunc
  rsp : t.reg .rsp = regs - 8
  rdi : t.reg .rdi = regs
  rsi : ∀ v, e.argument = some v → t.reg .rsi = v
  holds : Holds t.mem (regs - 8) (BitVec.ofNat 64 (e.call + 1) :: c.toUtaskRegs (-1))
  df : t.df = false
  kernelGs : t.kernelGs = true
  swaps : t.swaps = if c.User then 1 else 0

theorem find_cfunc (e : Event) : find (listing e) .cfunc = .outside .cfunc := by
  cases e with
  | exception => rfl
  | exceptionWithCode code => rfl
  | interrupt vector => rfl

theorem leads_cfunc (haligned : Aligned regs) (h : Switched e c regs s) :
    ∃ t, Leads (listing e) env s t ∧ Called e c regs t := by
  obtain ⟨s₁, (hleads₁ : Leads (listing e) env _ _), hstack, hrdi⟩ := leads_onStack h
  obtain ⟨s₂, (hleads₂ : Leads (listing e) env _ _), hstack', hrdi', hrsi⟩ :=
    leads_argument haligned hstack
  have haligned' : Aligned (s₂.reg .rsp) := hstack'.rsp.symm ▸ haligned
  refine ⟨_, (hleads₁.trans hleads₂).trans (leads_call hstack'.place (call_lines e).1 haligned'),
    find_cfunc e, ?_, ?_, ?_, ?_, hstack'.df, hstack'.kernelGs, hstack'.swaps⟩
  · exact (State.pushed_rsp _ _).trans (congrArg (· - 8) hstack'.rsp)
  · exact (State.pushed_reg (by decide) _ _).trans (hrdi'.trans hrdi)
  · exact fun v hv => (State.pushed_reg (by decide) _ _).trans (hrsi v hv)
  · have hpush := hstack'.holds.push (by decide : 21 + 1 < 2 ^ 61) (BitVec.ofNat 64 (e.call + 1))
    rw [← hstack'.rsp] at hpush ⊢
    exact hpush

theorem Called.handling (h : Called e c regs s) : Handling s :=
  ⟨h.df, h.kernelGs, by rw [h.rdi, h.rsp, BitVec.sub_add_cancel]⟩

theorem Called.ofMem (h : Called e c regs s) : Context.ofMem s.mem regs = c := by
  have hholds := h.holds.2
  rw [BitVec.sub_add_cancel] at hholds
  exact Context.ofMem_of_holds hholds

/-! ## The way out -/

example : utask_regs_cs = bytes 17 := rfl

/-- It returns behind the call, with the registers as it has left them. -/
theorem onStack_of_returns {cfunc : State Symbol → State Symbol} (hcfunc : Handles cfunc)
    (h : Called e c regs s) :
    ∃ d word, Context.ofMem (cfunc s).mem regs = d ∧ OnStack d regs word (e.call + 1) (cfunc s) ∧
      (d.User ↔ c.User) := by
  have hreturns := hcfunc.returns s h.handling
  have huser := hcfunc.user s h.handling
  rw [h.rdi, h.ofMem] at huser
  have hcall : (BitVec.ofNat 64 (e.call + 1)).toNat = e.call + 1 := by
    cases e with
    | exception => rfl
    | exceptionWithCode code => rfl
    | interrupt vector => rfl
  refine ⟨_, _, rfl, ⟨?_, ?_, Context.holds_ofMem _ regs, hreturns.keeps.df.trans h.df,
    hreturns.keeps.kernelGs.trans h.kernelGs, ?_⟩, huser⟩
  · rw [hreturns.place, h.rsp, h.holds.1, hcall]
  · rw [hreturns.rsp, ← h.handling.regs, h.rdi]
  · rw [hreturns.keeps.swaps, h.swaps]
    exact if_congr huser.symm rfl rfl

theorem OnStack.goto (h : OnStack c regs word i s) (j : ℕ) : OnStack c regs word j (s.goto j) :=
  ⟨rfl, h.rsp, h.holds, h.df, h.kernelGs, h.swaps⟩

/-- `error_return` goes by the code segment that the registers have now. -/
theorem leads_error_return (haligned : Aligned regs) (h : OnStack c regs word (e.call + 1) s) :
    ∃ t, Leads (listing e) env s t ∧ OnStack c regs word (if c.User then 28 else 53) t := by
  have hjmp : Leads (listing e) env s (s.goto 72) := leads_line h.place (call_lines e).2 rfl
  have hlabel : Leads (listing e) env (s.goto 72) (s.goto 73) := leads_line rfl rfl rfl
  generalize hs' : s.goto 73 = s' at hlabel
  have hstack : OnStack c regs word 73 s' := hs' ▸ h.goto 73
  have hcs : s'.mem (s'.reg .rsp + bytes 17) = c.cs := by
    rw [hstack.rsp]
    exact hstack.holds.get (by decide : 17 < 21)
  have htest : Leads (listing e) env s' { s' with
      place := if c.cs.setWidth 8 &&& 3 = 0 then find (listing e) .return_to_ukernel
        else .line 75
      zf := c.cs.setWidth 8 &&& 3 = 0 } :=
    leads_testb_jz hstack.place rfl rfl (hstack.rsp ▸ aligned_add haligned 17) hcs
  by_cases huser : c.User
  · rw [if_pos huser]
    rw [if_neg huser] at htest
    generalize ht : ({ s' with place := .line 75, zf := c.cs.setWidth 8 &&& 3 = 0 } :
      State Symbol) = t at htest
    have hstack' : OnStack c regs word 75 t :=
      ht ▸ ⟨rfl, hstack.rsp, hstack.holds, hstack.df, hstack.kernelGs, hstack.swaps⟩
    exact ⟨_, ((hjmp.trans hlabel).trans htest).trans (leads_line hstack'.place rfl rfl),
      hstack'.goto 28⟩
  · rw [if_neg huser]
    rw [if_pos (not_not.mp huser)] at htest
    exact ⟨_, (hjmp.trans hlabel).trans htest,
      rfl, hstack.rsp, hstack.holds, hstack.df, hstack.kernelGs, hstack.swaps⟩

/-- `iretq` is next, and takes the processor back to this context. -/
structure Returned (e : Event) (c : Context) (t : State Symbol) : Prop where
  line : ∃ i, t.place = .line i ∧ (listing e)[i]? = some .iretq
  iret : iretq t = some c
  kernelGs : t.kernelGs = !decide c.User
  swaps : t.swaps = if c.User then 2 else 0

theorem iretq_eq (haligned : Aligned (s.reg .rsp)) (hholds : Holds s.mem (s.reg .rsp) c.iretFrame)
    (hreg : ∀ r, r ≠ .rsp → s.reg r = c.reg r) : iretq s = some c := by
  have hload : ∀ n, (hn : n < 5) → s.load (s.reg .rsp + bytes n) = some (c.iretFrame.get ⟨n, hn⟩) :=
    fun n hn => (State.load_eq (aligned_add haligned n)).trans (congrArg some (hholds.get hn))
  have hrip : s.load (s.reg .rsp) = some c.rip :=
    (congrArg s.load (add_bytes_zero _)).symm.trans (hload 0 (by decide))
  have hcs : s.load (s.reg .rsp + 8) = some c.cs := hload 1 (by decide)
  have hflags : s.load (s.reg .rsp + 16) = some c.rflags := hload 2 (by decide)
  have hrsp : s.load (s.reg .rsp + 24) = some (c.reg .rsp) := hload 3 (by decide)
  have hss : s.load (s.reg .rsp + 32) = some c.ss := hload 4 (by decide)
  have hregs : Function.update s.reg .rsp (c.reg .rsp) = c.reg := by
    refine Function.update_eq_iff.mpr ⟨rfl, fun r hr => ?_⟩
    exact hreg r hr
  rw [iretq, hrip, hcs, hflags, hrsp, hss]
  show some (Context.mk (Function.update s.reg .rsp (c.reg .rsp)) c.rip c.cs c.rflags c.ss) = _
  rw [hregs]

theorem mem_registers {r : Reg} (h : r ≠ .rsp) : r ∈ registers := by
  revert h
  cases r <;> decide

/-- To kernel mode, on the stack that has been interrupted. -/
theorem leads_returned_kernel (haligned : Aligned regs) (hkernel : ¬ c.User)
    (h : OnStack c regs word 53 s) : ∃ t, Leads (listing e) env s t ∧ Returned e c t := by
  have hlabel : Leads (listing e) env s (s.goto 54) := leads_line h.place rfl rfl
  have hstack := h.goto 54
  generalize s.goto 54 = s' at hlabel hstack
  have haligned' : Aligned (s'.reg .rsp) := hstack.rsp.symm ▸ haligned
  have hholds : Holds s'.mem (s'.reg .rsp) (registers.map c.reg ++ word :: c.iretFrame) :=
    hstack.rsp.symm ▸ hstack.holds
  obtain ⟨t, hleads, hplace, hrsp, hpopped, -, hmem, hkeeps⟩ : ∃ t, Leads (listing e) env s' t ∧
      t.place = .line 69 ∧ t.reg .rsp = s'.reg .rsp + bytes 15 ∧
      (∀ r ∈ registers, t.reg r = c.reg r) ∧
      (∀ r, r ∉ registers → r ≠ .rsp → t.reg r = s'.reg r) ∧ t.mem = s'.mem ∧ s'.Keeps t :=
    leads_pops hstack.place rfl (by decide) haligned' hholds
  rw [hstack.rsp] at hrsp
  generalize ht' : (t.goto 70).setReg .rsp (t.reg .rsp + 8) = t'
  have haddq : Leads (listing e) env t t' := ht' ▸ leads_line hplace rfl rfl
  have hiret : Leads (listing e) env t' (t'.goto 71) := leads_line (i := 70) (ht' ▸ rfl) rfl rfl
  have hrsp' : t'.reg .rsp = regs + bytes 16 := by
    rw [← ht', State.setReg_self, hrsp, BitVec.add_assoc]
    rfl
  have hframe : Holds t'.mem (regs + bytes 16) c.iretFrame := by
    have hholds : Holds s'.mem regs ((registers.map c.reg ++ [word]) ++ c.iretFrame) := hstack.holds
    rw [← ht']
    show Holds t.mem _ _
    rw [hmem]
    exact (holds_append.mp hholds).2
  refine ⟨_, ((hlabel.trans hleads).trans haddq).trans hiret, ⟨⟨71, rfl, rfl⟩, ?_, ?_, ?_⟩⟩
  · refine iretq_eq (s := t'.goto 71) ?_ ?_ fun r hr => ?_
    · exact hrsp'.symm ▸ aligned_add haligned 16
    · exact hrsp'.symm ▸ hframe
    · show t'.reg r = c.reg r
      rw [← ht', State.setReg_of_ne hr]
      exact hpopped r (mem_registers hr)
  · rw [decide_eq_false hkernel, ← ht']
    exact hkeeps.kernelGs.trans hstack.kernelGs
  · have hswaps := hstack.swaps
    rw [if_neg hkernel] at hswaps ⊢
    rw [← ht']
    exact hkeeps.swaps.trans hswaps

/-- What is copied for `iretq` is not overwritten by the copy. -/
theorem iret_apart (cpu : Cpu) {k n : ℕ} (hk : k < 7) (hn : n < 5) :
    cpu.top_of_stack - bytes 21 + bytes 14 + bytes k ≠ cpu.rsp0 - bytes (n + 1) := by
  have hutask := cpu.utask_room
  have hpercpu := cpu.percpu_room
  have htop := cpu.top_of_stack.isLt
  have hrsp0 := cpu.rsp0.isLt
  have hapart := cpu.apart
  have hleft : (cpu.top_of_stack - bytes 21 + bytes 14 + bytes k).toNat =
      cpu.top_of_stack.toNat - 8 * 7 + 8 * k := by
    rw [bytes, bytes, bytes, BitVec.toNat_add, BitVec.toNat_add, BitVec.toNat_sub,
      BitVec.toNat_ofNat, BitVec.toNat_ofNat, BitVec.toNat_ofNat]
    omega
  have hright : (cpu.rsp0 - bytes (n + 1)).toNat = cpu.rsp0.toNat - 8 * (n + 1) := by
    rw [bytes, BitVec.toNat_sub, BitVec.toNat_ofNat]
    omega
  intro heq
  rw [heq, hright] at hleft
  omega

/-- Most registers have been popped, and RDI has where the others are. -/
structure Popped (cpu : Cpu) (c : Context) (regs word : Word) (t : State Symbol) : Prop where
  place : t.place = .line 45
  rsp : t.reg .rsp = cpu.rsp0
  rdi : t.reg .rdi = regs + bytes 14
  reg : ∀ r, r ≠ .rsp → r ≠ .rdi → t.reg r = c.reg r
  holds : Holds t.mem (regs + bytes 14) (c.reg .rdi :: word :: c.iretFrame)
  kernelGs : t.kernelGs = true
  swaps : t.swaps = if c.User then 1 else 0

theorem mem_popped {r : Reg} (h : r ≠ .rsp) (h' : r ≠ .rdi) : r ∈ popRegs ++ [.rsi] := by
  revert h h'
  cases r <;> decide

section User

variable {switch cfunc : State Symbol → State Symbol}

theorem leads_popped (haligned : Aligned regs) (h : OnStack c regs word 28 s) :
    ∃ t, Leads (listing e) (environment cpu switch cfunc) s t ∧ Popped cpu c regs word t := by
  have hlabel : Leads (listing e) (environment cpu switch cfunc) s (s.goto 29) :=
    leads_line h.place rfl rfl
  have hstack := h.goto 29
  generalize s.goto 29 = s' at hlabel hstack
  have hholds : Holds s'.mem regs
      ((popRegs ++ [Reg.rsi]).map c.reg ++ c.reg .rdi :: word :: c.iretFrame) := hstack.holds
  obtain ⟨t, hleads, hplace, hrsp, hpopped, -, hmem, hkeeps⟩ : ∃ t,
      Leads (listing e) (environment cpu switch cfunc) s' t ∧ t.place = .line 43 ∧
      t.reg .rsp = s'.reg .rsp + bytes 14 ∧ (∀ r ∈ popRegs ++ [.rsi], t.reg r = c.reg r) ∧
      (∀ r, r ∉ popRegs ++ [.rsi] → r ≠ .rsp → t.reg r = s'.reg r) ∧ t.mem = s'.mem ∧ s'.Keeps t :=
    leads_pops hstack.place rfl (by decide) (hstack.rsp.symm ▸ haligned)
      (hstack.rsp.symm ▸ hholds)
  generalize ht : (t.goto 44).setReg .rdi (t.reg .rsp) = u
  have hmovq : Leads (listing e) (environment cpu switch cfunc) t u :=
    ht ▸ leads_line hplace rfl rfl
  have hkernel : u.kernelGs = true := by
    rw [← ht]
    exact hkeeps.kernelGs.trans hstack.kernelGs
  have hswitch : Leads (listing e) (environment cpu switch cfunc) u
      ((u.goto 45).setReg .rsp cpu.rsp0) := by
    refine leads_line (i := 44) (ht ▸ rfl) rfl ?_
    rw [exec, value, if_pos hkernel]
    rfl
  refine ⟨_, ((hlabel.trans hleads).trans hmovq).trans hswitch, rfl, State.setReg_self _ _ _, ?_,
    fun r hr hr' => ?_, ?_, hkernel, ?_⟩
  · rw [State.setReg_of_ne (by decide)]
    show u.reg .rdi = _
    rw [← ht, State.setReg_self, hrsp, hstack.rsp]
  · rw [State.setReg_of_ne hr]
    show u.reg r = _
    rw [← ht, State.setReg_of_ne hr']
    exact hpopped r (mem_popped hr hr')
  · show Holds u.mem _ _
    have hsame : u.mem = s'.mem := by
      rw [← ht]
      exact hmem
    rw [hsame]
    exact (holds_append.mp hholds).2
  · show u.swaps = _
    rw [← ht]
    exact hkeeps.swaps.trans hstack.swaps

/-- To user mode, over the stack of the processor. -/
theorem leads_returned_user (huser : c.User)
    (h : OnStack c (cpu.top_of_stack - bytes 21) word 28 s) :
    ∃ t, Leads (listing e) (environment cpu switch cfunc) s t ∧ Returned e c t := by
  generalize hregs : cpu.top_of_stack - bytes 21 = regs at h
  have haligned : Aligned regs := hregs ▸ aligned_sub cpu.top_aligned 21
  obtain ⟨s', (hleads : Leads (listing e) (environment cpu switch cfunc) _ _), hpopped⟩ :=
    leads_popped haligned h
  have hwords : ∀ n, (hn : n < 7) → s'.mem (s'.reg .rdi + bytes n) =
      (c.reg .rdi :: word :: c.iretFrame).get ⟨n, hn⟩ := by
    intro n hn
    rw [hpopped.rdi]
    exact hpopped.holds.get hn
  obtain ⟨t, hleads', hplace, hpushes⟩ : ∃ t,
      Leads (listing e) (environment cpu switch cfunc) s' t ∧ t.place = .line 50 ∧
      s'.Pushes ([6, 5, 4, 3, 2].map fun k => s'.mem (s'.reg .rdi + bytes k)) t := by
    refine leads_pushes_mem [6, 5, 4, 3, 2] hpopped.place rfl (by decide) ?_ ?_ ?_
    · exact hpopped.rsp.symm ▸ cpu.rsp0_aligned
    · exact hpopped.rdi.symm ▸ aligned_add haligned 14
    · intro k hk n hn
      have hk' : k < 7 := (by decide : ∀ k ∈ [6, 5, 4, 3, 2], k < 7) k hk
      rw [hpopped.rdi, hpopped.rsp, ← hregs]
      exact iret_apart cpu hk' hn
  have hframe : Holds t.mem (t.reg .rsp) c.iretFrame := by
    have hholds := hpushes.holds [] (by decide : 5 + 0 < 2 ^ 61) trivial
    rw [List.append_nil] at hholds
    have hmap : ([6, 5, 4, 3, 2].map fun k => s'.mem (s'.reg .rdi + bytes k)) =
        c.iretFrame.reverse := by
      rw [List.map, List.map, List.map, List.map, List.map, List.map, hwords 6 (by decide),
        hwords 5 (by decide), hwords 4 (by decide), hwords 3 (by decide), hwords 2 (by decide)]
      rfl
    rwa [hmap, List.reverse_reverse] at hholds
  have hrsp : t.reg .rsp = cpu.rsp0 - bytes 5 := hpushes.rsp.trans (congrArg (· - _) hpopped.rsp)
  have hrdi : t.mem (t.reg .rdi + 0) = c.reg .rdi := by
    rw [hpushes.reg .rdi (by decide), hpushes.frame]
    · exact hwords 0 (by decide)
    · intro n hn
      rw [hpopped.rdi, hpopped.rsp, ← hregs]
      exact iret_apart cpu (by decide : 0 < 7) hn
  have halignedRdi : Aligned (t.reg .rdi + 0) := by
    rw [hpushes.reg .rdi (by decide), hpopped.rdi]
    exact aligned_add (aligned_add haligned 14) 0
  generalize hu : (t.goto 51).setReg .rdi (c.reg .rdi) = u
  have hmovq : Leads (listing e) (environment cpu switch cfunc) t u := by
    refine leads_line hplace rfl ?_
    rw [exec, value, State.load_eq halignedRdi, hrdi, ← hu]
    rfl
  have hreg : ∀ r, r ≠ .rsp → u.reg r = c.reg r := fun r hr => by
    rw [← hu]
    by_cases hr' : r = .rdi
    · rw [hr', State.setReg_self]
    · rw [State.setReg_of_ne hr']
      exact (hpushes.reg r hr).trans (hpopped.reg r hr hr')
  have hrsp' : u.reg .rsp = t.reg .rsp := hu ▸ State.setReg_of_ne (by decide) (t.goto 51) _
  have hkernel : u.kernelGs = true := by
    rw [← hu]
    exact hpushes.keeps.kernelGs.trans hpopped.kernelGs
  have hswaps : u.swaps = 1 := by
    rw [← hu]
    exact (hpushes.keeps.swaps.trans hpopped.swaps).trans (if_pos huser)
  generalize hv : ({ u.goto 52 with kernelGs := !u.kernelGs, swaps := u.swaps + 1 } :
    State Symbol) = v
  have hswapgs : Leads (listing e) (environment cpu switch cfunc) u v :=
    hv ▸ leads_line (i := 51) (hu ▸ rfl) rfl rfl
  have hjmp : Leads (listing e) (environment cpu switch cfunc) v (v.goto 70) :=
    leads_line (i := 52) (hv ▸ rfl) rfl rfl
  have hlabel : Leads (listing e) (environment cpu switch cfunc) (v.goto 70) (v.goto 71) :=
    leads_line rfl rfl rfl
  refine ⟨_, ((((hleads.trans hleads').trans hmovq).trans hswapgs).trans hjmp).trans hlabel,
    ⟨71, rfl, rfl⟩, ?_, ?_, ?_⟩
  · refine iretq_eq (s := v.goto 71) ?_ ?_ ?_
    · show Aligned (v.reg .rsp)
      rw [← hv]
      show Aligned (u.reg .rsp)
      rw [hrsp', hrsp]
      exact aligned_sub cpu.rsp0_aligned 5
    · show Holds v.mem (v.reg .rsp) _
      rw [← hv]
      show Holds u.mem (u.reg .rsp) _
      rw [hrsp', ← hu]
      exact hframe
    · exact fun r hr => hv ▸ hreg r hr
  · rw [decide_eq_true huser, ← hv]
    exact congrArg (!·) hkernel
  · rw [if_pos huser, ← hv]
    exact congrArg (· + 1) hswaps

/-! ## A whole event -/

/-- The way to the C function. -/
theorem leads_handled (hswitch : Compiled cpu switch) (e : Event) (c : Context)
    (mem : Word → Word) :
    ∃ s, Leads (listing e) (environment cpu switch cfunc) (deliver cpu e c mem) s ∧
      Called e c (cpu.regs c) s := by
  obtain ⟨s₁, (hleads₁ : Leads (listing e) (environment cpu switch cfunc) _ _), hswitched⟩ :=
    leads_switched hswitch mem
  obtain ⟨s, (hleads : Leads (listing e) (environment cpu switch cfunc) _ _), hcalled⟩ :=
    leads_cfunc (cpu.regs_aligned c) hswitched
  exact ⟨s, hleads₁.trans hleads, hcalled⟩

/-- The C function, and the way back. -/
theorem leads_returned (hcfunc : Handles cfunc) (hcalled : Called e c (cpu.regs c) s) :
    ∃ t, Leads (listing e) (environment cpu switch cfunc) s t ∧
      Returned e (Context.ofMem (cfunc s).mem (cpu.regs c)) t := by
  have haligned := cpu.regs_aligned c
  obtain ⟨d, word, hd, hstack, huser⟩ := onStack_of_returns hcfunc hcalled
  have hcall : Leads (listing e) (environment cpu switch cfunc) s (cfunc s) :=
    leads_outside hcalled.place rfl
  obtain ⟨u, (hleads' : Leads (listing e) (environment cpu switch cfunc) _ _), hback⟩ :=
    leads_error_return haligned hstack
  have hreturned : ∃ t, Leads (listing e) (environment cpu switch cfunc) u t ∧ Returned e d t := by
    by_cases hd : d.User
    · rw [if_pos hd, Cpu.regs, if_pos (huser.mp hd)] at hback
      exact leads_returned_user hd hback
    · rw [if_neg hd] at hback
      exact leads_returned_kernel haligned hd hback
  obtain ⟨t, hleads'', hreturned⟩ := hreturned
  exact ⟨t, (hcall.trans hleads').trans hleads'', hd ▸ hreturned⟩

/-- An event is handled by the C function, which gets the registers, and its second argument if
there is one. Then the processor goes back to the context that the registers say, with GS as it
has been: it is exchanged twice if the event came from user mode, and otherwise not at all. -/
theorem event_returns (hswitch : Compiled cpu switch) (hcfunc : Handles cfunc) (e : Event)
    (c : Context) (mem : Word → Word) :
    ∃ s t, Leads (listing e) (environment cpu switch cfunc) (deliver cpu e c mem) s ∧
      Called e c (cpu.regs c) s ∧ Context.ofMem s.mem (cpu.regs c) = c ∧
      Leads (listing e) (environment cpu switch cfunc) s t ∧
      Returned e (Context.ofMem (cfunc s).mem (cpu.regs c)) t := by
  obtain ⟨s, (hleads : Leads (listing e) (environment cpu switch cfunc) _ _), hcalled⟩ :=
    leads_handled hswitch e c mem
  obtain ⟨t, (hleads' : Leads (listing e) (environment cpu switch cfunc) _ _), hreturned⟩ :=
    leads_returned hcfunc hcalled
  exact ⟨s, t, hleads, hcalled, hcalled.ofMem, hleads', hreturned⟩

/-- If the C function leaves the registers as they are, the processor goes back to the context
that has been interrupted. -/
theorem event_restores (hswitch : Compiled cpu switch) (hcfunc : KeepsRegs cfunc) (e : Event)
    (c : Context) (mem : Word → Word) :
    ∃ s t, Leads (listing e) (environment cpu switch cfunc) (deliver cpu e c mem) s ∧
      s.place = .outside .cfunc ∧ (∀ v, e.argument = some v → s.reg .rsi = v) ∧
      Leads (listing e) (environment cpu switch cfunc) s t ∧ Returned e c t := by
  obtain ⟨s, (hleads : Leads (listing e) (environment cpu switch cfunc) _ _), hcalled⟩ :=
    leads_handled hswitch e c mem
  obtain ⟨t, (hleads' : Leads (listing e) (environment cpu switch cfunc) _ _), hreturned⟩ :=
    leads_returned hcfunc.handles hcalled
  have hsame : Context.ofMem (cfunc s).mem (cpu.regs c) = c := by
    rw [← hcalled.rdi, hcfunc.ofMem hcalled.handling, hcalled.rdi, hcalled.ofMem]
  exact ⟨s, t, hleads, hcalled.place, hcalled.rsi, hleads', hsame ▸ hreturned⟩

/-! ### Events in user mode -/

/-- `ret`. -/
def returned (s : State Symbol) : State Symbol :=
  (s.goto (s.mem (s.reg .rsp)).toNat).setReg .rsp (s.reg .rsp + 8)

theorem returns_setReg {r : Reg} (h : r ≠ .rsp)
    (hsaved : r ∉ [Reg.rbx, .rbp, .r12, .r13, .r14, .r15]) (s : State Symbol) (v : Word)
    (mem : Word → Word) : Returns s { (returned s).setReg r v with mem } where
  place := rfl
  rsp := (State.setReg_of_ne h.symm _ _).trans (State.setReg_self _ _ _)
  saved q hq := by
    have hne : q ≠ .rsp :=
      (by decide : ∀ q ∈ [Reg.rbx, .rbp, .r12, .r13, .r14, .r15], q ≠ .rsp) q hq
    have hne' : q ≠ r := fun heq => hsaved (heq ▸ hq)
    exact (State.setReg_of_ne hne' _ _).trans (State.setReg_of_ne hne _ _)
  keeps := ⟨rfl, rfl, rfl⟩

/-- `switch_utask_stack`, which does no more than it has to. -/
def switched (cpu : Cpu) (s : State Symbol) : State Symbol :=
  { (returned s).setReg .rax (switchUtaskStack cpu (s.reg .rdi) s.mem).1 with
    mem := (switchUtaskStack cpu (s.reg .rdi) s.mem).2 }

theorem compiled_switched (cpu : Cpu) : Compiled cpu (switched cpu) where
  returns s _ := returns_setReg (by decide) (by decide) s _ _
  rax s _ := State.setReg_self (returned s) .rax _
  mem _ _ _ _ := rfl

/-- A handler that goes on at the next instruction, which returns in RAX where that is. -/
def skipped (length : Word) (s : State Symbol) : State Symbol :=
  { (returned s).setReg .rax (s.mem (s.reg .rdi + offsetof .rip) + length) with
    mem := Function.update s.mem (s.reg .rdi + offsetof .rip)
      (s.mem (s.reg .rdi + offsetof .rip) + length) }

theorem handles_skipped (length : Word) : Handles (skipped length) where
  returns s _ := returns_setReg (by decide) (by decide) s _ _
  user s _ := by
    have hcs : s.reg .rdi + offsetof .cs ≠ s.reg .rdi + offsetof .rip :=
      (add_bytes_ne (by decide : 16 < 17) (by decide : 17 < 16 + 2 ^ 61)).symm
    have hsame : (skipped length s).mem (s.reg .rdi + offsetof .cs) =
        s.mem (s.reg .rdi + offsetof .cs) := Function.update_of_ne hcs ..
    show _ ≠ _ ↔ _ ≠ _
    rw [Context.ofMem, Context.ofMem]
    dsimp only
    rw [hsame]

def exampleCpu : Cpu where
  rsp0 := 0x4000
  top_of_stack := 0x2000
  percpu_stack := 0x3000
  rsp0_aligned := by decide
  top_aligned := by decide
  percpu_room := by decide
  utask_room := by decide
  apart := by decide

theorem event_returns_pageFault :
    ∃ s t, Leads (listing (.exceptionWithCode 4))
        (environment exampleCpu (switched exampleCpu) (skipped 3))
        (deliver exampleCpu (.exceptionWithCode 4) ⟨fun _ => 7, 0x400000, 0x33, 0x202, 0x2B⟩
          fun _ => 0) s ∧
      Called (.exceptionWithCode 4) ⟨fun _ => 7, 0x400000, 0x33, 0x202, 0x2B⟩
        (exampleCpu.regs ⟨fun _ => 7, 0x400000, 0x33, 0x202, 0x2B⟩) s ∧
      Context.ofMem s.mem (exampleCpu.regs ⟨fun _ => 7, 0x400000, 0x33, 0x202, 0x2B⟩) =
        ⟨fun _ => 7, 0x400000, 0x33, 0x202, 0x2B⟩ ∧
      Leads (listing (.exceptionWithCode 4))
        (environment exampleCpu (switched exampleCpu) (skipped 3)) s t ∧
      Returned (.exceptionWithCode 4) (Context.ofMem (skipped 3 s).mem
        (exampleCpu.regs ⟨fun _ => 7, 0x400000, 0x33, 0x202, 0x2B⟩)) t :=
  event_returns (compiled_switched exampleCpu) (handles_skipped 3) (.exceptionWithCode 4)
    ⟨fun _ => 7, 0x400000, 0x33, 0x202, 0x2B⟩ fun _ => 0

/-- A handler that leaves -2 in `orig_rax`. -/
def marked (s : State Symbol) : State Symbol :=
  { (returned s).setReg .rax 0 with
    mem := Function.update s.mem (s.reg .rdi + offsetof .orig_rax) (-2) }

theorem keepsRegs_marked : KeepsRegs marked where
  returns s _ := returns_setReg (by decide) (by decide) s _ _
  keeps s _ field hfield hne := by
    refine Function.update_of_ne (fun heq => ?_) _ _
    have hoffset : offsetof field = offsetof .orig_rax :=
      (BitVec.add_right_inj _).mp heq
    exact hne ((by decide : ∀ f ∈ utaskRegs, offsetof f = offsetof .orig_rax → f = .orig_rax)
      field hfield hoffset)

theorem event_restores_interrupt :
    ∃ s t, Leads (listing (.interrupt 0x30))
        (environment exampleCpu (switched exampleCpu) marked)
        (deliver exampleCpu (.interrupt 0x30) ⟨fun _ => 7, 0x400000, 0x33, 0x202, 0x2B⟩
          fun _ => 0) s ∧
      s.place = .outside .cfunc ∧
      (∀ v, (Event.interrupt 0x30).argument = some v → s.reg .rsi = v) ∧
      Leads (listing (.interrupt 0x30)) (environment exampleCpu (switched exampleCpu) marked) s t ∧
      Returned (.interrupt 0x30) ⟨fun _ => 7, 0x400000, 0x33, 0x202, 0x2B⟩ t :=
  event_restores (compiled_switched exampleCpu) keepsRegs_marked (.interrupt 0x30)
    ⟨fun _ => 7, 0x400000, 0x33, 0x202, 0x2B⟩ fun _ => 0

end User

end Cyanea.Entry
