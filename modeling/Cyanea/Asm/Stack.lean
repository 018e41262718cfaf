/-
# What code does to its stack

The stack is followed by saying which words lie from an address on: a push puts a word in front
of them, and a pop takes the first away. Blocks of pushes and of pops have one rule each.
-/

import Cyanea.Asm.Machine

namespace Cyanea.Asm

/-! ## Words in memory -/

/-- These words lie one after the other from this address on. -/
def Holds (mem : Word → Word) : Word → List Word → Prop
  | _, [] => True
  | a, v :: vs => mem a = v ∧ Holds mem (a + 8) vs

section Holds

variable {mem mem' : Word → Word} {a v : Word} {vs ws : List Word} {i : ℕ}

theorem bytes_one : bytes 1 = 8 := rfl

theorem add_bytes_zero (a : Word) : a + bytes 0 = a := BitVec.add_zero a

theorem add_bytes_succ (a : Word) (n : ℕ) : a + bytes (n + 1) = a + 8 + bytes n := by
  rw [Nat.add_comm, bytes_add, bytes_one, BitVec.add_assoc]

theorem holds_append :
    Holds mem a (vs ++ ws) ↔ Holds mem a vs ∧ Holds mem (a + bytes vs.length) ws := by
  induction vs generalizing a with
  | nil => rw [List.nil_append, List.length_nil, add_bytes_zero, Holds, true_and]
  | cons v vs ih =>
      rw [List.cons_append, Holds, Holds, ih, and_assoc, List.length_cons, add_bytes_succ]

theorem holds_iff :
    Holds mem a vs ↔ ∀ i, (hi : i < vs.length) → mem (a + bytes i) = vs[i] := by
  induction vs generalizing a with
  | nil => exact iff_of_true trivial fun i hi => absurd hi (Nat.not_lt_zero i)
  | cons v vs ih =>
      rw [Holds, ih]
      constructor
      · rintro ⟨hhead, htail⟩ i hi
        cases i with
        | zero => exact (congrArg mem (add_bytes_zero a)).trans hhead
        | succ i =>
            rw [add_bytes_succ]
            exact htail i (Nat.lt_of_succ_lt_succ hi)
      · intro h
        refine ⟨(congrArg mem (add_bytes_zero a)).symm.trans (h 0 (Nat.zero_lt_succ _)),
          fun i hi => ?_⟩
        rw [← add_bytes_succ]
        exact h (i + 1) (Nat.succ_lt_succ hi)

theorem Holds.get (h : Holds mem a vs) (hi : i < vs.length) : mem (a + bytes i) = vs[i] :=
  holds_iff.mp h i hi

theorem Holds.congr (h : Holds mem a vs)
    (hsame : ∀ i < vs.length, mem' (a + bytes i) = mem (a + bytes i)) : Holds mem' a vs :=
  holds_iff.mpr fun i hi => (hsame i hi).trans (h.get hi)

/-- A word in front of the others. -/
theorem Holds.push (h : Holds mem a vs) (hlength : vs.length + 1 < 2 ^ 61) (v : Word) :
    Holds (Function.update mem (a - 8) v) (a - 8) (v :: vs) := by
  refine ⟨Function.update_self .., ?_⟩
  rw [BitVec.sub_add_cancel]
  refine h.congr fun i hi => Function.update_of_ne ?_ ..
  have hne : a - 8 + bytes 0 ≠ a - 8 + bytes (i + 1) :=
    add_bytes_ne (Nat.zero_lt_succ i) (by omega)
  rw [add_bytes_zero, add_bytes_succ, BitVec.sub_add_cancel] at hne
  exact Ne.symm hne

/-- One of the words is replaced. -/
theorem Holds.set (h : Holds mem a vs) (hlength : vs.length < 2 ^ 61) (hi : i < vs.length)
    (v : Word) : Holds (Function.update mem (a + bytes i) v) a (vs.set i v) := by
  refine holds_iff.mpr fun j hj => ?_
  rw [List.length_set] at hj
  obtain hji | rfl | hji := Nat.lt_trichotomy j i
  · rw [Function.update_of_ne (add_bytes_ne hji (by omega)),
      List.getElem_set_ne (Nat.ne_of_gt hji), h.get hj]
  · rw [Function.update_self, List.getElem_set_self]
  · rw [Function.update_of_ne (add_bytes_ne hji (by omega)).symm,
      List.getElem_set_ne (Nat.ne_of_lt hji), h.get hj]

end Holds

/-! ## Runs -/

section States

variable {L : Type} {s t u : State L}

theorem State.load_eq {a : Word} (ha : Aligned a) : s.load a = some (s.mem a) := if_pos ha

theorem State.store_eq {a : Word} (ha : Aligned a) (v : Word) : s.store a v = some (s.setMem a v) :=
  if_pos ha

/-- A word has been pushed. -/
def State.pushed (s : State L) (v : Word) : State L :=
  (s.setReg .rsp (s.reg .rsp - 8)).setMem (s.reg .rsp - 8) v

theorem State.push_eq (h : Aligned (s.reg .rsp)) (v : Word) : s.push v = some (s.pushed v) :=
  State.store_eq (aligned_sub h 1) v

theorem State.setReg_self (s : State L) (r : Reg) (v : Word) : (s.setReg r v).reg r = v :=
  Function.update_self ..

theorem State.setReg_of_ne {q r : Reg} (h : q ≠ r) (s : State L) (v : Word) :
    (s.setReg r v).reg q = s.reg q :=
  Function.update_of_ne h ..

theorem State.pushed_rsp (s : State L) (v : Word) : (s.pushed v).reg .rsp = s.reg .rsp - 8 :=
  State.setReg_self s .rsp _

theorem State.pushed_reg {r : Reg} (h : r ≠ .rsp) (s : State L) (v : Word) :
    (s.pushed v).reg r = s.reg r :=
  State.setReg_of_ne h s _

/-- What most instructions leave alone. -/
structure State.Keeps (s t : State L) : Prop where
  df : t.df = s.df
  kernelGs : t.kernelGs = s.kernelGs
  swaps : t.swaps = s.swaps

theorem State.Keeps.trans (h : s.Keeps t) (h' : t.Keeps u) : s.Keeps u :=
  ⟨h'.df.trans h.df, h'.kernelGs.trans h.kernelGs, h'.swaps.trans h.swaps⟩

/-- Words have been pushed one after the other. -/
def State.pushes (s : State L) (vs : List Word) : State L := vs.foldl State.pushed s

/-- What the pushes do. -/
structure State.Pushes (s : State L) (vs : List Word) (t : State L) : Prop where
  rsp : t.reg .rsp = s.reg .rsp - bytes vs.length
  reg : ∀ r, r ≠ .rsp → t.reg r = s.reg r
  holds : ∀ ws, vs.length + ws.length < 2 ^ 61 → Holds s.mem (s.reg .rsp) ws →
    Holds t.mem (t.reg .rsp) (vs.reverse ++ ws)
  frame : ∀ a, (∀ n < vs.length, a ≠ s.reg .rsp - bytes (n + 1)) → t.mem a = s.mem a
  keeps : s.Keeps t

theorem State.Pushes.nil (s : State L) : s.Pushes [] s where
  rsp := (BitVec.sub_zero _).symm
  reg _ _ := rfl
  holds _ _ h := h
  frame _ _ := rfl
  keeps := ⟨rfl, rfl, rfl⟩

theorem State.Pushes.cons {v : Word} {vs : List Word} (h : (s.pushed v).Pushes vs t) :
    s.Pushes (v :: vs) t where
  rsp := by
    have hdepth : bytes (vs.length + 1) = 8 + bytes vs.length := by
      rw [Nat.add_comm, bytes_add, bytes_one]
    rw [h.rsp, State.pushed_rsp, List.length_cons, hdepth, BitVec.sub_sub]
  reg r hr := (h.reg r hr).trans (State.pushed_reg hr s v)
  holds ws hlength hholds := by
    rw [List.length_cons] at hlength
    have hpushed : Holds (s.pushed v).mem ((s.pushed v).reg .rsp) (v :: ws) := by
      rw [State.pushed_rsp]
      exact hholds.push (by omega) v
    rw [List.reverse_cons, List.append_assoc]
    exact h.holds (v :: ws) (by rw [List.length_cons]; omega) hpushed
  frame a ha := by
    have hfirst : a ≠ s.reg .rsp - 8 := ha 0 (Nat.zero_lt_succ _)
    refine (h.frame a fun n hn => ?_).trans (Function.update_of_ne hfirst ..)
    rw [State.pushed_rsp, BitVec.sub_sub, ← bytes_one, ← bytes_add, Nat.add_comm 1]
    exact ha (n + 1) (Nat.succ_lt_succ hn)
  keeps := ⟨h.keeps.df, h.keeps.kernelGs, h.keeps.swaps⟩

end States

section Runs

variable {L V : Type} {text : List (Line L V)} {line : Line L V} {i : ℕ}

/-- The first line of a block, and the others. -/
theorem getElem?_of_take (block : List (Line L V))
    (h : (text.drop i).take (block.length + 1) = line :: block) :
    text[i]? = some line ∧ (text.drop (i + 1)).take block.length = block := by
  rw [← List.head?_drop, ← List.tail_drop]
  cases hdrop : text.drop i with
  | nil =>
      rw [hdrop] at h
      cases h
  | cons head rest =>
      rw [hdrop, List.take_succ_cons] at h
      obtain ⟨rfl, hrest⟩ := List.cons.inj h
      exact ⟨rfl, hrest⟩

variable [DecidableEq L] {env : Environment L V} {s t u : State L}

theorem Leads.refl (s : State L) : Leads text env s s := Relation.ReflTransGen.refl

theorem Leads.trans (h : Leads text env s t) (h' : Leads text env t u) : Leads text env s u :=
  Relation.ReflTransGen.trans h h'

/-- One line is executed. -/
theorem leads_line (hplace : s.place = .line i) (hline : text[i]? = some line)
    (hexec : exec text env i s line = some t) : Leads text env s t := by
  refine Relation.ReflTransGen.single ?_
  rw [step, hplace]
  dsimp only
  rw [hline]
  exact hexec

/-- Code outside runs until it returns. -/
theorem leads_outside {l : L} {f : State L → State L} (hplace : s.place = .outside l)
    (hf : env.outside l = some f) : Leads text env s (f s) := by
  refine Relation.ReflTransGen.single ?_
  rw [step, hplace]
  dsimp only
  rw [hf]
  rfl

theorem leads_pushq {src : Operand V} {v : Word} (hplace : s.place = .line i)
    (hline : text[i]? = some (.pushq src)) (hvalue : value env s src = some v)
    (haligned : Aligned (s.reg .rsp)) : Leads text env s ((s.goto (i + 1)).pushed v) := by
  refine leads_line hplace hline ?_
  rw [exec, hvalue]
  exact State.push_eq (s := s.goto (i + 1)) haligned v

theorem leads_call {l : L} (hplace : s.place = .line i) (hline : text[i]? = some (.call l))
    (haligned : Aligned (s.reg .rsp)) :
    Leads text env s
      (({ s with place := find text l } : State L).pushed (BitVec.ofNat 64 (i + 1))) :=
  leads_line hplace hline
    (State.push_eq (s := { s with place := find text l }) haligned (BitVec.ofNat 64 (i + 1)))

/-- Bits of a byte are tested, and control goes to the label if none is set. -/
theorem leads_testb_jz {mask : BitVec 8} {disp v : Word} {base : Reg} {l : L}
    (hplace : s.place = .line i) (htestb : text[i]? = some (.testb mask disp base))
    (hjz : text[i + 1]? = some (.jz l)) (haligned : Aligned (s.reg base + disp))
    (hv : s.mem (s.reg base + disp) = v) :
    Leads text env s { s with
      place := if v.setWidth 8 &&& mask = 0 then find text l else .line (i + 2)
      zf := v.setWidth 8 &&& mask = 0 } := by
  generalize ht : ({ s.goto (i + 1) with zf := v.setWidth 8 &&& mask = 0 } : State L) = t
  have htest : Leads text env s t := by
    refine leads_line hplace htestb ?_
    rw [exec, State.load_eq haligned, hv, ← ht]
    rfl
  refine htest.trans (leads_line (i := i + 1) (ht ▸ rfl) hjz ?_)
  rw [exec, ← ht]
  by_cases hzero : v.setWidth 8 &&& mask = 0
  · rw [if_pos hzero, if_pos (decide_eq_true hzero)]
    rfl
  · rw [if_neg hzero, if_neg (ne_true_of_eq_false (decide_eq_false hzero))]
    rfl

/-- Registers are pushed one after the other. -/
theorem leads_pushes {rs : List Reg} (hplace : s.place = .line i)
    (hcode : (text.drop i).take rs.length = rs.map fun r => .pushq (.reg r)) (hrs : Reg.rsp ∉ rs)
    (haligned : Aligned (s.reg .rsp)) :
    ∃ t, Leads text env s t ∧ t.place = .line (i + rs.length) ∧ s.Pushes (rs.map s.reg) t := by
  induction rs generalizing s i with
  | nil => exact ⟨s, .refl s, hplace, .nil s⟩
  | cons r rs ih =>
      obtain ⟨hr, hrs⟩ := not_or.mp (List.mem_cons.not.mp hrs)
      obtain ⟨hline, hcode⟩ := getElem?_of_take (rs.map fun r => .pushq (.reg r))
        (by rwa [List.length_map])
      rw [List.length_map] at hcode
      generalize hs' : (s.goto (i + 1)).pushed (s.reg r) = s'
      have hpush : Leads text env s s' := hs' ▸ leads_pushq hplace hline rfl haligned
      have hrsp : s'.reg .rsp = s.reg .rsp - 8 := hs' ▸ State.pushed_rsp (s.goto (i + 1)) _
      obtain ⟨t, hleads, hplace', hpushes⟩ :=
        ih (s := s') (hs' ▸ rfl) hcode hrs (hrsp.symm ▸ aligned_sub haligned 1)
      have hmap : rs.map s'.reg = rs.map s.reg := List.map_congr_left fun q hq => by
        have hne : q ≠ .rsp := fun heq => hrs (heq ▸ hq)
        rw [← hs', State.pushed_reg hne]
        rfl
      refine ⟨t, hpush.trans hleads, ?_, ?_⟩
      · rw [hplace', List.length_cons, Nat.add_assoc, Nat.add_comm 1]
      · rw [hmap, ← hs'] at hpushes
        exact .cons ⟨hpushes.rsp, hpushes.reg, hpushes.holds, hpushes.frame,
          hpushes.keeps.df, hpushes.keeps.kernelGs, hpushes.keeps.swaps⟩

/-- Words of memory are pushed one after the other, which are not on the way of the stack. -/
theorem leads_pushes_mem {base : Reg} (ks : List ℕ) (hplace : s.place = .line i)
    (hcode : (text.drop i).take ks.length = ks.map fun k => .pushq (.mem (bytes k) base))
    (hbase : base ≠ .rsp) (haligned : Aligned (s.reg .rsp)) (hsource : Aligned (s.reg base))
    (hapart : ∀ k ∈ ks, ∀ n < ks.length, s.reg base + bytes k ≠ s.reg .rsp - bytes (n + 1)) :
    ∃ t, Leads text env s t ∧ t.place = .line (i + ks.length) ∧
      s.Pushes (ks.map fun k => s.mem (s.reg base + bytes k)) t := by
  induction ks generalizing s i with
  | nil => exact ⟨s, .refl s, hplace, .nil s⟩
  | cons k ks ih =>
      obtain ⟨hline, hcode⟩ := getElem?_of_take
        (ks.map fun k => .pushq (.mem (bytes k) base)) (by rwa [List.length_map])
      rw [List.length_map] at hcode
      generalize hs' : (s.goto (i + 1)).pushed (s.mem (s.reg base + bytes k)) = s'
      have hpush : Leads text env s s' :=
        hs' ▸ leads_pushq hplace hline (State.load_eq (aligned_add hsource k)) haligned
      have hrsp : s'.reg .rsp = s.reg .rsp - 8 := hs' ▸ State.pushed_rsp (s.goto (i + 1)) _
      have hsame : s'.reg base = s.reg base := hs' ▸ State.pushed_reg hbase (s.goto (i + 1)) _
      have hapart' : ∀ k ∈ ks, ∀ n < ks.length,
          s'.reg base + bytes k ≠ s'.reg .rsp - bytes (n + 1) := by
        intro k hk n hn
        rw [hsame, hrsp, BitVec.sub_sub, ← bytes_one, ← bytes_add, Nat.add_comm 1]
        exact hapart k (List.mem_cons_of_mem _ hk) (n + 1) (Nat.succ_lt_succ hn)
      obtain ⟨t, hleads, hplace', hpushes⟩ := ih (s := s') (hs' ▸ rfl) hcode
        (hrsp.symm ▸ aligned_sub haligned 1) (hsame.symm ▸ hsource) hapart'
      have hmap : (ks.map fun k => s'.mem (s'.reg base + bytes k)) =
          ks.map fun k => s.mem (s.reg base + bytes k) := List.map_congr_left fun k hk => by
        have hne := hapart k (List.mem_cons_of_mem _ hk) 0 (Nat.zero_lt_succ _)
        rw [hsame, ← hs']
        exact Function.update_of_ne hne ..
      refine ⟨t, hpush.trans hleads, ?_, ?_⟩
      · rw [hplace', List.length_cons, Nat.add_assoc, Nat.add_comm 1]
      · rw [hmap, ← hs'] at hpushes
        exact .cons ⟨hpushes.rsp, hpushes.reg, hpushes.holds, hpushes.frame,
          hpushes.keeps.df, hpushes.keeps.kernelGs, hpushes.keeps.swaps⟩

/-- Words are popped one after the other. -/
theorem leads_pops {rs : List Reg} {f : Reg → Word} {vs : List Word} (hplace : s.place = .line i)
    (hcode : (text.drop i).take rs.length = rs.map .popq) (hrs : Reg.rsp ∉ rs)
    (haligned : Aligned (s.reg .rsp)) (hholds : Holds s.mem (s.reg .rsp) (rs.map f ++ vs)) :
    ∃ t, Leads text env s t ∧ t.place = .line (i + rs.length) ∧
      t.reg .rsp = s.reg .rsp + bytes rs.length ∧ (∀ r ∈ rs, t.reg r = f r) ∧
      (∀ r, r ∉ rs → r ≠ .rsp → t.reg r = s.reg r) ∧ t.mem = s.mem ∧ s.Keeps t := by
  induction rs generalizing s i with
  | nil => exact ⟨s, .refl s, hplace, (add_bytes_zero _).symm,
      fun r hr => absurd hr List.not_mem_nil, fun _ _ _ => rfl, rfl, rfl, rfl, rfl⟩
  | cons r rs ih =>
      obtain ⟨hr, hrs⟩ := not_or.mp (List.mem_cons.not.mp hrs)
      obtain ⟨hline, hcode⟩ := getElem?_of_take (rs.map .popq) (by rwa [List.length_map])
      rw [List.length_map] at hcode
      generalize hs' : ((s.goto (i + 1)).setReg .rsp (s.reg .rsp + 8)).setReg r
        (s.mem (s.reg .rsp)) = s'
      have hexec : exec text env i s (.popq r) = some s' := by
        rw [exec, State.load_eq haligned, ← hs']
        rfl
      have hrsp' : s'.reg .rsp = s.reg .rsp + 8 := by
        rw [← hs', State.setReg_of_ne hr, State.setReg_self]
      have hmem' : s'.mem = s.mem := hs' ▸ rfl
      have hfirst : s.Keeps s' := hs' ▸ ⟨rfl, rfl, rfl⟩
      obtain ⟨t, hleads, hplace', hrsp, hpopped, hothers, hmem, hkeeps⟩ :=
        ih (s := s') (hs' ▸ rfl) hcode hrs (hrsp'.symm ▸ aligned_add haligned 1)
          (by rw [hrsp', hmem']; exact hholds.2)
      refine ⟨t, (leads_line hplace hline hexec).trans hleads, ?_, ?_, fun q hq => ?_,
        fun q hq hne => ?_, hmem.trans hmem', hfirst.trans hkeeps⟩
      · rw [hplace', List.length_cons, Nat.add_assoc, Nat.add_comm 1]
      · rw [hrsp, hrsp', List.length_cons, add_bytes_succ]
      · by_cases hmem : q ∈ rs
        · exact hpopped q hmem
        · obtain rfl : q = r := (List.mem_cons.mp hq).resolve_right hmem
          rw [hothers q hmem (Ne.symm hr), ← hs', State.setReg_self]
          exact hholds.1
      · obtain ⟨hqr, hq⟩ := not_or.mp (List.mem_cons.not.mp hq)
        rw [hothers q hq hne, ← hs', State.setReg_of_ne hqr, State.setReg_of_ne hne]
        rfl

end Runs

end Cyanea.Asm
