/-
# Page tables that are filled

Tables are added to a tree of tables, and entries that are not present are set. To follow
which addresses this reaches, every table is given its place: the level of its entries and
the block of addresses that it translates. Since a table has one place, no two entries
point to it, and an entry that is set changes the translation of its own block only.
-/

import Mathlib.Data.Set.Basic
import Mathlib.Logic.Function.Basic
import Cyanea.X86.Paging

namespace Cyanea.X86

/-- The block of an entry of this level that an address lies in. Only the low 48 bits of an
address select entries. -/
def block (level va : ℕ) : ℕ := va % 2 ^ 48 / 2 ^ pageShift level

theorem block_succ (level va : ℕ) : block (level + 1) va = block level va / 512 := by
  rw [block, block, Nat.div_div_eq_div_mul, pageShift, pageShift, Nat.mul_succ, ← Nat.add_assoc,
    Nat.pow_add (m := 12 + 9 * level)]

theorem index_eq {level : ℕ} (hlevel : level ≤ 3) (va : ℕ) :
    index level va = block level va % 512 := by
  have hpow : 2 ^ 48 = 2 ^ pageShift level * (2 ^ (9 * (3 - level)) * 512) := by
    rw [show 512 = 2 ^ 9 from rfl, ← Nat.pow_add, ← Nat.pow_add, pageShift]
    congr 1
    omega
  rw [index, block, hpow, Nat.mod_mul_right_div_self, Nat.mod_mul_left_mod]

theorem block_eq {level : ℕ} (hlevel : level ≤ 3) (va : ℕ) :
    block level va = 512 * block (level + 1) va + index level va := by
  rw [index_eq hlevel, block_succ, Nat.div_add_mod]

theorem block_four (va : ℕ) : block 4 va = 0 :=
  Nat.div_eq_of_lt (Nat.mod_lt _ (by decide))

/-- A block of a lower level lies in one of a higher level. -/
theorem block_mono {low high a b : ℕ} (hle : low ≤ high) (h : block low a = block low b) :
    block high a = block high b := by
  induction high, hle using Nat.le_induction with
  | base => exact h
  | succ level _ ih => rw [block_succ, block_succ, ih]

/-- One entry is set. -/
def setEntry (mem : Tables) (base i e : ℕ) : Tables :=
  Function.update mem base (Function.update (mem base) i e)

theorem setEntry_self (mem : Tables) (base i e : ℕ) : setEntry mem base i e base i = e := by
  rw [setEntry, Function.update_self, Function.update_self]

theorem setEntry_of_ne {mem : Tables} {base i e c j : ℕ} (hne : ¬ (c = base ∧ j = i)) :
    setEntry mem base i e c j = mem c j := by
  by_cases hc : c = base
  · subst hc
    rw [setEntry, Function.update_self, Function.update_of_ne fun hj => hne ⟨rfl, hj⟩]
  · rw [setEntry, Function.update_of_ne hc]

theorem entry_eq_absent {level e : ℕ} (h : e.testBit 0 = false) : entry level e = .absent := by
  rw [entry, h]
  rfl

/-! ## Entries that are not present -/

/-- The walk for an address from this table on meets an entry that is not present, of the
level `low` or above. -/
def Vacant (mem : Tables) (low : ℕ) : ℕ → ℕ → ℕ → Prop
  | 0, base, va => low = 0 ∧ (mem base (index 0 va)).testBit 0 = false
  | level + 1, base, va => low ≤ level + 1 ∧
      ((mem base (index (level + 1) va)).testBit 0 = false ∨
        ∃ next, entry (level + 1) (mem base (index (level + 1) va)) = .table next ∧
          Vacant mem low level next va)

section Walks

variable {mem : Tables} {low level base va : ℕ}

theorem Vacant.low_le (h : Vacant mem low level base va) : low ≤ level := by
  cases level with
  | zero => exact h.1.le
  | succ level => exact h.1

theorem vacant_iff : Vacant mem low level base va ↔ low ≤ level ∧
    ((mem base (index level va)).testBit 0 = false ∨
      ∃ l next, level = l + 1 ∧ entry level (mem base (index level va)) = .table next ∧
        Vacant mem low l next va) := by
  cases level with
  | zero => simp [Vacant]
  | succ level => simp [Vacant]

theorem vacant_of_absent (hlow : low ≤ level) (h : (mem base (index level va)).testBit 0 = false) :
    Vacant mem low level base va :=
  vacant_iff.mpr ⟨hlow, .inl h⟩

/-- At its own level, a vacant entry is not present. -/
theorem Vacant.absent (h : Vacant mem level level base va) :
    (mem base (index level va)).testBit 0 = false := by
  cases level with
  | zero => exact h.2
  | succ level =>
      obtain ⟨-, habsent | ⟨next, -, hnext⟩⟩ := h
      · exact habsent
      · exact absurd hnext.low_le (Nat.not_succ_le_self level)

/-- A vacant entry that is present points to a table. -/
theorem Vacant.table (h : Vacant mem low level base va)
    (hpresent : (mem base (index level va)).testBit 0 = true) :
    ∃ l next, level = l + 1 ∧ low ≤ l ∧ entry level (mem base (index level va)) = .table next ∧
      Vacant mem low l next va := by
  cases level with
  | zero => exact absurd (hpresent.symm.trans h.2) (by decide)
  | succ l =>
      obtain ⟨-, habsent | ⟨next, hentry, hnext⟩⟩ := h
      · exact absurd (hpresent.symm.trans habsent) (by decide)
      · exact ⟨l, next, rfl, hnext.low_le, hentry, hnext⟩

theorem Vacant.translate (h : Vacant mem low level base va) : translate mem level base va = none := by
  induction level generalizing base with
  | zero => exact translate_leaf_absent mem base (entry_eq_absent h.2)
  | succ level ih =>
      obtain ⟨-, habsent | ⟨next, hentry, hnext⟩⟩ := h
      · rw [X86.translate, entry_eq_absent habsent]
      · rw [X86.translate, hentry]
        exact ih hnext

end Walks

/-! ## Tables at their places -/

/-- Tables in memory, each with its level and its block of addresses. -/
structure Forest where
  mem : Tables
  place : ℕ → Option (ℕ × ℕ)
  level_le : ∀ {b level q}, place b = some (level, q) → level ≤ 3
  child : ∀ {b level q i c}, place b = some (level + 1, q) → i < 512 →
    entry (level + 1) (mem b i) = .table c → place c = some (level, 512 * q + i)

namespace Forest

variable {f g k : Forest} {b c level low va pa : ℕ} {touched : Set ℕ}

/-- The table of this level at `b` takes part in the translation of the address. -/
def Over (f : Forest) (b level va : ℕ) : Prop := f.place b = some (level, block (level + 1) va)

theorem Over.child (h : f.Over b (level + 1) va)
    (hentry : entry (level + 1) (f.mem b (index (level + 1) va)) = .table c) :
    f.Over c level va := by
  have hplace := f.child h (index_lt _ _) hentry
  rwa [← block_eq (f.level_le h)] at hplace

/-- From one forest to another entries are only added: no present entry changes and every
table stays at its place. An entry that is vacant stays vacant unless a touched address lies
in its block. -/
structure Extends (touched : Set ℕ) (f g : Forest) : Prop where
  placed : ∀ {b p}, f.place b = some p → g.place b = some p
  keeps : ∀ {b p i}, f.place b = some p → (f.mem b i).testBit 0 = true → g.mem b i = f.mem b i
  vacant : ∀ {low level b va}, f.Over b level va → (∀ a ∈ touched, block low a ≠ block low va) →
    Vacant f.mem low level b va → Vacant g.mem low level b va

theorem Extends.refl (touched : Set ℕ) (f : Forest) : Extends touched f f :=
  ⟨id, fun _ _ => rfl, fun _ _ h => h⟩

theorem Extends.trans (h₁ : Extends touched f g) (h₂ : Extends touched g k) :
    Extends touched f k where
  placed hplace := h₂.placed (h₁.placed hplace)
  keeps hplace hpresent := by
    have hkept := h₁.keeps hplace hpresent
    rw [← hkept] at hpresent
    exact (h₂.keeps (h₁.placed hplace) hpresent).trans hkept
  vacant hover huntouched hvacant :=
    h₂.vacant (h₁.placed hover) huntouched (h₁.vacant hover huntouched hvacant)

theorem Extends.mono {more : Set ℕ} (h : Extends touched f g) (hsub : touched ⊆ more) :
    Extends more f g where
  placed := h.placed
  keeps := h.keeps
  vacant hover huntouched := h.vacant hover fun a ha => huntouched a (hsub ha)

/-- What an address that meets no entry that is not present translates to, if to anything,
does not change. -/
theorem Extends.translate_eq (h : Extends touched f g) (hover : f.Over b level va)
    (hvacant : ¬ Vacant f.mem 0 level b va) :
    translate g.mem level b va = translate f.mem level b va := by
  induction level generalizing b with
  | zero =>
      have hpresent : (f.mem b (index 0 va)).testBit 0 = true := by
        by_contra habsent
        exact hvacant (vacant_of_absent (Nat.le_refl 0) (Bool.not_eq_true _ ▸ habsent))
      rw [translate, translate, h.keeps hover hpresent]
  | succ level ih =>
      have hpresent : (f.mem b (index (level + 1) va)).testBit 0 = true := by
        by_contra habsent
        exact hvacant (vacant_of_absent (Nat.zero_le _) (Bool.not_eq_true _ ▸ habsent))
      rw [translate, translate, h.keeps hover hpresent]
      cases hentry : entry (level + 1) (f.mem b (index (level + 1) va)) with
      | absent => rfl
      | page frame => rfl
      | table next =>
          exact ih (hover.child hentry) fun hnext =>
            hvacant ⟨Nat.zero_le _, .inr ⟨next, hentry, hnext⟩⟩

/-- A translation that has been established stays. -/
theorem Extends.translate (h : Extends touched f g) (hover : f.Over b level va)
    (hsome : translate f.mem level b va = some pa) : translate g.mem level b va = some pa := by
  rw [h.translate_eq hover, hsome]
  intro hvacant
  rw [hvacant.translate] at hsome
  cases hsome

/-- Outside the touched pages nothing is translated anew. -/
theorem Extends.translate_untouched (h : Extends touched f g) (hover : f.Over b level va)
    (huntouched : ∀ a ∈ touched, block 0 a ≠ block 0 va) :
    X86.translate g.mem level b va = X86.translate f.mem level b va := by
  by_cases hvacant : Vacant f.mem 0 level b va
  · rw [hvacant.translate, (h.vacant hover huntouched hvacant).translate]
  · exact h.translate_eq hover hvacant

/-! ## Adding a table and setting an entry -/

/-- A new table without a present entry. -/
def add (f : Forest) (c level q : ℕ) (hlevel : level ≤ 3) (hnew : f.place c = none) : Forest where
  mem := Function.update f.mem c fun _ => 0
  place := Function.update f.place c (some (level, q))
  level_le {b _ _} hplace := by
    by_cases hb : b = c
    · subst hb
      rw [Function.update_self] at hplace
      cases hplace
      exact hlevel
    · rw [Function.update_of_ne hb] at hplace
      exact f.level_le hplace
  child {b _ _ i d} hplace hi hentry := by
    by_cases hb : b = c
    · subst hb
      rw [Function.update_self, entry_zero] at hentry
      cases hentry
    · rw [Function.update_of_ne hb] at hplace hentry
      have hchild := f.child hplace hi hentry
      rwa [Function.update_of_ne]
      rintro rfl
      rw [hnew] at hchild
      cases hchild

theorem ne_of_placed {p : ℕ × ℕ} (hnew : f.place c = none) (hplace : f.place b = some p) :
    b ≠ c := by
  rintro rfl
  rw [hnew] at hplace
  cases hplace

/-- The table at `c` is new, and has no present entry. -/
structure Gains (f g : Forest) (c level q : ℕ) : Prop where
  new : f.place c = none
  place_new : g.place c = some (level, q)
  place_old : ∀ {b}, b ≠ c → g.place b = f.place b
  mem_new : ∀ i, g.mem c i = 0
  mem_old : ∀ {b}, b ≠ c → g.mem b = f.mem b

theorem gains_add {q : ℕ} (hlevel : level ≤ 3) (hnew : f.place c = none) :
    f.Gains (f.add c level q hlevel hnew) c level q where
  new := hnew
  place_new := Function.update_self _ _ _
  place_old hb := Function.update_of_ne hb _ _
  mem_new i := congrFun (Function.update_self c _ f.mem) i
  mem_old hb := Function.update_of_ne hb _ f.mem

theorem Gains.vacant {q : ℕ} (h : f.Gains g c level q) (hlow : low ≤ level) (va : ℕ) :
    Vacant g.mem low level c va := by
  refine vacant_of_absent hlow ?_
  rw [h.mem_new, Nat.zero_testBit]

theorem Gains.extends {q : ℕ} (h : f.Gains g c level q) (touched : Set ℕ) :
    f.Extends touched g where
  placed hplace := (h.place_old (ne_of_placed h.new hplace)).trans hplace
  keeps hplace _ := congrFun (h.mem_old (ne_of_placed h.new hplace)) _
  vacant {low l b va} hover _ hvacant := by
    induction l using Nat.strong_induction_on generalizing b with
    | _ l ih =>
        rw [vacant_iff, h.mem_old (ne_of_placed h.new hover)]
        obtain ⟨hlow, habsent | ⟨m, next, rfl, hentry, hnext⟩⟩ := vacant_iff.mp hvacant
        · exact ⟨hlow, .inl habsent⟩
        · exact ⟨hlow, .inr ⟨m, next, rfl, hentry,
            ih m (Nat.lt_succ_self m) (hover.child hentry) hnext⟩⟩

/-- An entry is set. One that points to a table points to the table of its block. -/
def set (f : Forest) (b level q i e : ℕ) (hplace : f.place b = some (level, q))
    (hlink : ∀ {l c}, level = l + 1 → entry level e = .table c →
      f.place c = some (l, 512 * q + i)) : Forest where
  mem := setEntry f.mem b i e
  place := f.place
  level_le := f.level_le
  child {d l r j c} hd hj hentry := by
    by_cases heq : d = b ∧ j = i
    · obtain ⟨rfl, rfl⟩ := heq
      rw [setEntry_self] at hentry
      obtain ⟨hlevel, rfl⟩ := Prod.mk.inj (Option.some.inj (hd.symm.trans hplace))
      exact hlink hlevel.symm (hlevel ▸ hentry)
    · rw [setEntry_of_ne heq] at hentry
      exact f.child hd hj hentry

section Set

variable {q i e : ℕ} {hplace : f.place b = some (level, q)}
  {hlink : ∀ {l c}, level = l + 1 → entry level e = .table c → f.place c = some (l, 512 * q + i)}

theorem mem_set_self : (f.set b level q i e hplace hlink).mem b i = e :=
  setEntry_self f.mem b i e

theorem mem_set_of_ne {d j : ℕ} (hne : ¬ (d = b ∧ j = i)) :
    (f.set b level q i e hplace hlink).mem d j = f.mem d j :=
  setEntry_of_ne hne

/-- Setting an entry that is not present extends the forest. An untouched address of the
entry's block has to be vacant in the table that the entry now points to. -/
theorem extends_set (habsent : (f.mem b i).testBit 0 = false)
    (hbelow : ∀ {low va}, low ≤ level → block level va = 512 * q + i →
      (∀ a ∈ touched, block low a ≠ block low va) →
      ∃ l c, level = l + 1 ∧ entry level e = .table c ∧ Vacant f.mem low l c va) :
    f.Extends touched (f.set b level q i e hplace hlink) where
  placed := id
  keeps {d _ j} _ hpresent := by
    refine mem_set_of_ne ?_
    rintro ⟨rfl, rfl⟩
    exact absurd (hpresent.symm.trans habsent) (by decide)
  vacant {low l d va} hover huntouched hvacant := by
    induction l using Nat.strong_induction_on generalizing d with
    | _ l ih =>
        rw [vacant_iff]
        refine ⟨hvacant.low_le, ?_⟩
        by_cases heq : d = b ∧ index l va = i
        · obtain ⟨rfl, rfl⟩ := heq
          obtain ⟨rfl, rfl⟩ := Prod.mk.inj (Option.some.inj (hover.symm.trans hplace))
          have hblock := block_eq (f.level_le hover) va
          obtain ⟨m, c, rfl, hentry, hcvacant⟩ := hbelow hvacant.low_le hblock huntouched
          have hc : f.Over c m va := by
            rw [Over, hblock]
            exact hlink rfl hentry
          rw [mem_set_self]
          exact .inr ⟨m, c, rfl, hentry, ih m (Nat.lt_succ_self m) hc hcvacant⟩
        · rw [mem_set_of_ne heq]
          obtain ⟨-, hnone | ⟨m, next, rfl, hentry, hnext⟩⟩ := vacant_iff.mp hvacant
          · exact .inl hnone
          · exact .inr ⟨m, next, rfl, hentry,
              ih m (Nat.lt_succ_self m) (hover.child hentry) hnext⟩

end Set

/-- A table that was empty, and has been extended, is linked into the tree. -/
theorem Extends.link {q i e : ℕ} (h : Extends touched f g)
    (hplace : f.place b = some (level + 1, q)) (hc : f.place c = some (level, 512 * q + i))
    (hempty : ∀ {low}, low ≤ level → ∀ va, Vacant f.mem low level c va)
    (habsent : (g.mem b i).testBit 0 = false) (hentry : entry (level + 1) e = .table c)
    (htouched : ∃ a ∈ touched, block (level + 1) a = 512 * q + i) :
    ∃ hlink, Extends touched g (g.set b (level + 1) q i e (h.placed hplace) hlink) := by
  have hlink : ∀ {l d}, level + 1 = l + 1 → entry (level + 1) e = .table d →
      g.place d = some (l, 512 * q + i) := by
    intro l d hl hd
    obtain rfl := Nat.succ.inj hl
    rw [hentry] at hd
    obtain rfl := Entry.table.inj hd
    exact h.placed hc
  refine ⟨hlink, extends_set habsent ?_⟩
  intro low va hlow hblock huntouched
  obtain ⟨a, ha, hreach⟩ := htouched
  have hlt : low ≠ level + 1 := by
    rintro rfl
    exact huntouched a ha (hreach.trans hblock.symm)
  have hover : f.Over c level va := by
    rw [Over, hblock, hc]
  exact ⟨level, c, rfl, hentry, h.vacant hover huntouched (hempty (by omega) va)⟩

end Forest

end Cyanea.X86
