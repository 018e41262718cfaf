/-
# The tables on a walk

The walk for an address comes to one table of each level, as far as it gets. Once a walk has
come to a table it always comes there while the forest is only extended, so that what the
walk yields can be read off that table alone. Clearing the first entries of a root cuts off
the tables behind them.
-/

import Cyanea.X86.Tables

namespace Cyanea.X86

/-- The table of the level `target` that the walk for an address comes to. -/
def tableAt (mem : Tables) (target : ℕ) : ℕ → ℕ → ℕ → Option ℕ
  | 0, base, _ => if target = 0 then some base else none
  | level + 1, base, va =>
    if target = level + 1 then some base
    else
      match entry (level + 1) (mem base (index (level + 1) va)) with
      | .table next => tableAt mem target level next va
      | _ => none

section TableAt

variable {mem : Tables} {target level base va c : ℕ}

theorem tableAt_self (mem : Tables) (level base va : ℕ) :
    tableAt mem level level base va = some base := by
  cases level <;> exact if_pos rfl

/-- One step down. -/
theorem tableAt_of_table {next : ℕ} (hlt : target ≤ level)
    (hentry : entry (level + 1) (mem base (index (level + 1) va)) = .table next) :
    tableAt mem target (level + 1) base va = tableAt mem target level next va := by
  rw [tableAt, if_neg (by omega), hentry]

/-- A walk that comes to a table is there, or steps down. -/
theorem tableAt_cases (h : tableAt mem target level base va = some c) :
    target = level ∧ c = base ∨
      ∃ l next, level = l + 1 ∧ target ≤ l ∧
        entry level (mem base (index level va)) = .table next ∧
        tableAt mem target l next va = some c := by
  induction level generalizing base with
  | zero =>
      obtain ⟨rfl, hbase⟩ := Option.ite_none_right_eq_some.mp h
      exact .inl ⟨rfl, (Option.some.inj hbase).symm⟩
  | succ level ih =>
      rw [tableAt] at h
      split at h
      · rename_i htarget
        exact .inl ⟨htarget, (Option.some.inj h).symm⟩
      · split at h
        · rename_i next hentry
          refine .inr ⟨level, next, rfl, ?_, hentry, h⟩
          obtain ⟨rfl, -⟩ | ⟨l, -, rfl, hle, -⟩ := ih h
          · exact Nat.le_refl _
          · exact Nat.le_succ_of_le hle
        · cases h

/-- Below the table the walk is the table's. -/
theorem translate_of_tableAt (h : tableAt mem target level base va = some c) :
    translate mem level base va = translate mem target c va := by
  induction level generalizing base with
  | zero =>
      obtain ⟨rfl, rfl⟩ | ⟨l, next, hl, -⟩ := tableAt_cases h
      · rfl
      · cases hl
  | succ level ih =>
      obtain ⟨rfl, rfl⟩ | ⟨l, next, hl, -, hentry, hrest⟩ := tableAt_cases h
      · rfl
      · obtain rfl := Nat.succ.inj hl
        rw [translate, hentry]
        exact ih hrest

theorem vacant_of_tableAt {low : ℕ} (h : tableAt mem target level base va = some c)
    (hvacant : Vacant mem low target c va) : Vacant mem low level base va := by
  induction level generalizing base with
  | zero =>
      obtain ⟨rfl, rfl⟩ | ⟨l, next, hl, -⟩ := tableAt_cases h
      · exact hvacant
      · cases hl
  | succ level ih =>
      obtain ⟨rfl, rfl⟩ | ⟨l, next, hl, hle, hentry, hrest⟩ := tableAt_cases h
      · exact hvacant
      · obtain rfl := Nat.succ.inj hl
        exact ⟨(hvacant.low_le.trans hle).trans (Nat.le_succ _), .inr ⟨next, hentry, ih hrest⟩⟩

theorem index_of_block_eq {low level a b : ℕ} (hlow : low ≤ level) (hlevel : level ≤ 3)
    (h : block low a = block low b) : index level a = index level b := by
  rw [index_eq hlevel, index_eq hlevel, block_mono hlow h]

/-- A walk that comes to a table of a level has met no absent entry above it. -/
theorem not_vacant_of_tableAt {low : ℕ} (hlow : target < low)
    (h : tableAt mem target level base va = some c) : ¬ Vacant mem low level base va := by
  intro hvacant
  induction level generalizing base with
  | zero => exact absurd hvacant.1 (Nat.ne_of_gt (Nat.zero_lt_of_lt hlow))
  | succ level ih =>
      obtain ⟨rfl, rfl⟩ | ⟨l, next, hl, -, hentry, hrest⟩ := tableAt_cases h
      · exact absurd hvacant.low_le (Nat.not_le_of_lt hlow)
      · obtain rfl := Nat.succ.inj hl
        obtain ⟨-, habsent | ⟨other, hother, hbelow⟩⟩ := hvacant
        · exact absurd ((of_entry_table hentry).1.symm.trans habsent) (by decide)
        · rw [hentry] at hother
          obtain rfl := Entry.table.inj hother
          exact ih hrest hbelow

/-- Addresses in the block of a table have the same walk down to the table. -/
theorem tableAt_congr {a b : ℕ} (hlevel : level ≤ 3) (h : block (target + 1) a = block (target + 1) b)
    (htable : tableAt mem target level base a = some c) :
    tableAt mem target level base b = some c := by
  induction level generalizing base with
  | zero => exact htable
  | succ level ih =>
      obtain ⟨rfl, rfl⟩ | ⟨l, next, hl, hle, hentry, hrest⟩ := tableAt_cases htable
      · exact tableAt_self _ _ _ _
      · obtain rfl := Nat.succ.inj hl
        rw [index_of_block_eq (Nat.succ_le_succ hle) hlevel h] at hentry
        rw [tableAt_of_table hle hentry]
        exact ih (Nat.le_of_succ_le hlevel) hrest

/-- Addresses of one block have the same walk down to the block's level. -/
theorem vacant_congr {low a b : ℕ} (hlevel : level ≤ 3) (h : block low a = block low b)
    (hvacant : Vacant mem low level base a) : Vacant mem low level base b := by
  induction level generalizing base with
  | zero =>
      have hindex := index_of_block_eq hvacant.low_le hlevel h
      exact ⟨hvacant.1, hindex ▸ hvacant.2⟩
  | succ level ih =>
      have hindex := index_of_block_eq hvacant.low_le hlevel h
      obtain ⟨hle, habsent | ⟨next, hentry, hnext⟩⟩ := hvacant
      · exact ⟨hle, .inl (hindex ▸ habsent)⟩
      · exact ⟨hle, .inr ⟨next, hindex ▸ hentry, ih (Nat.le_of_succ_le hlevel) hnext⟩⟩

theorem Vacant.mono {low high : ℕ} (hle : low ≤ high) (h : Vacant mem high level base va) :
    Vacant mem low level base va := by
  induction level generalizing base with
  | zero => exact ⟨Nat.le_zero.mp (hle.trans h.1.le), h.2⟩
  | succ level ih =>
      obtain ⟨hlow, habsent | ⟨next, hentry, hnext⟩⟩ := h
      · exact ⟨hle.trans hlow, .inl habsent⟩
      · exact ⟨hle.trans hlow, .inr ⟨next, hentry, ih hnext⟩⟩

end TableAt

/-- No frame is used for two tables at once: the walks that come to it come to a table of one
level, which translates one block of addresses. -/
def Exclusive (mem : Tables) (root : ℕ) : Prop :=
  ∀ {t t' x x' c}, tableAt mem t 3 root x = some c → tableAt mem t' 3 root x' = some c →
    t = t' ∧ block (t + 1) x = block (t' + 1) x'

namespace Forest

variable {f g : Forest} {b c level low va target q i e : ℕ} {touched : Set ℕ}

theorem Over.tableAt (h : f.Over b level va) (htable : tableAt f.mem target level b va = some c) :
    f.Over c target va := by
  induction level generalizing b with
  | zero =>
      obtain ⟨rfl, rfl⟩ | ⟨l, next, hl, -⟩ := tableAt_cases htable
      · exact h
      · cases hl
  | succ level ih =>
      obtain ⟨rfl, rfl⟩ | ⟨l, next, hl, -, hentry, hrest⟩ := tableAt_cases htable
      · exact h
      · obtain rfl := Nat.succ.inj hl
        exact ih (h.child hentry) hrest

theorem exclusive {root : ℕ} (hroot : f.place root = some (3, 0)) : Exclusive f.mem root := by
  intro t t' x x' c h h'
  have hover : ∀ va, f.Over root 3 va := fun va => by
    rw [Over, block_four, hroot]
  exact Prod.mk.inj (Option.some.inj (((hover x).tableAt h).symm.trans ((hover x').tableAt h')))

/-- A walk that comes to a table still comes there in an extended forest. -/
theorem Extends.tableAt (h : Extends touched f g) (hover : f.Over b level va)
    (htable : tableAt f.mem target level b va = some c) :
    X86.tableAt g.mem target level b va = some c := by
  induction level generalizing b with
  | zero =>
      obtain ⟨rfl, rfl⟩ | ⟨l, next, hl, -⟩ := tableAt_cases htable
      · exact tableAt_self _ _ _ _
      · cases hl
  | succ level ih =>
      obtain ⟨rfl, rfl⟩ | ⟨l, next, hl, hle, hentry, hrest⟩ := tableAt_cases htable
      · exact tableAt_self _ _ _ _
      · obtain rfl := Nat.succ.inj hl
        have hkept := h.keeps hover (of_entry_table hentry).1
        rw [tableAt_of_table hle (by rw [hkept, hentry])]
        exact ih (hover.child hentry) hrest

/-! ## Single steps -/

/-- Tables that are new take part in the translation of a touched address. -/
structure Fresh (touched : Set ℕ) (f g : Forest) : Prop where
  touches : ∀ {b level q}, g.place b = some (level, q) →
    f.place b = some (level, q) ∨ ∃ a ∈ touched, block (level + 1) a = q

theorem Fresh.refl (touched : Set ℕ) (f : Forest) : Fresh touched f f := ⟨Or.inl⟩

theorem Fresh.trans {h : Forest} (h₁ : Fresh touched f g) (h₂ : Fresh touched g h) :
    Fresh touched f h where
  touches hplace := (h₂.touches hplace).elim h₁.touches Or.inr

theorem Fresh.mono {more : Set ℕ} (h : Fresh touched f g) (hsub : touched ⊆ more) :
    Fresh more f g where
  touches hplace := (h.touches hplace).imp_right fun ⟨a, ha, heq⟩ => ⟨a, hsub ha, heq⟩

theorem Fresh.of_new (hplace : g.place c = some (level, q))
    (hothers : ∀ d, d ≠ c → g.place d = f.place d)
    (htouched : ∃ a ∈ touched, block (level + 1) a = q) : Fresh touched f g where
  touches {d _ _} hd := by
    by_cases hdc : d = c
    · rw [hdc, hplace] at hd
      obtain ⟨rfl, rfl⟩ := Prod.mk.inj (Option.some.inj hd)
      exact .inr htouched
    · exact .inl ((hothers d hdc).symm.trans hd)

/-- A frame is cleared and linked into the forest as a table. -/
theorem exists_newTable (hplace : f.place b = some (level + 1, q)) (hnew : f.place c = none)
    (habsent : (f.mem b i).testBit 0 = false) (hentry : entry (level + 1) e = .table c)
    (htouched : ∃ a ∈ touched, block (level + 1) a = 512 * q + i) :
    ∃ g : Forest, g.mem = setEntry (Function.update f.mem c fun _ => 0) b i e ∧
      f.Extends touched g ∧ g.place c = some (level, 512 * q + i) ∧
      ∀ d, d ≠ c → g.place d = f.place d := by
  have hlevel := Nat.le_of_succ_le (f.level_le hplace)
  have hgains := gains_add (q := 512 * q + i) hlevel hnew
  have hplace₁ := (hgains.extends touched).placed hplace
  have hsame := hgains.mem_old (ne_of_placed hnew hplace)
  obtain ⟨hlink, hlinked⟩ := (Extends.refl touched _).link hplace₁ hgains.place_new hgains.vacant
    (by rw [hsame, habsent]) hentry htouched
  exact ⟨_, rfl, (hgains.extends touched).trans hlinked, hgains.place_new,
    fun d hd => hgains.place_old hd⟩

/-- An entry that was not present is set, and points to no table. -/
theorem exists_page (hplace : f.place b = some (level, q))
    (habsent : (f.mem b i).testBit 0 = false) (hentry : ∀ c, entry level e ≠ .table c)
    (htouched : ∀ {va}, block level va = 512 * q + i → ∃ a ∈ touched, a % 2 ^ 48 = va % 2 ^ 48) :
    ∃ g : Forest, g.mem = setEntry f.mem b i e ∧ f.Extends touched g ∧ g.place = f.place := by
  have hlink : ∀ {l c}, level = l + 1 → entry level e = .table c →
      f.place c = some (l, 512 * q + i) := fun _ htable => absurd htable (hentry _)
  refine ⟨f.set b level q i e hplace hlink, rfl, extends_set habsent ?_, rfl⟩
  intro low va _ hva huntouched
  obtain ⟨a, ha, hmod⟩ := htouched hva
  exact absurd (show block low a = block low va by rw [block, hmod, block]) (huntouched a ha)

/-! ## Cutting off the first entries of a root -/

/-- The root's entry that a place is behind. -/
def rootEntry (p : ℕ × ℕ) : ℕ := p.2 / 512 ^ (2 - p.1)

theorem rootEntry_block (hlevel : level ≤ 2) (va : ℕ) :
    rootEntry (level, block (level + 1) va) = block 3 va := by
  obtain rfl | rfl | rfl : level = 0 ∨ level = 1 ∨ level = 2 := by omega
  · rw [block_succ 2, block_succ 1, Nat.div_div_eq_div_mul]
    rfl
  · rw [block_succ 2]
    rfl
  · exact Nat.div_one _

/-- Below the tables that the root points to, a table is behind the same entry. -/
theorem rootEntry_child (hlevel : level < 2) (hi : i < 512) (q : ℕ) :
    rootEntry (level, 512 * q + i) = rootEntry (level + 1, q) := by
  obtain rfl | rfl : level = 0 ∨ level = 1 := by omega
  · show (512 * q + i) / (512 * 512) = q / 512
    omega
  · show (512 * q + i) / 512 = q / 1
    omega

section Clear

variable {root n : ℕ} (hroot : f.place root = some (3, 0))

include hroot

theorem ne_root {l : ℕ} (hplace : f.place c = some (l, q)) (hl : l ≤ 2) : c ≠ root := by
  rintro rfl
  obtain ⟨rfl, -⟩ := Prod.mk.inj (Option.some.inj (hplace.symm.trans hroot))
  cases hl.not_gt (by decide)

/-- The first entries of the root are cleared, and the tables behind them are tables no more. -/
def clear (n : ℕ) : Forest where
  mem := Function.update f.mem root fun i => if i < n then 0 else f.mem root i
  place b := if b = root then some (3, 0) else (f.place b).filter fun p => n ≤ rootEntry p
  level_le {b level q} hplace := by
    split at hplace
    · cases hplace
      exact Nat.le_refl 3
    · exact f.level_le (Option.filter_eq_some_iff.mp hplace).1
  child {b level q i c} hplace hi hentry := by
    split at hplace
    · rename_i hb
      cases hplace
      rw [hb, Function.update_self] at hentry
      split at hentry
      · rw [entry_zero] at hentry
        cases hentry
      · rename_i hlt
        have hchild := f.child hroot hi hentry
        rw [if_neg (ne_root hroot hchild (Nat.le_refl 2)), hchild]
        refine Option.filter_some_pos (decide_eq_true ?_)
        show n ≤ (512 * 0 + i) / 1
        omega
    · rename_i hb
      obtain ⟨hplace, hkept⟩ := Option.filter_eq_some_iff.mp hplace
      rw [Function.update_of_ne hb] at hentry
      have hchild := f.child hplace hi hentry
      have hlevel := f.level_le hplace
      rw [if_neg (ne_root hroot hchild (Nat.le_of_succ_le_succ hlevel)), hchild]
      refine Option.filter_some_pos (decide_eq_true ((of_decide_eq_true hkept).trans ?_))
      obtain hlow | rfl : level < 2 ∨ level = 2 := by omega
      · rw [rootEntry_child hlow hi]
      · show q / 1 ≤ (512 * q + i) / 1
        omega

theorem place_clear_root (n : ℕ) : (f.clear hroot n).place root = some (3, 0) := if_pos rfl

theorem of_place_clear {p : ℕ × ℕ} (h : (f.clear hroot n).place b = some p) :
    f.place b = some p ∧ (b ≠ root → n ≤ rootEntry p) := by
  by_cases hb : b = root
  · rw [hb, place_clear_root] at h
    rw [hb, hroot]
    exact ⟨h, absurd rfl⟩
  · obtain ⟨hplace, hkept⟩ := Option.filter_eq_some_iff.mp ((if_neg hb).symm.trans h)
    exact ⟨hplace, fun _ => of_decide_eq_true hkept⟩

end Clear

end Forest

end Cyanea.X86
