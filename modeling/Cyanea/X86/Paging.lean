/-
# Four-level address translation

The page tables of a 64-bit x86 processor, as the processor reads them. A table is
512 entries in a frame of physical memory; level 3 is the root and level 0 holds the
entries of 4 KiB pages. An entry is absent, points to a table of the level below, or
maps a page as large as what its table's entries span: 4 KiB, 2 MiB or 1 GiB. An entry
with a reserved bit set translates nothing, like an absent one.
-/

import Mathlib.Data.Nat.Bitwise
import Mathlib.Tactic.SplitIfs

namespace Cyanea.X86

/-- Physical memory by frames: the entries of the table that begins at an address. -/
abbrev Tables := ℕ → ℕ → ℕ

/-- An entry of a table of this level spans `2 ^ pageShift level` bytes. -/
def pageShift (level : ℕ) : ℕ := 12 + 9 * level

/-- The entry of a table of this level that an address selects. -/
def index (level va : ℕ) : ℕ := va / 2 ^ pageShift level % 512

/-- Bits 12 to 51 of an entry. -/
def address (e : ℕ) : ℕ := e / 2 ^ 12 % 2 ^ 40 * 2 ^ 12

/-- What an entry says. -/
inductive Entry where
  | absent
  | table (base : ℕ)
  | page (base : ℕ)
  deriving DecidableEq, Repr

/-- How an entry of a table of this level is read. Bit 0 is the present bit. Bit 7 makes
an entry of level 1 or 2 map a page, whose address has no bit below the page's size apart
from bit 12, which is not part of it; in an entry of the root it is reserved. -/
def entry (level e : ℕ) : Entry :=
  if !e.testBit 0 then .absent
  else if level = 0 then .page (address e)
  else if !e.testBit 7 then .table (address e)
  else if level < 3 ∧ address e / 2 ^ 13 % 2 ^ (pageShift level - 13) = 0 then
    .page (address e / 2 ^ pageShift level * 2 ^ pageShift level)
  else .absent

/-- The translation of an address by the table of this level at `base`. -/
def translate (mem : Tables) : ℕ → ℕ → ℕ → Option ℕ
  | 0, base, va =>
    match entry 0 (mem base (index 0 va)) with
    | .page frame => some (frame + va % 2 ^ pageShift 0)
    | _ => none
  | level + 1, base, va =>
    match entry (level + 1) (mem base (index (level + 1) va)) with
    | .absent => none
    | .page frame => some (frame + va % 2 ^ pageShift (level + 1))
    | .table next => translate mem level next va

/-- The addresses that the processor translates: bit 47 fills the bits above it. -/
def Canonical (va : ℕ) : Prop := va < 2 ^ 47 ∨ 2 ^ 64 - 2 ^ 47 ≤ va ∧ va < 2 ^ 64

instance (va : ℕ) : Decidable (Canonical va) := inferInstanceAs (Decidable (_ ∨ _))

/-- The translation of an address by the tables whose root is at `root`. -/
def walk (mem : Tables) (root va : ℕ) : Option ℕ :=
  if Canonical va then translate mem 3 root va else none

theorem index_lt (level va : ℕ) : index level va < 512 := Nat.mod_lt _ (by decide)

/-! ## Entries that are put together from an address and flags -/

/-- The flags have no bit of the address field. -/
def Flags (flags : ℕ) : Prop := address flags = 0

instance (flags : ℕ) : Decidable (Flags flags) := inferInstanceAs (Decidable (_ = _))

theorem address_or (a b : ℕ) : address (a ||| b) = address a ||| address b := by
  have hmul : ∀ x, x * 2 ^ 12 = x <<< 12 := fun x => (Nat.shiftLeft_eq x 12).symm
  rw [address, address, address, ← Nat.shiftRight_eq_div_pow, ← Nat.shiftRight_eq_div_pow,
    ← Nat.shiftRight_eq_div_pow, hmul, hmul, hmul, Nat.shiftRight_or_distrib, Nat.or_mod_two_pow,
    Nat.shiftLeft_or_distrib]

theorem address_of_dvd {a : ℕ} (hdvd : 2 ^ 12 ∣ a) (ha : a < 2 ^ 52) : address a = a := by
  obtain ⟨q, rfl⟩ := hdvd
  rw [address]
  omega

theorem address_or_flags {a flags : ℕ} (hdvd : 2 ^ 12 ∣ a) (ha : a < 2 ^ 52)
    (hflags : Flags flags) : address (a ||| flags) = a := by
  rw [address_or, hflags, Nat.or_zero, address_of_dvd hdvd ha]

/-- A bit below the address field comes from the flags. -/
theorem testBit_or_flags {a i : ℕ} (hdvd : 2 ^ 12 ∣ a) (hi : i < 12) (flags : ℕ) :
    (a ||| flags).testBit i = flags.testBit i := by
  obtain ⟨q, rfl⟩ := hdvd
  rw [Nat.testBit_or, Nat.testBit_two_pow_mul]
  simp [Nat.not_le.mpr hi]

@[simp]
theorem entry_zero (level : ℕ) : entry level 0 = .absent := by
  simp [entry]

/-- A present entry of the lowest level maps its page. -/
theorem entry_leaf {a flags : ℕ} (hdvd : 2 ^ 12 ∣ a) (ha : a < 2 ^ 52) (hflags : Flags flags)
    (hpresent : flags.testBit 0 = true) : entry 0 (a ||| flags) = .page a := by
  rw [entry, testBit_or_flags hdvd (by decide), hpresent, address_or_flags hdvd ha hflags]
  simp

theorem entry_table {a flags : ℕ} (level : ℕ) (hdvd : 2 ^ 12 ∣ a) (ha : a < 2 ^ 52)
    (hflags : Flags flags) (hpresent : flags.testBit 0 = true) (hps : flags.testBit 7 = false) :
    entry (level + 1) (a ||| flags) = .table a := by
  rw [entry, testBit_or_flags hdvd (by decide), testBit_or_flags hdvd (by decide), hpresent, hps,
    address_or_flags hdvd ha hflags]
  simp

/-- An entry that points to a table is present, and has no page size bit. -/
theorem of_entry_table {level e c : ℕ} (h : entry level e = .table c) :
    e.testBit 0 = true ∧ e.testBit 7 = false ∧ c = address e := by
  simp only [entry] at h
  split_ifs at h with hpresent _ hps
  · exact ⟨by simpa using hpresent, by simpa using hps, (Entry.table.inj h).symm⟩

/-- A present entry of a middle level with the page size bit maps its page. -/
theorem entry_large {a flags level : ℕ} (hpos : 0 < level) (hlt : level < 3)
    (hdvd : 2 ^ pageShift level ∣ a) (ha : a < 2 ^ 52) (hflags : Flags flags)
    (hpresent : flags.testBit 0 = true) (hps : flags.testBit 7 = true) :
    entry level (a ||| flags) = .page a := by
  have hframe : 2 ^ 12 ∣ a := (Nat.pow_dvd_pow 2 (Nat.le_add_right 12 _)).trans hdvd
  have hlevel : level = 1 ∨ level = 2 := by omega
  have hreserved : a / 2 ^ 13 % 2 ^ (pageShift level - 13) = 0 := by
    obtain rfl | rfl := hlevel
    · rw [show pageShift 1 = 21 from rfl] at hdvd ⊢
      omega
    · rw [show pageShift 2 = 30 from rfl] at hdvd ⊢
      omega
  rw [entry, testBit_or_flags hframe (by decide), testBit_or_flags hframe (by decide), hpresent,
    hps, address_or_flags hframe ha hflags, hreserved, Nat.div_mul_cancel hdvd]
  simp [hpos.ne', hlt]

theorem translate_page {mem : Tables} {level base va frame : ℕ}
    (h : entry level (mem base (index level va)) = .page frame) :
    translate mem level base va = some (frame + va % 2 ^ pageShift level) := by
  cases level <;> rw [translate, h]

theorem translate_leaf (mem : Tables) (base : ℕ) {va frame : ℕ}
    (h : entry 0 (mem base (index 0 va)) = .page frame) :
    translate mem 0 base va = some (frame + va % 2 ^ 12) := by
  rw [translate, h]
  rfl

theorem translate_leaf_absent (mem : Tables) (base : ℕ) {va : ℕ}
    (h : entry 0 (mem base (index 0 va)) = .absent) : translate mem 0 base va = none := by
  rw [translate, h]

end Cyanea.X86
