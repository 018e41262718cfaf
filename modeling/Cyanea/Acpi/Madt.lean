/-
# The address of the local APIC

The model of `acpi_parse_madt` in `arch/x86/ukernel/acpi/boot.c`, up to its call of
`register_lapic_address`. An override entry is read through a structure that is not packed:
its address is at offset 8, where the entry of 12 bytes has it at offset 4. What is read is
the high half of the address and the four bytes behind the entry.
-/

import Cyanea.Acpi.Entries
import Cyanea.Acpi.RootTable

namespace Cyanea.Acpi

def APIC_DEFAULT_PHYS_BASE : ℕ := 0xFEE00000

def ACPI_MADT_TYPE_LOCAL_APIC_OVERRIDE : ℕ := 5

/-- `sizeof(struct acpi_table_madt)`. -/
def sizeofMadt : ℕ := 44

section Code

variable (mem : ℕ → UInt8)

/-- The bytes of the table, which begins at address 0. -/
def tableBytes : List UInt8 := (List.range (tableLength mem 0)).map mem

/-- `madt->address`. -/
def madtAddress : ℕ := load mem 4 36

/-- `acpi_lapic_addr_ovr->address`: the alignment of `u64` leaves four bytes free behind
`reserved`. -/
def overrideAddress (entry : ℕ) : ℕ := load mem 8 (entry + 8)

/-- What the handler leaves in `acpi_lapic_addr`. It always succeeds. -/
def acpiParseLapicAddressOverride (_acpi_lapic_addr entry : ℕ) : ℕ := overrideAddress mem entry

/-- What is passed to `register_lapic_address`; `none` for a parse that has not ended. -/
def acpiParseMadt (acpi_lapic_addr turns : ℕ) : Option ℕ :=
  let acpi_lapic_addr := if madtAddress mem ≠ 0 then madtAddress mem else acpi_lapic_addr
  (acpiSubtableParse (tableBytes mem) ACPI_MADT_TYPE_LOCAL_APIC_OVERRIDE succeed sizeofMadt
    turns).map fun parsed =>
      parsed.2.foldl (acpiParseLapicAddressOverride mem) acpi_lapic_addr

/-! ## What is asked for -/

/-- The subtables follow the header up to the end of the table, and those that override the
address have 12 bytes. -/
structure WellFormed (subtables : List ℕ) : Prop where
  follow : Subtables (tableBytes mem) sizeofMadt subtables
  length : ∀ p ∈ entries (tableBytes mem) ACPI_MADT_TYPE_LOCAL_APIC_OVERRIDE subtables,
    subtableLength (tableBytes mem) p = 12

/-- The last entry that overrides the address. -/
def lastOverride (subtables : List ℕ) : Option ℕ :=
  (entries (tableBytes mem) ACPI_MADT_TYPE_LOCAL_APIC_OVERRIDE subtables).getLast?

/-- The address that the table tells, in the layout of the specification. -/
def lapicAddress (subtables : List ℕ) : ℕ :=
  match lastOverride mem subtables with
  | some entry => load mem 8 (entry + 4)
  | none => if madtAddress mem ≠ 0 then madtAddress mem else APIC_DEFAULT_PHYS_BASE

/-- The parse ends, and that address is registered. -/
def RegistersAddress (subtables : List ℕ) : Prop :=
  ∃ turns, acpiParseMadt mem APIC_DEFAULT_PHYS_BASE turns = some (lapicAddress mem subtables)

/-- The two halves of the address of an entry are the same, and so are the four bytes behind
the entry. -/
def Repeats (entry : ℕ) : Prop :=
  load mem 4 (entry + 4) = load mem 4 (entry + 8) ∧
    load mem 4 (entry + 8) = load mem 4 (entry + 12)

end Code

/-! ## Words -/

section Words

variable {mem : ℕ → UInt8} {entry : ℕ}

theorem load_add (mem : ℕ → UInt8) (m n a : ℕ) :
    load mem (m + n) a = load mem m a + 256 ^ m * load mem n (a + m) := by
  rw [load, List.range_add, List.map_append, List.map_map, Nat.ofDigits_append, List.length_map,
    List.length_range]
  simp only [load, Function.comp_def, Nat.add_assoc]

theorem load_eight (mem : ℕ → UInt8) (a : ℕ) :
    load mem 8 a = load mem 4 a + 2 ^ 32 * load mem 4 (a + 4) := by
  rw [show 2 ^ 32 = 256 ^ 4 by norm_num]
  exact load_add mem 4 4 a

theorem load_four_lt (mem : ℕ → UInt8) (a : ℕ) : load mem 4 a < 2 ^ 32 := by
  rw [show 2 ^ 32 = 256 ^ 4 by norm_num]
  exact load_lt mem 4 a

/-- The address that is read is the one that is there. -/
theorem overrideAddress_iff :
    overrideAddress mem entry = load mem 8 (entry + 4) ↔ Repeats mem entry := by
  have hlow := load_four_lt mem (entry + 4)
  have hhigh := load_four_lt mem (entry + 8)
  have hbehind := load_four_lt mem (entry + 12)
  rw [overrideAddress, Repeats, load_eight mem (entry + 8), load_eight mem (entry + 4)]
  generalize load mem 4 (entry + 4) = low at *
  generalize load mem 4 (entry + 8) = high at *
  generalize load mem 4 (entry + 12) = behind at *
  omega

end Words

/-! ## The entries that are visited -/

section Visited

variable {mem : ℕ → UInt8} {subtables : List ℕ} {table : List UInt8} {p : ℕ}

theorem Subtables.mem_le (h : Subtables table p subtables) {q : ℕ} (hq : q ∈ subtables) :
    q + subtableLength table q ≤ table.length := by
  induction h with
  | nil => exact absurd hq List.not_mem_nil
  | cons hlength h ih =>
      obtain rfl | hq := List.mem_cons.mp hq
      · exact h.le
      · exact ih hq

/-- An entry of 12 bytes is more than its header. -/
theorem WellFormed.entries_visited (h : WellFormed mem subtables) :
    entries (tableBytes mem) ACPI_MADT_TYPE_LOCAL_APIC_OVERRIDE
      (visited (tableBytes mem) subtables) =
    entries (tableBytes mem) ACPI_MADT_TYPE_LOCAL_APIC_OVERRIDE subtables := by
  rw [entries, visited, List.filter_filter, entries]
  refine List.filter_congr fun q hq => ?_
  by_cases htype : (subtableType (tableBytes mem) q).toNat = ACPI_MADT_TYPE_LOCAL_APIC_OVERRIDE
  · have hlength := h.length q (List.mem_filter.mpr ⟨hq, decide_eq_true htype⟩)
    have hle := h.follow.mem_le hq
    have hin : q + sizeofSubtable < (tableBytes mem).length :=
      Nat.lt_of_lt_of_le (Nat.add_lt_add_left (by rw [hlength]; decide) q) hle
    rw [decide_eq_true htype, decide_eq_true hin]
    rfl
  · rw [decide_eq_false htype]
    rfl

theorem handled_succeed (calls : List ℕ) : handled succeed calls subtables =
    (true, calls ++ subtables) := by
  induction subtables generalizing calls with
  | nil => rw [handled, List.append_nil]
  | cons p subtables ih =>
      have hok : ¬ succeed (calls ++ [p]) ≠ 0 := not_not.mpr rfl
      rw [handled, if_neg hok, ih, List.append_assoc, List.singleton_append]

/-- Each entry overrides what those before it have left. -/
theorem foldl_override (mem : ℕ → UInt8) (acpi_lapic_addr : ℕ) (calls : List ℕ) :
    calls.foldl (acpiParseLapicAddressOverride mem) acpi_lapic_addr =
      match calls.getLast? with
      | some entry => overrideAddress mem entry
      | none => acpi_lapic_addr := by
  induction calls using List.reverseRecOn with
  | nil => rfl
  | append_singleton calls entry ih =>
      rw [List.foldl_append, List.getLast?_concat]
      rfl

/-- What the parse of a well-formed table comes to. -/
theorem WellFormed.acpiParseMadt_eq (h : WellFormed mem subtables) (acpi_lapic_addr : ℕ) :
    (∃ turns, acpiParseMadt mem acpi_lapic_addr turns ≠ none) ∧
      ∀ turns address, acpiParseMadt mem acpi_lapic_addr turns = some address →
        address = match lastOverride mem subtables with
          | some entry => overrideAddress mem entry
          | none => if madtAddress mem ≠ 0 then madtAddress mem else acpi_lapic_addr := by
  obtain ⟨turns, hparse⟩ :=
    acpiSubtableParse_visited ACPI_MADT_TYPE_LOCAL_APIC_OVERRIDE succeed h.follow
  rw [h.entries_visited, handled_succeed, List.nil_append] at hparse
  refine ⟨⟨turns, ?_⟩, fun turns' address haddress => ?_⟩
  · rw [acpiParseMadt, hparse]
    exact Option.some_ne_none _
  · obtain ⟨parsed, hparse', rfl⟩ := Option.map_eq_some_iff.mp haddress
    obtain rfl := acpiSubtableParse_unique hparse hparse'
    exact foldl_override mem _ _

end Visited

/-- The address of the local APIC is registered as the table tells it exactly if there is no
entry that overrides it, or the last one repeats the half of its address. -/
theorem registersAddress_iff {mem : ℕ → UInt8} {subtables : List ℕ}
    (h : WellFormed mem subtables) :
    RegistersAddress mem subtables ↔
      ∀ entry, lastOverride mem subtables = some entry → Repeats mem entry := by
  obtain ⟨⟨turns, hends⟩, haddress⟩ := h.acpiParseMadt_eq APIC_DEFAULT_PHYS_BASE
  obtain ⟨address, hparse⟩ := Option.ne_none_iff_exists'.mp hends
  have heq := haddress turns address hparse
  have hiff : RegistersAddress mem subtables ↔ address = lapicAddress mem subtables := by
    constructor
    · rintro ⟨turns', hparse'⟩
      rw [heq]
      exact (haddress turns' _ hparse').symm
    · rintro rfl
      exact ⟨turns, hparse⟩
  rw [hiff, heq, lapicAddress]
  cases lastOverride mem subtables with
  | none => simp
  | some entry =>
      dsimp only
      rw [overrideAddress_iff]
      simp

/-- A table at address 0. -/
def memoryOf (table : List UInt8) : ℕ → UInt8 := fun a => table.getD a 0

/-- The header of a MADT of `length` bytes, with the local APIC at `0xfee00000`. -/
def madtHeader (length : UInt8) : List UInt8 :=
  [0x41, 0x50, 0x49, 0x43, length, 0, 0, 0] ++ List.replicate 28 0 ++ [0, 0, 0xe0, 0xfe, 1, 0, 0, 0]

/-- One local APIC. -/
def madtPlain : List UInt8 := madtHeader 52 ++ [0, 8, 0, 0, 1, 0, 0, 0]

/-- The local APIC is at `0xfee00000` by an entry, too. -/
def madtOverride : List UInt8 := madtHeader 56 ++ [5, 12, 0, 0, 0, 0, 0xe0, 0xfe, 0, 0, 0, 0]

theorem registersAddress_iff_plain : RegistersAddress (memoryOf madtPlain) [44] ↔
    ∀ entry, lastOverride (memoryOf madtPlain) [44] = some entry →
      Repeats (memoryOf madtPlain) entry :=
  registersAddress_iff ⟨.cons (by decide) .nil, by decide⟩

/-- Address 0 is registered. -/
theorem not_registersAddress_override : WellFormed (memoryOf madtOverride) [44] ∧
    ¬ RegistersAddress (memoryOf madtOverride) [44] := by
  have hformed : WellFormed (memoryOf madtOverride) [44] := ⟨.cons (by decide) .nil, by decide⟩
  refine ⟨hformed, ?_⟩
  rintro ⟨turns, hparse⟩
  have haddress := (hformed.acpiParseMadt_eq APIC_DEFAULT_PHYS_BASE).2 turns _ hparse
  revert haddress
  decide

end Cyanea.Acpi
