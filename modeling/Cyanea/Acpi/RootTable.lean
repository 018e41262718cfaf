/-
# The root table

The model of `acpi__acquire_table` and `acpi_parse_root_table` in `drivers/acpi/acpi.c`. The
number of entries comes from the length that the firmware gives the table, and only its
checksum is checked. A table that is shorter than its header wraps the number around.
-/

import Mathlib.Data.Nat.Digits.Lemmas
import Cyanea.Acpi.Subtables
import Cyanea.Word

namespace Cyanea.Acpi

/-- The little-endian word of `n` bytes at an address. -/
def load (mem : ℕ → UInt8) (n a : ℕ) : ℕ :=
  Nat.ofDigits 256 ((List.range n).map fun i => (mem (a + i)).toNat)

/-- `sizeof(struct acpi_table_header)`. -/
def sizeofHeader : ℕ := 36

/-- `sizeof(struct acpi_table_rsdp)`. -/
def sizeofRsdp : ℕ := 40

section Code

variable (mem : ℕ → UInt8)

/-- `table->length`. -/
def tableLength (table : ℕ) : ℕ := load mem 4 (table + 4)

/-- `rsdp->revision`. -/
def rsdpRevision (rsdp : ℕ) : UInt8 := mem (rsdp + 15)

/-- `rsdp->xsdt_address`. -/
def xsdtAddress (rsdp : ℕ) : ℕ := load mem 8 (rsdp + 24)

/-- The address of `xsdt->entry[i]`. -/
def entryAddress (xsdt i : ℕ) : ℕ := xsdt + sizeofHeader + 8 * i

/-- `xsdt->entry[i]`. -/
def xsdtEntry (xsdt i : ℕ) : ℕ := load mem 8 (entryAddress xsdt i)

def acpiValidate (table : ℕ) : ℤ :=
  if acpiCalcChecksum ((List.range (tableLength mem table)).map fun i => mem (table + i)) ≠ 0 then
    -EINVAL
  else SUCCESS

variable (mmap : ℕ → ℕ → Bool)

/-- `acpi__acquire_table`, with the physical address of the table that it returns a mapping
of. Whether `acpi_mmap` finds room for so many bytes is told by `mmap`. -/
def acpiAcquireTable (paddr : ℕ) : Option ℕ :=
  if !mmap paddr sizeofHeader then none
  else if !mmap paddr (tableLength mem paddr) then none
  else if acpiValidate mem paddr ≠ SUCCESS then none
  else some paddr

def INT_MAX : ℕ := 0x7fffffff

/-- How the parsing ends, if it does. -/
inductive Ended
  | returned (err : ℤ)
  | running
  /-- `i++` of the largest `int`. -/
  | overflow
  deriving DecidableEq

/-- The entries that are read, by their index, and what `acpi_add_table` is called on. -/
structure RootRun where
  visited : List ℕ
  added : List ℕ
  ended : Ended
  deriving DecidableEq

/-- A run behind a turn at index `i`, where the entry is `paddr`. -/
def RootRun.behind (rest : RootRun) (i paddr : ℕ) : RootRun where
  visited := i :: rest.visited
  added := if paddr = 0 then rest.added else paddr :: rest.added
  ended := rest.ended

theorem RootRun.behind_visited (rest : RootRun) (i paddr : ℕ) :
    (rest.behind i paddr).visited = i :: rest.visited := rfl

theorem RootRun.behind_ended (rest : RootRun) (i paddr : ℕ) :
    (rest.behind i paddr).ended = rest.ended := rfl

/-- The bound of the loop, a `size_t`. -/
def entryCount (length : ℕ) : ℕ := sub64 length sizeofHeader / 8

/-- The loop, as far as `turns` turns take it. What `acpi_add_table` returns is not used. -/
def rootLoop (xsdt : ℕ) : ℕ → ℕ → RootRun
  | 0, _ => ⟨[], [], .running⟩
  | turns + 1, i =>
    if i < entryCount (tableLength mem xsdt) then
      (if i < INT_MAX then rootLoop xsdt turns (i + 1) else ⟨[], [], .overflow⟩).behind i
        (xsdtEntry mem xsdt i)
    else ⟨[], [], .returned SUCCESS⟩

def acpiParseRootTable (rsdp_paddr turns : ℕ) : RootRun :=
  if !mmap rsdp_paddr sizeofRsdp then ⟨[], [], .returned (-ENOMEM)⟩
  else if rsdpRevision mem rsdp_paddr = 2 then
    match acpiAcquireTable mem mmap (xsdtAddress mem rsdp_paddr) with
    | none => ⟨[], [], .returned (-ENOMEM)⟩
    | some xsdt => rootLoop mem xsdt turns 0
  else ⟨[], [], .returned (-EINVAL)⟩

/-! ## What is asked for -/

/-- The root table is the one that is accepted, of a root pointer of ACPI 2.0. -/
structure Accepts (rsdp_paddr xsdt : ℕ) : Prop where
  rsdp_mapped : mmap rsdp_paddr sizeofRsdp = true
  revision : rsdpRevision mem rsdp_paddr = 2
  acquired : acpiAcquireTable mem mmap (xsdtAddress mem rsdp_paddr) = some xsdt

/-- The entry lies in the table. -/
def EntryInside (xsdt i : ℕ) : Prop :=
  entryAddress xsdt i + 8 ≤ xsdt + tableLength mem xsdt

/-- However long the parsing runs, it reads no entry outside of the table, and it returns
when all of its entries have been visited. -/
structure ReadsInside (rsdp_paddr xsdt : ℕ) : Prop where
  inside : ∀ turns, ∀ i ∈ (acpiParseRootTable mem mmap rsdp_paddr turns).visited,
    EntryInside mem xsdt i
  returns : ∃ turns err, (acpiParseRootTable mem mmap rsdp_paddr turns).ended = .returned err ∧
    (acpiParseRootTable mem mmap rsdp_paddr turns).visited =
      List.range ((tableLength mem xsdt - sizeofHeader) / 8)

end Code

/-! ## The loop -/

section Loop

variable {mem : ℕ → UInt8} {mmap : ℕ → ℕ → Bool} {xsdt i turns : ℕ}

theorem entryCount_eq {length : ℕ} (hle : sizeofHeader ≤ length) (hlt : length < 2 ^ 32) :
    entryCount length = (length - sizeofHeader) / 8 := by
  rw [entryCount, sub64_eq hle (by omega)]

/-- A table that is shorter than its header seems to have entries. -/
theorem entryCount_pos {length : ℕ} (hlt : length < sizeofHeader) : 0 < entryCount length := by
  rw [sizeofHeader] at hlt
  rw [entryCount, sub64, sizeofHeader]
  omega

theorem load_lt (mem : ℕ → UInt8) (n a : ℕ) : load mem n a < 256 ^ n := by
  have hdigits : ∀ d ∈ (List.range n).map fun i => (mem (a + i)).toNat, d < 256 := by
    intro d hd
    obtain ⟨i, -, rfl⟩ := List.mem_map.mp hd
    exact UInt8.toNat_lt (mem (a + i))
  have hlt := Nat.ofDigits_lt_base_pow_length (by decide) hdigits
  rwa [List.length_map, List.length_range] at hlt

theorem tableLength_lt (mem : ℕ → UInt8) (table : ℕ) : tableLength mem table < 2 ^ 32 := by
  rw [tableLength, show 2 ^ 32 = 256 ^ 4 by norm_num]
  exact load_lt mem 4 (table + 4)

theorem entryInside_iff :
    EntryInside mem xsdt i ↔ sizeofHeader + 8 * (i + 1) ≤ tableLength mem xsdt := by
  rw [EntryInside, entryAddress]
  generalize tableLength mem xsdt = length
  omega

/-- The entries that are visited are below the bound. -/
theorem visited_subset (mem : ℕ → UInt8) (xsdt turns : ℕ) {j : ℕ}
    (h : j ∈ (rootLoop mem xsdt turns i).visited) : j < entryCount (tableLength mem xsdt) := by
  induction turns generalizing i with
  | zero => exact absurd h List.not_mem_nil
  | succ turns ih =>
      rw [rootLoop] at h
      by_cases hlt : i < entryCount (tableLength mem xsdt)
      · rw [if_pos hlt, RootRun.behind_visited, List.mem_cons] at h
        obtain rfl | h := h
        · exact hlt
        · by_cases hnext : i < INT_MAX
          · rw [if_pos hnext] at h
            exact ih h
          · rw [if_neg hnext] at h
            exact absurd h List.not_mem_nil
      · rw [if_neg hlt] at h
        exact absurd h List.not_mem_nil

/-- The loop returns behind the last entry, if their number is an `int`. -/
theorem rootLoop_returns (hint : ∀ j < entryCount (tableLength mem xsdt), j < INT_MAX) {n : ℕ}
    (hn : i + n = entryCount (tableLength mem xsdt)) :
    (rootLoop mem xsdt (n + 1) i).ended = .returned SUCCESS ∧
      (rootLoop mem xsdt (n + 1) i).visited = List.range' i n := by
  induction n generalizing i with
  | zero =>
      have hout : ¬ i < entryCount (tableLength mem xsdt) := by omega
      rw [rootLoop, if_neg hout]
      exact ⟨rfl, rfl⟩
  | succ n ih =>
      have hin : i < entryCount (tableLength mem xsdt) := by omega
      have hnext : i < INT_MAX := hint i hin
      obtain ⟨hended, hvisited⟩ := ih (show i + 1 + n = _ by omega)
      rw [rootLoop, if_pos hin, if_pos hnext, RootRun.behind_ended, RootRun.behind_visited, hvisited,
        List.range'_succ]
      exact ⟨hended, rfl⟩

theorem acpiParseRootTable_of_accepts {rsdp_paddr : ℕ} (h : Accepts mem mmap rsdp_paddr xsdt)
    (turns : ℕ) : acpiParseRootTable mem mmap rsdp_paddr turns = rootLoop mem xsdt turns 0 := by
  have hmapped : ¬ (!mmap rsdp_paddr sizeofRsdp) = true := by
    rw [h.rsdp_mapped]
    exact Bool.false_ne_true
  rw [acpiParseRootTable, if_neg hmapped, if_pos h.revision, h.acquired]

end Loop

/-- The entries of an accepted root table are read as they should be exactly if the table is
as long as its header. -/
theorem readsInside_iff {mem : ℕ → UInt8} {mmap : ℕ → ℕ → Bool} {rsdp_paddr xsdt : ℕ}
    (h : Accepts mem mmap rsdp_paddr xsdt) :
    ReadsInside mem mmap rsdp_paddr xsdt ↔ sizeofHeader ≤ tableLength mem xsdt := by
  have hparse := acpiParseRootTable_of_accepts h
  have hlength := tableLength_lt mem xsdt
  constructor
  · intro hreads
    by_contra hshort
    -- the first entry is read
    have hfirst : 0 ∈ (acpiParseRootTable mem mmap rsdp_paddr 1).visited := by
      rw [hparse, rootLoop, if_pos (entryCount_pos (Nat.not_le.mp hshort)), RootRun.behind_visited]
      exact List.mem_cons_self
    exact hshort ((Nat.le_add_right _ _).trans (entryInside_iff.mp (hreads.inside 1 0 hfirst)))
  · intro hlong
    have hcount := entryCount_eq hlong hlength
    refine ⟨fun turns i hi => ?_, ?_⟩
    · rw [hparse] at hi
      have hlt := visited_subset mem xsdt turns hi
      rw [hcount] at hlt
      rw [entryInside_iff]
      generalize tableLength mem xsdt = length at hlong hlt
      omega
    · have hint : ∀ j < entryCount (tableLength mem xsdt), j < INT_MAX := by
        intro j hj
        rw [hcount] at hj
        rw [INT_MAX]
        generalize tableLength mem xsdt = length at hlength hj
        omega
      obtain ⟨hended, hvisited⟩ := rootLoop_returns hint (Nat.zero_add _)
      refine ⟨entryCount (tableLength mem xsdt) + 1, SUCCESS, ?_, ?_⟩
      · rw [hparse]
        exact hended
      · rw [hparse, hvisited, hcount, List.range_eq_range']

/-- A root pointer of ACPI 2.0, and a table at address 40. -/
def withTable (table : List UInt8) : ℕ → UInt8 := fun a =>
  (List.replicate 15 0 ++ [2] ++ List.replicate 8 0 ++ [40] ++ List.replicate 15 0 ++ table).getD a 0

/-- A table with one entry, `0x1000`. -/
def oneEntry : List UInt8 :=
  [0x58, 0x53, 0x44, 0x54, 44, 0, 0, 0, 1, 0x80] ++ List.replicate 27 0 ++ [0x10] ++
    List.replicate 6 0

/-- A table that ends behind its checksum. -/
def shortTable : List UInt8 := [0x58, 0x53, 0x44, 0x54, 10, 0, 0, 0, 1, 0xb2]

theorem readsInside_iff_oneEntry :
    ReadsInside (withTable oneEntry) (fun _ _ => true) 0 40 ↔
      sizeofHeader ≤ tableLength (withTable oneEntry) 40 :=
  readsInside_iff ⟨rfl, by decide, by decide⟩

/-- It is accepted, and its first entry is read behind it. -/
theorem not_readsInside_short : Accepts (withTable shortTable) (fun _ _ => true) 0 40 ∧
    ¬ ReadsInside (withTable shortTable) (fun _ _ => true) 0 40 := by
  have haccepts : Accepts (withTable shortTable) (fun _ _ => true) 0 40 :=
    ⟨rfl, by decide, by decide⟩
  refine ⟨haccepts, ?_⟩
  intro h
  have hinside := h.inside 1 0 (by decide)
  rw [entryInside_iff] at hinside
  exact absurd hinside (by decide)

end Cyanea.Acpi
