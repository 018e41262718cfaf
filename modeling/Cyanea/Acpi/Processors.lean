/-
# The processors of the MADT

The model of `acpi_parse_lapic`, `acpi_parse_x2apic` and `acpi_parse_madt_lapic_entries` in
`arch/x86/ukernel/acpi/boot.c`. The processors that are enabled are registered in the order
of the table, those with an x2APIC entry behind the others, and each gets a number of its
own. What the function returns is not determined for a table that lacks one of the four
types of entries.
-/

import Cyanea.Acpi.Madt
import Cyanea.Apic.CpuNumbers

namespace Cyanea.Acpi

open Apic (State registerApicId registerAll Given RecordedAt Numbers numbered)

def ACPI_MADT_TYPE_LOCAL_APIC : ℕ := 0

def ACPI_MADT_TYPE_LOCAL_APIC_NMI : ℕ := 4

def ACPI_MADT_TYPE_LOCAL_X2APIC : ℕ := 9

def ACPI_MADT_TYPE_LOCAL_X2APIC_NMI : ℕ := 10

def ACPI_MADT_ENABLED : UInt32 := 1

section Code

variable (mem : ℕ → UInt8) (NR_CPUS : Int32) (boot_cpu_apic_id : UInt32)

/-- A field of type `u32`. -/
def loadU32 (a : ℕ) : UInt32 := UInt32.ofNat (load mem 4 a)

/-- The handlers always succeed; what is left of them is what they do to the state. -/
def acpiParseLapic (s : State) (apic : ℕ) : State :=
  let id := mem (apic + 3)
  if id = 0xFF then s
  else if loadU32 mem (apic + 4) &&& ACPI_MADT_ENABLED ≠ 0 then
    registerApicId NR_CPUS boot_cpu_apic_id s id.toUInt32 (mem (apic + 2)).toUInt32
  else s

def acpiParseX2apic (s : State) (x2apic : ℕ) : State :=
  let id := loadU32 mem (x2apic + 4)
  if id = 0xFFFFFFFF then s
  else if loadU32 mem (x2apic + 8) &&& ACPI_MADT_ENABLED ≠ 0 then
    registerApicId NR_CPUS boot_cpu_apic_id s id (loadU32 mem (x2apic + 12))
  else s

def acpiParseLapicNmi (s : State) (_lapic_nmi : ℕ) : State := s

def acpiParseX2apicNmi (s : State) (_x2apic_nmi : ℕ) : State := s

/-- `acpi_subtable_parse` with a handler that always succeeds. -/
def parseSubtables (turns type : ℕ) (handler : State → ℕ → State) (s : State) :
    Option (Option ℤ × State) :=
  (acpiSubtableParse (tableBytes mem) type succeed sizeofMadt turns).map fun parsed =>
    (parsed.1, parsed.2.foldl handler s)

/-- A test that is made on both counts only if the first does not decide. -/
def bothZero (count x2count : Option ℤ) : Option Bool :=
  andM (count.map fun count => decide (count = 0)) (x2count.map fun x2count => decide (x2count = 0))

def oneNegative (count x2count : Option ℤ) : Option Bool :=
  orM (count.map fun count => decide (count < 0)) (x2count.map fun x2count => decide (x2count < 0))

/-- What is returned, and the state; no result if it depends on a count that is not
determined. `none` for a parse that has not ended. -/
def acpiParseMadtLapicEntries (turns : ℕ) (s : State) : Option (Option ℤ × State) := do
  let (count, s) ← parseSubtables mem turns ACPI_MADT_TYPE_LOCAL_APIC
    (acpiParseLapic mem NR_CPUS boot_cpu_apic_id) s
  let (x2count, s) ← parseSubtables mem turns ACPI_MADT_TYPE_LOCAL_X2APIC
    (acpiParseX2apic mem NR_CPUS boot_cpu_apic_id) s
  match bothZero count x2count, oneNegative count x2count with
  | none, _ => return (none, s)
  | some true, _ => return (some (-ENODEV), s)
  | some false, none => return (none, s)
  | some false, some true => return (some (-ENODEV), s)
  | some false, some false =>
      let (count, s) ← parseSubtables mem turns ACPI_MADT_TYPE_LOCAL_APIC_NMI acpiParseLapicNmi s
      let (x2count, s) ← parseSubtables mem turns ACPI_MADT_TYPE_LOCAL_X2APIC_NMI
        acpiParseX2apicNmi s
      return ((oneNegative count x2count).map fun failed => if failed then -ENODEV else SUCCESS, s)

/-! ## What is asked for -/

/-- The subtables follow the header up to the end of the table, and each is more than its
header. -/
structure Filled (subtables : List ℕ) : Prop where
  follow : Subtables (tableBytes mem) sizeofMadt subtables
  length : ∀ p ∈ subtables, sizeofSubtable < subtableLength (tableBytes mem) p

/-- The ids of the processor that an entry tells, unless it is disabled or no entry at all. -/
def lapicCpu (apic : ℕ) : Option (UInt32 × UInt32) :=
  if mem (apic + 3) ≠ 0xFF ∧ loadU32 mem (apic + 4) &&& ACPI_MADT_ENABLED ≠ 0 then
    some ((mem (apic + 3)).toUInt32, (mem (apic + 2)).toUInt32)
  else none

def x2apicCpu (x2apic : ℕ) : Option (UInt32 × UInt32) :=
  if loadU32 mem (x2apic + 4) ≠ 0xFFFFFFFF ∧ loadU32 mem (x2apic + 8) &&& ACPI_MADT_ENABLED ≠ 0 then
    some (loadU32 mem (x2apic + 4), loadU32 mem (x2apic + 12))
  else none

/-- The processors of the table, in the order in which they are registered. -/
def madtCpus (subtables : List ℕ) : List (UInt32 × UInt32) :=
  (entries (tableBytes mem) ACPI_MADT_TYPE_LOCAL_APIC subtables).filterMap (lapicCpu mem) ++
    (entries (tableBytes mem) ACPI_MADT_TYPE_LOCAL_X2APIC subtables).filterMap (x2apicCpu mem)

/-- Each of the counts is determined. -/
def Counted (subtables : List ℕ) : Prop :=
  ∀ type ∈ [ACPI_MADT_TYPE_LOCAL_APIC, ACPI_MADT_TYPE_LOCAL_X2APIC, ACPI_MADT_TYPE_LOCAL_APIC_NMI,
    ACPI_MADT_TYPE_LOCAL_X2APIC_NMI], entries (tableBytes mem) type subtables ≠ []

instance (subtables : List ℕ) : Decidable (Counted mem subtables) :=
  inferInstanceAs (Decidable (∀ type ∈ _, _))

/-- Each processor has a number of its own, the boot processor 0, under which its ids are
recorded, and none is dropped. -/
structure Assigned (NR_CPUS : Int32) (boot_cpu_apic_id : UInt32) (cpus : List (UInt32 × UInt32))
    (s : State) (numbers : List ℕ) : Prop where
  log_eq : s.log = (numbers.zip cpus).map numbered
  length_eq : numbers.length = cpus.length
  nodup : numbers.Nodup
  lt : ∀ n ∈ numbers, (n : ℤ) < NR_CPUS.toInt
  boot : ∀ n cpu, (n, cpu) ∈ numbers.zip cpus → cpu.1 = boot_cpu_apic_id → n = 0
  recorded : ∀ n cpu, (n, cpu) ∈ numbers.zip cpus → RecordedAt s n cpu

end Code

/-! ## The numbers -/

section Numbering

variable {NR_CPUS : Int32} {boot_cpu_apic_id : UInt32} {before rest : List (UInt32 × UInt32)}
  {cpu : UInt32 × UInt32} {s s' : State}

/-- The numbers of the processors: the one behind those in front of the boot processor is
left out. -/
def numbersAround (before rest : List (UInt32 × UInt32)) : List ℕ :=
  List.range' 1 before.length ++ 0 :: List.range' (before.length + 2) rest.length

theorem zip_numbersAround : (numbersAround before rest).zip (before ++ cpu :: rest) =
    (List.range' 1 before.length).zip before ++
      (0, cpu) :: (List.range' (before.length + 2) rest.length).zip rest := by
  rw [numbersAround, List.zip_append List.length_range', List.zip_cons_cons]

theorem nodup_numbersAround : (numbersAround before rest).Nodup := by
  have hfront : (List.range' 1 before.length).Nodup := List.nodup_range'
  have hbehind : (List.range' (before.length + 2) rest.length).Nodup := List.nodup_range'
  rw [numbersAround, List.nodup_append, List.nodup_cons]
  refine ⟨hfront, ⟨?_, hbehind⟩, ?_⟩
  · intro hmem
    have := List.mem_range'_1.mp hmem
    omega
  · intro n hn m hm
    have hlow := List.mem_range'_1.mp hn
    obtain rfl | hm := List.mem_cons.mp hm
    · omega
    · have hhigh := List.mem_range'_1.mp hm
      omega

/-- The processors in front of the boot processor keep their numbers while the others get
theirs. -/
theorem assigned_around (hbefore : ∀ other ∈ before, other.1 ≠ boot_cpu_apic_id)
    (hrest : ∀ other ∈ rest, other.1 ≠ boot_cpu_apic_id)
    (hroom : ((before ++ cpu :: rest).length : ℤ) < NR_CPUS.toInt)
    (hfront : Given 1 before .loaded s)
    (hbehind : Given (before.length + 2) rest (s.given 0 cpu) s') :
    Assigned NR_CPUS boot_cpu_apic_id (before ++ cpu :: rest) s' (numbersAround before rest) where
  log_eq := by
    have hlog : (s.given 0 cpu).log =
        ((List.range' 1 before.length).zip before).map numbered ++ [numbered (0, cpu)] :=
      congrArg (· ++ [numbered (0, cpu)]) hfront.log_eq
    rw [zip_numbersAround, hbehind.log_eq, hlog, List.map_append, List.map_cons,
      List.append_assoc, List.singleton_append]
  length_eq := by
    rw [numbersAround, List.length_append, List.length_cons, List.length_range',
      List.length_range', List.length_append, List.length_cons]
  nodup := nodup_numbersAround
  lt n hn := by
    rw [List.length_append, List.length_cons] at hroom
    rw [numbersAround, List.mem_append, List.mem_cons] at hn
    obtain hn | rfl | hn := hn
    · have := List.mem_range'_1.mp hn
      omega
    · omega
    · have := List.mem_range'_1.mp hn
      omega
  boot n other hmem hother := by
    rw [zip_numbersAround, List.mem_append, List.mem_cons] at hmem
    obtain hmem | heq | hmem := hmem
    · exact absurd hother (hbefore other (List.of_mem_zip hmem).2)
    · exact congrArg Prod.fst heq
    · exact absurd hother (hrest other (List.of_mem_zip hmem).2)
  recorded n other hmem := by
    have hNR := Int32.toInt_lt NR_CPUS
    rw [List.length_append, List.length_cons] at hroom
    rw [zip_numbersAround, List.mem_append, List.mem_cons] at hmem
    obtain hmem | heq | hmem := hmem
    · have hn := List.mem_range'_1.mp (List.of_mem_zip hmem).1
      exact hbehind.kept n other (by omega)
        ((hfront.recorded n other hmem).given (by omega) (by decide) (by omega))
    · obtain ⟨rfl, rfl⟩ := Prod.mk.inj heq
      exact hbehind.kept 0 other (by omega) Apic.recordedAt_given
    · exact hbehind.recorded n other hmem

/-- Wherever the boot processor is among the others, they all get their numbers if there is
one to spare. -/
theorem assigned_of_spare (hbefore : ∀ other ∈ before, other.1 ≠ boot_cpu_apic_id)
    (hcpu : cpu.1 = boot_cpu_apic_id) (hrest : ∀ other ∈ rest, other.1 ≠ boot_cpu_apic_id)
    (hroom : ((before ++ cpu :: rest).length : ℤ) < NR_CPUS.toInt) :
    Assigned NR_CPUS boot_cpu_apic_id (before ++ cpu :: rest)
      (registerAll NR_CPUS boot_cpu_apic_id (before ++ cpu :: rest) .loaded)
      (numbersAround before rest) := by
  have hlength := hroom
  rw [List.length_append, List.length_cons] at hlength
  have hle : ((1 + before.length : ℕ) : ℤ) ≤ NR_CPUS.toInt := by omega
  obtain ⟨s, hfront, hrun⟩ := Apic.registerAll_boot rest hbefore hcpu hle
  have hcount : (s.given 0 cpu).nr_assigned_cpus = UInt32.ofNat (before.length + 2) := by
    rw [State.given, hfront.count, Nat.add_comm 1]
    exact (UInt32.ofNat_add (before.length + 1) 1).symm
  rw [hrun]
  exact assigned_around hbefore hrest hroom hfront
    (Apic.given_registerAll hrest hcount (by omega))

variable {cpus : List (UInt32 × UInt32)} {numbers : List ℕ}

/-- The numbers below the count of the processors are below `NR_CPUS`. -/
theorem assigned_of_numbers (h : Numbers boot_cpu_apic_id cpus s numbers)
    (hle : (cpus.length : ℤ) ≤ NR_CPUS.toInt) :
    Assigned NR_CPUS boot_cpu_apic_id cpus s numbers where
  log_eq := h.log_eq
  length_eq := by rw [h.perm.length_eq, List.length_range]
  nodup := h.perm.nodup_iff.mpr List.nodup_range
  lt n hn := by
    have := List.mem_range.mp (h.perm.mem_iff.mp hn)
    omega
  boot := h.boot
  recorded := h.recorded

theorem Assigned.subset_range (h : Assigned NR_CPUS boot_cpu_apic_id cpus s numbers) :
    numbers ⊆ List.range NR_CPUS.toInt.toNat := by
  intro n hn
  have := h.lt n hn
  exact List.mem_range.mpr (by omega)

theorem Assigned.length_le (h : Assigned NR_CPUS boot_cpu_apic_id cpus s numbers)
    (hne : cpus ≠ []) : (cpus.length : ℤ) ≤ NR_CPUS.toInt := by
  have hle := (List.subperm_of_subset h.nodup h.subset_range).length_le
  rw [List.length_range, h.length_eq] at hle
  have hpos := List.length_pos_iff.mpr hne
  omega

/-- As many processors as there are numbers have all of them. -/
theorem numbers_of_assigned (h : Assigned NR_CPUS boot_cpu_apic_id cpus s numbers)
    (hfull : (cpus.length : ℤ) = NR_CPUS.toInt) : Numbers boot_cpu_apic_id cpus s numbers where
  log_eq := h.log_eq
  perm := by
    have hsame : NR_CPUS.toInt.toNat = cpus.length := by omega
    have hsub := List.subperm_of_subset h.nodup h.subset_range
    rw [hsame] at hsub
    exact hsub.perm_of_length_le (by rw [List.length_range, h.length_eq])
  boot := h.boot
  recorded := h.recorded

/-- Processors with distinct APIC ids all get a number of their own exactly if there is one
to spare, or the boot processor comes last and there are as many as numbers. -/
theorem assigned_registerAll (hdistinct : (cpus.map Prod.fst).Nodup)
    (hboot : boot_cpu_apic_id ∈ cpus.map Prod.fst) :
    (∃ numbers, Assigned NR_CPUS boot_cpu_apic_id cpus
        (registerAll NR_CPUS boot_cpu_apic_id cpus .loaded) numbers) ↔
      (cpus.length : ℤ) < NR_CPUS.toInt ∨
        (cpus.length : ℤ) = NR_CPUS.toInt ∧
          (cpus.map Prod.fst).getLast? = some boot_cpu_apic_id := by
  obtain ⟨before, cpu, rest, rfl, hcpu, hbefore, hrest⟩ := Apic.exists_around hdistinct hboot
  rw [Apic.getLast?_around hcpu hrest]
  constructor
  · rintro ⟨numbers, h⟩
    refine (lt_or_eq_of_le (h.length_le (by simp))).imp_right fun hfull => ⟨hfull, ?_⟩
    by_contra hne
    exact Apic.not_numbers_of_rest hbefore hcpu hrest hne hfull.le numbers
      (numbers_of_assigned h hfull)
  · rintro (hspare | ⟨hfull, rfl⟩)
    · exact ⟨_, assigned_of_spare hbefore hcpu hrest hspare⟩
    · have hle : ((1 + before.length : ℕ) : ℤ) ≤ NR_CPUS.toInt := by
        rw [List.length_append, List.length_singleton] at hfull
        omega
      exact ⟨_, assigned_of_numbers (Apic.numbers_of_last hbefore hcpu hle) hfull.le⟩

end Numbering

/-! ## The parse -/

section Parse

variable {mem : ℕ → UInt8} {NR_CPUS : Int32} {boot_cpu_apic_id : UInt32} {subtables : List ℕ}
  {s : State}

/-- A handler that registers some of the entries. -/
theorem foldl_registering {handler : State → ℕ → State} {cpu : ℕ → Option (UInt32 × UInt32)}
    (h : ∀ s entry, handler s entry =
      (cpu entry).elim s fun cpu => registerApicId NR_CPUS boot_cpu_apic_id s cpu.1 cpu.2)
    (calls : List ℕ) :
    calls.foldl handler s = registerAll NR_CPUS boot_cpu_apic_id (calls.filterMap cpu) s := by
  rw [registerAll, List.foldl_filterMap]
  congr 1
  funext s entry
  rw [h]
  cases cpu entry <;> rfl

theorem acpiParseLapic_eq (s : State) (apic : ℕ) :
    acpiParseLapic mem NR_CPUS boot_cpu_apic_id s apic = (lapicCpu mem apic).elim s fun cpu =>
      registerApicId NR_CPUS boot_cpu_apic_id s cpu.1 cpu.2 := by
  rw [acpiParseLapic, lapicCpu]
  split_ifs <;> simp_all

theorem acpiParseX2apic_eq (s : State) (x2apic : ℕ) :
    acpiParseX2apic mem NR_CPUS boot_cpu_apic_id s x2apic = (x2apicCpu mem x2apic).elim s fun cpu =>
      registerApicId NR_CPUS boot_cpu_apic_id s cpu.1 cpu.2 := by
  rw [acpiParseX2apic, x2apicCpu]
  split_ifs <;> simp_all

/-- No subtable is left out of the walk. -/
theorem Filled.visited_eq (h : Filled mem subtables) :
    visited (tableBytes mem) subtables = subtables := by
  refine List.filter_eq_self.mpr fun p hp => decide_eq_true ?_
  have hle := h.follow.mem_le hp
  have hlength := h.length p hp
  omega

/-- The count of the entries, which is not determined if there are none. -/
def countOf (called : List ℕ) : Option ℤ := if called = [] then none else some called.length

/-- With turns enough, the handler is called on all entries of the type. -/
theorem Filled.parseSubtables_eq (h : Filled mem subtables) (type : ℕ) :
    ∃ turns, ∀ turns' ≥ turns, ∀ handler s, parseSubtables mem turns' type handler s =
      some (countOf (entries (tableBytes mem) type subtables),
        (entries (tableBytes mem) type subtables).foldl handler s) := by
  obtain ⟨turns, hparse⟩ := acpiSubtableParse_visited type succeed h.follow
  rw [h.visited_eq, handled_succeed, List.nil_append, if_pos rfl] at hparse
  refine ⟨turns, fun turns' hle handler s => ?_⟩
  obtain ⟨last, hrun, hlast⟩ := Option.map_eq_some_iff.mp hparse
  rw [parseSubtables, acpiSubtableParse, parseLoop_mono hrun hle, Option.map_some, hlast]
  rfl

theorem bothZero_countOf (called x2called : List ℕ) :
    bothZero (countOf called) (countOf x2called) =
      if called = [] then none else some false := by
  rw [bothZero, countOf]
  by_cases hnone : called = []
  · rw [if_pos hnone, if_pos hnone]
    rfl
  · have hlength : ((called.length : ℕ) : ℤ) ≠ 0 := by simpa using hnone
    rw [if_neg hnone, if_neg hnone, Option.map_some, decide_eq_false hlength]
    rfl

theorem oneNegative_countOf (called x2called : List ℕ) :
    oneNegative (countOf called) (countOf x2called) =
      if called = [] ∨ x2called = [] then none else some false := by
  have hlength (called : List ℕ) : ¬ (called.length : ℤ) < 0 := by omega
  rw [oneNegative, countOf, countOf]
  by_cases hnone : called = []
  · rw [if_pos hnone, if_pos (Or.inl hnone)]
    rfl
  · by_cases hx2none : x2called = []
    · rw [if_neg hnone, if_pos hx2none, if_pos (Or.inr hx2none), Option.map_some,
        decide_eq_false (hlength called)]
      rfl
    · rw [if_neg hnone, if_neg hx2none, if_neg (not_or.mpr ⟨hnone, hx2none⟩), Option.map_some,
        Option.map_some, decide_eq_false (hlength called), decide_eq_false (hlength x2called)]
      rfl

theorem counted_iff : Counted mem subtables ↔
    entries (tableBytes mem) ACPI_MADT_TYPE_LOCAL_APIC subtables ≠ [] ∧
      entries (tableBytes mem) ACPI_MADT_TYPE_LOCAL_X2APIC subtables ≠ [] ∧
      entries (tableBytes mem) ACPI_MADT_TYPE_LOCAL_APIC_NMI subtables ≠ [] ∧
      entries (tableBytes mem) ACPI_MADT_TYPE_LOCAL_X2APIC_NMI subtables ≠ [] := by
  simp only [Counted, List.forall_mem_cons, List.not_mem_nil, false_imp_iff, implies_true,
    and_true]

/-- A handler that does nothing. -/
theorem foldl_keep (handler : State → ℕ → State) (h : ∀ s entry, handler s entry = s)
    (calls : List ℕ) : calls.foldl handler s = s := by
  induction calls with
  | nil => rfl
  | cons entry calls ih => rw [List.foldl_cons, h, ih]

/-- What is returned: success, if it is determined. -/
def lapicResult (mem : ℕ → UInt8) (subtables : List ℕ) : Option ℤ :=
  if Counted mem subtables then some SUCCESS else none

/-- The parse of a table whose subtables have something behind their headers. -/
theorem Filled.acpiParseMadtLapicEntries_eq (h : Filled mem subtables) (s : State) :
    ∃ turns, acpiParseMadtLapicEntries mem NR_CPUS boot_cpu_apic_id turns s =
      some (lapicResult mem subtables,
        registerAll NR_CPUS boot_cpu_apic_id (madtCpus mem subtables) s) := by
  obtain ⟨turns₁, hlapic⟩ := h.parseSubtables_eq ACPI_MADT_TYPE_LOCAL_APIC
  obtain ⟨turns₂, hx2apic⟩ := h.parseSubtables_eq ACPI_MADT_TYPE_LOCAL_X2APIC
  obtain ⟨turns₃, hnmi⟩ := h.parseSubtables_eq ACPI_MADT_TYPE_LOCAL_APIC_NMI
  obtain ⟨turns₄, hx2nmi⟩ := h.parseSubtables_eq ACPI_MADT_TYPE_LOCAL_X2APIC_NMI
  refine ⟨turns₁ + turns₂ + turns₃ + turns₄, ?_⟩
  rw [acpiParseMadtLapicEntries, hlapic _ (by omega), Option.bind_eq_bind, Option.bind_some]
  dsimp only
  rw [hx2apic _ (by omega), Option.bind_some]
  dsimp only
  rw [bothZero_countOf, oneNegative_countOf, foldl_registering acpiParseLapic_eq,
    foldl_registering acpiParseX2apic_eq, ← Apic.registerAll_append, hnmi _ (by omega),
    Option.bind_some]
  dsimp only
  rw [hx2nmi _ (by omega), Option.bind_some, oneNegative_countOf,
    foldl_keep acpiParseLapicNmi fun _ _ => rfl, foldl_keep acpiParseX2apicNmi fun _ _ => rfl,
    ← madtCpus, lapicResult]
  -- the first count that is not determined leaves the function without a result
  by_cases hlapics : entries (tableBytes mem) ACPI_MADT_TYPE_LOCAL_APIC subtables = []
  · rw [if_pos hlapics, if_neg fun hall => (counted_iff.mp hall).1 hlapics]
    rfl
  by_cases hx2apics : entries (tableBytes mem) ACPI_MADT_TYPE_LOCAL_X2APIC subtables = []
  · rw [if_neg hlapics, if_pos (Or.inr hx2apics),
      if_neg fun hall => (counted_iff.mp hall).2.1 hx2apics]
    rfl
  rw [if_neg hlapics, if_neg (not_or.mpr ⟨hlapics, hx2apics⟩)]
  by_cases hnmis : entries (tableBytes mem) ACPI_MADT_TYPE_LOCAL_APIC_NMI subtables = [] ∨
      entries (tableBytes mem) ACPI_MADT_TYPE_LOCAL_X2APIC_NMI subtables = []
  · have hnot : ¬ Counted mem subtables := fun hall =>
      not_or.mpr (counted_iff.mp hall).2.2 hnmis
    rw [if_pos hnmis, if_neg hnot]
    rfl
  · have hall : Counted mem subtables :=
      counted_iff.mpr ⟨hlapics, hx2apics, not_or.mp hnmis⟩
    rw [if_neg hnmis, if_pos hall]
    rfl

end Parse

/-- The parse ends and registers the processors that the table lists. With an APIC id each, the
boot processor among them, all get a number of their own exactly if there is one to spare, or
the boot processor comes last and there are as many as numbers. -/
theorem acpiParseMadtLapicEntries_assigned {mem : ℕ → UInt8} {subtables : List ℕ}
    (h : Filled mem subtables) (NR_CPUS : Int32) {boot_cpu_apic_id : UInt32}
    (hdistinct : ((madtCpus mem subtables).map Prod.fst).Nodup)
    (hboot : boot_cpu_apic_id ∈ (madtCpus mem subtables).map Prod.fst) :
    ∃ turns s,
      acpiParseMadtLapicEntries mem NR_CPUS boot_cpu_apic_id turns .loaded =
        some (lapicResult mem subtables, s) ∧
      s = registerAll NR_CPUS boot_cpu_apic_id (madtCpus mem subtables) .loaded ∧
      ((∃ numbers, Assigned NR_CPUS boot_cpu_apic_id (madtCpus mem subtables) s numbers) ↔
        ((madtCpus mem subtables).length : ℤ) < NR_CPUS.toInt ∨
          ((madtCpus mem subtables).length : ℤ) = NR_CPUS.toInt ∧
            ((madtCpus mem subtables).map Prod.fst).getLast? = some boot_cpu_apic_id) := by
  obtain ⟨turns, hparse⟩ := h.acpiParseMadtLapicEntries_eq .loaded
  exact ⟨turns, _, hparse, rfl, assigned_registerAll hdistinct hboot⟩

/-- The boot processor 2 in front of processor 0x100, which has an x2APIC entry, and a third
one that is disabled. -/
def madtTwo : List UInt8 := madtHeader 76 ++ [0, 8, 7, 2, 1, 0, 0, 0] ++
  [9, 16, 0, 0, 0, 1, 0, 0, 1, 0, 0, 0, 9, 0, 0, 0] ++ [0, 8, 8, 3, 0, 0, 0, 0]

theorem madtTwo_filled : Filled (memoryOf madtTwo) [44, 52, 68] :=
  ⟨.cons (by decide) (.cons (by decide) (.cons (by decide) .nil)), by decide⟩

theorem acpiParseMadtLapicEntries_assigned_two : ∃ turns s,
    acpiParseMadtLapicEntries (memoryOf madtTwo) 16 2 turns .loaded = some (none, s) ∧
      s = registerAll 16 2 [(2, 7), (0x100, 9)] .loaded ∧
      ((∃ numbers, Assigned 16 2 [(2, 7), (0x100, 9)] s numbers) ↔
        (2 : ℤ) < 16 ∨ (2 : ℤ) = 16 ∧ some (0x100 : UInt32) = some 2) :=
  acpiParseMadtLapicEntries_assigned madtTwo_filled 16 (by decide) (by decide)

end Cyanea.Acpi
