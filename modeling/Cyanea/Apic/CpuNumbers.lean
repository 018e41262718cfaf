/-
# The numbers of the CPUs

The model of `register_apic_id` in `arch/x86/ukernel/apic/apic.c`. The boot CPU is number 0,
and the counter of the numbers given starts at 1 for it. It is advanced again when the boot
CPU is registered, so that a CPU that comes later leaves a number out.
-/

import Mathlib.Algebra.Group.Nat.Defs
import Mathlib.Data.List.Range
import Mathlib.Data.List.Nodup
import Mathlib.Logic.Function.Basic
import Mathlib.Tactic.ByContra

namespace Cyanea.Apic

/-- What is logged: a CPU with its number, or a CPU that is dropped. -/
inductive Line
  | info (cpu : Int32) (apic_id acpi_id : UInt32)
  | err (apic_id acpi_id : UInt32)
  deriving DecidableEq

/-- The static data, and the log. The arrays have `NR_CPUS` entries, from index 0 on. -/
structure State where
  nr_assigned_cpus : UInt32
  early_cpuid_to_apic_id : Int32 → UInt32
  early_cpuid_to_acpi_id : Int32 → UInt32
  log : List Line

/-- The image as it is loaded. -/
def State.loaded : State := ⟨1, fun _ => 0, fun _ => 0, []⟩

/-- `NR_CPUS` is an `int`, and the counter is converted to one. -/
def registerApicId (NR_CPUS : Int32) (boot_cpu_apic_id : UInt32) (s : State)
    (apic_id acpi_id : UInt32) : State :=
  let cpu : Int32 := if apic_id = boot_cpu_apic_id then 0 else s.nr_assigned_cpus.toInt32
  if cpu < NR_CPUS then
    { early_cpuid_to_apic_id := Function.update s.early_cpuid_to_apic_id cpu apic_id
      early_cpuid_to_acpi_id := Function.update s.early_cpuid_to_acpi_id cpu acpi_id
      log := s.log ++ [.info cpu apic_id acpi_id]
      nr_assigned_cpus := s.nr_assigned_cpus + 1 }
  else { s with log := s.log ++ [.err apic_id acpi_id] }

/-- The CPUs one after the other, each with its APIC id and its ACPI id. -/
def registerAll (NR_CPUS : Int32) (boot_cpu_apic_id : UInt32) (cpus : List (UInt32 × UInt32))
    (s : State) : State :=
  cpus.foldl (fun s cpu => registerApicId NR_CPUS boot_cpu_apic_id s cpu.1 cpu.2) s

/-! ## What is asked for -/

/-- The line for a CPU that gets the number. -/
def numbered : ℕ × UInt32 × UInt32 → Line
  | (n, apic_id, acpi_id) => .info (Int32.ofNat n) apic_id acpi_id

/-- The ids of the CPU are recorded at the number. -/
def RecordedAt (s : State) (n : ℕ) (cpu : UInt32 × UInt32) : Prop :=
  s.early_cpuid_to_apic_id (Int32.ofNat n) = cpu.1 ∧
    s.early_cpuid_to_acpi_id (Int32.ofNat n) = cpu.2

/-- Each CPU gets its number, and none is dropped: the numbers are those below the count of
the CPUs, each of them once, the boot CPU is 0, and the ids are recorded. -/
structure Numbers (boot_cpu_apic_id : UInt32) (cpus : List (UInt32 × UInt32)) (s : State)
    (numbers : List ℕ) : Prop where
  log_eq : s.log = (numbers.zip cpus).map numbered
  perm : numbers.Perm (List.range cpus.length)
  boot : ∀ n cpu, (n, cpu) ∈ numbers.zip cpus → cpu.1 = boot_cpu_apic_id → n = 0
  recorded : ∀ n cpu, (n, cpu) ∈ numbers.zip cpus → RecordedAt s n cpu

/-! ## One CPU -/

section Step

variable {NR_CPUS : Int32} {boot_cpu_apic_id : UInt32} {s : State} {cpu : UInt32 × UInt32}
  {n m : ℕ}

theorem ofNat_inj (hn : n < 2 ^ 31) (hm : m < 2 ^ 31) (h : Int32.ofNat n = Int32.ofNat m) :
    n = m := by
  have htoInt := congrArg Int32.toInt h
  rw [Int32.toInt_ofNat_of_lt hn, Int32.toInt_ofNat_of_lt hm] at htoInt
  exact Int.ofNat_inj.mp htoInt

theorem numbered_inj {other : UInt32 × UInt32} (hn : n < 2 ^ 31) (hm : m < 2 ^ 31)
    (h : numbered (n, cpu) = numbered (m, other)) : n = m :=
  ofNat_inj hn hm (Line.info.inj h).1

theorem lt_of_lt_nrCpus (h : (n : ℤ) < NR_CPUS.toInt) : n < 2 ^ 31 := by
  have hlt := Int32.toInt_lt NR_CPUS
  omega

theorem ofNat_lt_iff (hn : n < 2 ^ 31) : Int32.ofNat n < NR_CPUS ↔ (n : ℤ) < NR_CPUS.toInt := by
  rw [Int32.lt_iff_toInt_lt, Int32.toInt_ofNat_of_lt hn]

/-- The state after a CPU has got the number. -/
def State.given (s : State) (n : ℕ) (cpu : UInt32 × UInt32) : State where
  early_cpuid_to_apic_id := Function.update s.early_cpuid_to_apic_id (Int32.ofNat n) cpu.1
  early_cpuid_to_acpi_id := Function.update s.early_cpuid_to_acpi_id (Int32.ofNat n) cpu.2
  log := s.log ++ [numbered (n, cpu)]
  nr_assigned_cpus := s.nr_assigned_cpus + 1

theorem recordedAt_given : RecordedAt (s.given n cpu) n cpu :=
  ⟨Function.update_self _ _ _, Function.update_self _ _ _⟩

theorem RecordedAt.given {other : UInt32 × UInt32} (h : RecordedAt s m other) (hm : m < 2 ^ 31)
    (hn : n < 2 ^ 31) (hne : m ≠ n) : RecordedAt (s.given n cpu) m other := by
  have hindex : Int32.ofNat m ≠ Int32.ofNat n := fun heq => hne (ofNat_inj hm hn heq)
  exact ⟨(Function.update_of_ne hindex _ _).trans h.1, (Function.update_of_ne hindex _ _).trans h.2⟩

/-- A CPU other than the boot CPU gets the number that the counter has. -/
theorem registerApicId_other (hcpu : cpu.1 ≠ boot_cpu_apic_id)
    (hcount : s.nr_assigned_cpus = UInt32.ofNat n) (hn : (n : ℤ) < NR_CPUS.toInt) :
    registerApicId NR_CPUS boot_cpu_apic_id s cpu.1 cpu.2 = s.given n cpu := by
  have hlt : Int32.ofNat n < NR_CPUS := (ofNat_lt_iff (lt_of_lt_nrCpus hn)).mpr hn
  rw [registerApicId, if_neg hcpu, hcount, UInt32.toInt32_ofNat', if_pos hlt, State.given, hcount]
  rfl

theorem registerApicId_boot (hcpu : cpu.1 = boot_cpu_apic_id) (hpos : 0 < NR_CPUS.toInt) :
    registerApicId NR_CPUS boot_cpu_apic_id s cpu.1 cpu.2 = s.given 0 cpu := by
  have hlt : Int32.ofNat 0 < NR_CPUS := (ofNat_lt_iff (by decide)).mpr hpos
  rw [registerApicId, if_pos hcpu]
  exact if_pos hlt

/-- No number is left for the CPU. -/
theorem registerApicId_dropped (hcpu : cpu.1 ≠ boot_cpu_apic_id)
    (hcount : s.nr_assigned_cpus = UInt32.ofNat n) (hn : n < 2 ^ 31)
    (hle : NR_CPUS.toInt ≤ n) :
    registerApicId NR_CPUS boot_cpu_apic_id s cpu.1 cpu.2 =
      { s with log := s.log ++ [.err cpu.1 cpu.2] } := by
  have hnot : ¬ Int32.ofNat n < NR_CPUS := fun h => by
    have := (ofNat_lt_iff hn).mp h
    omega
  rw [registerApicId, if_neg hcpu, hcount, UInt32.toInt32_ofNat', if_neg hnot]

end Step

/-! ## CPUs other than the boot CPU -/

section Others

variable {NR_CPUS : Int32} {boot_cpu_apic_id : UInt32} {s : State}
  {cpus : List (UInt32 × UInt32)} {n : ℕ}

theorem registerAll_cons (cpu : UInt32 × UInt32) : registerAll NR_CPUS boot_cpu_apic_id
    (cpu :: cpus) s = registerAll NR_CPUS boot_cpu_apic_id cpus
      (registerApicId NR_CPUS boot_cpu_apic_id s cpu.1 cpu.2) := rfl

theorem registerAll_append (before : List (UInt32 × UInt32)) :
    registerAll NR_CPUS boot_cpu_apic_id (before ++ cpus) s =
      registerAll NR_CPUS boot_cpu_apic_id cpus (registerAll NR_CPUS boot_cpu_apic_id before s) :=
  List.foldl_append

/-- The CPUs got the numbers from `n` on, and the numbers below keep what they have. -/
structure Given (n : ℕ) (cpus : List (UInt32 × UInt32)) (s s' : State) : Prop where
  count : s'.nr_assigned_cpus = UInt32.ofNat (n + cpus.length)
  log_eq : s'.log = s.log ++ ((List.range' n cpus.length).zip cpus).map numbered
  recorded : ∀ m cpu, (m, cpu) ∈ (List.range' n cpus.length).zip cpus → RecordedAt s' m cpu
  kept : ∀ m cpu, m < n → RecordedAt s m cpu → RecordedAt s' m cpu

theorem Given.cons {cpu : UInt32 × UInt32} {s' : State} (hn : n < 2 ^ 31)
    (h : Given (n + 1) cpus (s.given n cpu) s') : Given n (cpu :: cpus) s s' where
  count := by rw [h.count, List.length_cons, Nat.add_right_comm, Nat.add_assoc]
  log_eq := by
    rw [h.log_eq, List.length_cons, List.range'_succ, List.zip_cons_cons, List.map_cons,
      State.given, List.append_assoc, List.singleton_append]
  recorded m other hmem := by
    rw [List.length_cons, List.range'_succ, List.zip_cons_cons, List.mem_cons] at hmem
    obtain heq | hmem := hmem
    · obtain ⟨rfl, rfl⟩ := Prod.mk.inj heq
      exact h.kept m other (Nat.lt_succ_self m) recordedAt_given
    · exact h.recorded m other hmem
  kept m other hm hrecorded :=
    h.kept m other (hm.trans (Nat.lt_succ_self n))
      (hrecorded.given (hm.trans hn) hn (Nat.ne_of_lt hm))

theorem given_registerAll (hcpus : ∀ cpu ∈ cpus, cpu.1 ≠ boot_cpu_apic_id)
    (hcount : s.nr_assigned_cpus = UInt32.ofNat n)
    (hle : ((n + cpus.length : ℕ) : ℤ) ≤ NR_CPUS.toInt) :
    Given n cpus s (registerAll NR_CPUS boot_cpu_apic_id cpus s) := by
  induction cpus generalizing n s with
  | nil => exact ⟨hcount, (List.append_nil _).symm, by simp, fun _ _ _ h => h⟩
  | cons cpu cpus ih =>
      rw [List.length_cons] at hle
      have hlt : (n : ℤ) < NR_CPUS.toInt := by omega
      have hnext : (s.given n cpu).nr_assigned_cpus = UInt32.ofNat (n + 1) := by
        rw [State.given, hcount, UInt32.ofNat_add]
        rfl
      rw [registerAll_cons, registerApicId_other (hcpus cpu List.mem_cons_self) hcount hlt]
      exact (ih (fun other hmem => hcpus other (List.mem_cons_of_mem _ hmem)) hnext
        (by omega)).cons (lt_of_lt_nrCpus hlt)

/-- The line does not give a number below `n`. -/
def Line.Above (n : ℕ) : Line → Prop
  | .info cpu _ _ => n ≤ cpu.toInt
  | .err _ _ => True

theorem Line.Above.mono {m : ℕ} {line : Line} (h : line.Above n) (hle : m ≤ n) : line.Above m := by
  cases line with
  | info cpu apic_id acpi_id =>
      have habove : (n : ℤ) ≤ cpu.toInt := h
      exact Int.le_trans (Int.ofNat_le.mpr hle) habove
  | err apic_id acpi_id => trivial

/-- No number below the counter is given, whether CPUs are dropped or not. -/
theorem above_of_mem_log (hcpus : ∀ cpu ∈ cpus, cpu.1 ≠ boot_cpu_apic_id)
    (hcount : s.nr_assigned_cpus = UInt32.ofNat n)
    (hle : ((n + cpus.length : ℕ) : ℤ) ≤ NR_CPUS.toInt + 1) {line : Line}
    (hline : line ∈ (registerAll NR_CPUS boot_cpu_apic_id cpus s).log) :
    line ∈ s.log ∨ line.Above n := by
  induction cpus generalizing n s with
  | nil => exact .inl hline
  | cons cpu cpus ih =>
      rw [List.length_cons] at hle
      have hNR := Int32.toInt_lt NR_CPUS
      have hcpu := hcpus cpu List.mem_cons_self
      have hrest : ∀ other ∈ cpus, other.1 ≠ boot_cpu_apic_id := fun other hmem =>
        hcpus other (List.mem_cons_of_mem _ hmem)
      have hn : n < 2 ^ 31 := by omega
      rw [registerAll_cons] at hline
      by_cases hlt : (n : ℤ) < NR_CPUS.toInt
      · rw [registerApicId_other hcpu hcount hlt] at hline
        have hnext : (s.given n cpu).nr_assigned_cpus = UInt32.ofNat (n + 1) := by
          rw [State.given, hcount, UInt32.ofNat_add]
          rfl
        obtain hmem | habove := ih hrest hnext (by omega) hline
        · rw [State.given, List.mem_append, List.mem_singleton] at hmem
          refine hmem.imp_right ?_
          rintro rfl
          exact Int.le_of_eq (Int32.toInt_ofNat_of_lt hn).symm
        · exact .inr (habove.mono (Nat.le_succ n))
      · rw [registerApicId_dropped hcpu hcount hn (Int.not_lt.mp hlt)] at hline
        obtain hmem | habove := ih hrest (by exact hcount) (by omega) hline
        · rw [List.mem_append, List.mem_singleton] at hmem
          refine hmem.imp_right ?_
          rintro rfl
          trivial
        · exact .inr habove

end Others

/-! ## The whole list -/

section Whole

variable {NR_CPUS : Int32} {boot_cpu_apic_id : UInt32} {before rest : List (UInt32 × UInt32)}
  {cpu : UInt32 × UInt32}

variable (rest) in
/-- The state after the boot CPU and those in front of it. -/
theorem registerAll_boot (hbefore : ∀ other ∈ before, other.1 ≠ boot_cpu_apic_id)
    (hcpu : cpu.1 = boot_cpu_apic_id)
    (hle : ((1 + before.length : ℕ) : ℤ) ≤ NR_CPUS.toInt) :
    ∃ s, Given 1 before .loaded s ∧
      registerAll NR_CPUS boot_cpu_apic_id (before ++ cpu :: rest) .loaded =
        registerAll NR_CPUS boot_cpu_apic_id rest (s.given 0 cpu) := by
  refine ⟨_, given_registerAll hbefore rfl hle, ?_⟩
  rw [registerAll_append, registerAll_cons, registerApicId_boot hcpu (by omega)]

/-- If the boot CPU is the last one, all get their numbers. -/
theorem numbers_of_last (hbefore : ∀ other ∈ before, other.1 ≠ boot_cpu_apic_id)
    (hcpu : cpu.1 = boot_cpu_apic_id)
    (hle : ((1 + before.length : ℕ) : ℤ) ≤ NR_CPUS.toInt) :
    Numbers boot_cpu_apic_id (before ++ [cpu])
      (registerAll NR_CPUS boot_cpu_apic_id (before ++ [cpu]) .loaded)
      (List.range' 1 before.length ++ [0]) := by
  obtain ⟨s, hgiven, heq⟩ := registerAll_boot [] hbefore hcpu hle
  have hNR := Int32.toInt_lt NR_CPUS
  have hzip : (List.range' 1 before.length ++ [0]).zip (before ++ [cpu]) =
      (List.range' 1 before.length).zip before ++ [(0, cpu)] :=
    List.zip_append List.length_range'
  rw [heq]
  refine ⟨?_, ?_, fun n other hmem hother => ?_, fun n other hmem => ?_⟩
  · rw [hzip, List.map_append, List.map_singleton]
    exact congrArg (· ++ [numbered (0, cpu)]) hgiven.log_eq
  · rw [List.length_append, List.length_singleton, List.range_eq_range', List.range'_succ]
    exact List.perm_append_singleton 0 _
  · rw [hzip, List.mem_append, List.mem_singleton] at hmem
    obtain hmem | heq := hmem
    · exact absurd hother (hbefore other (List.of_mem_zip hmem).2)
    · exact congrArg Prod.fst heq
  · rw [hzip, List.mem_append, List.mem_singleton] at hmem
    obtain hmem | heq := hmem
    · have hn := List.mem_range'_1.mp (List.of_mem_zip hmem).1
      exact (hgiven.recorded n other hmem).given (by omega) (by decide) (by omega)
    · obtain ⟨rfl, rfl⟩ := Prod.mk.inj heq
      exact recordedAt_given

/-- If it is not, the number behind those in front of it is left out. -/
theorem not_numbers_of_rest (hbefore : ∀ other ∈ before, other.1 ≠ boot_cpu_apic_id)
    (hcpu : cpu.1 = boot_cpu_apic_id) (hrest : ∀ other ∈ rest, other.1 ≠ boot_cpu_apic_id)
    (hne : rest ≠ []) (hle : ((before ++ cpu :: rest).length : ℤ) ≤ NR_CPUS.toInt)
    (numbers : List ℕ) :
    ¬ Numbers boot_cpu_apic_id (before ++ cpu :: rest)
      (registerAll NR_CPUS boot_cpu_apic_id (before ++ cpu :: rest) .loaded) numbers := by
  intro h
  have hNR := Int32.toInt_lt NR_CPUS
  have hpos := List.length_pos_iff.mpr hne
  have hlength : numbers.length = (before ++ cpu :: rest).length := by
    rw [h.perm.length_eq, List.length_range]
  rw [List.length_append, List.length_cons] at hle
  have hroom : ((1 + before.length : ℕ) : ℤ) ≤ NR_CPUS.toInt := by omega
  obtain ⟨s, hgiven, heq⟩ := registerAll_boot rest hbefore hcpu hroom
  have hused : 1 + before.length ∈ numbers := by
    rw [h.perm.mem_iff, List.mem_range, List.length_append, List.length_cons]
    omega
  rw [← List.map_fst_zip hlength.le] at hused
  obtain ⟨⟨n, other⟩, hother, rfl⟩ := List.mem_map.mp hused
  have hline : numbered (1 + before.length, other) ∈
      (registerAll NR_CPUS boot_cpu_apic_id rest (s.given 0 cpu)).log := by
    rw [← heq, h.log_eq]
    exact List.mem_map_of_mem hother
  have hcount : (s.given 0 cpu).nr_assigned_cpus = UInt32.ofNat (1 + before.length + 1) := by
    rw [State.given, hgiven.count, UInt32.ofNat_add (1 + before.length)]
    rfl
  obtain hmem | habove := above_of_mem_log hrest hcount (by omega) hline
  · rw [State.given, List.mem_append, List.mem_singleton, hgiven.log_eq, List.mem_append,
      List.mem_map] at hmem
    obtain (hloaded | ⟨⟨m, given⟩, hmem, heq⟩) | heq := hmem
    · exact absurd hloaded List.not_mem_nil
    · have hm := List.mem_range'_1.mp (List.of_mem_zip hmem).1
      have hsame := numbered_inj (by omega) (by omega) heq
      omega
    · have hsame := numbered_inj (by omega) (by decide) heq
      omega
  · have hle' : ((1 + before.length + 1 : ℕ) : ℤ) ≤ (Int32.ofNat (1 + before.length)).toInt := habove
    rw [Int32.toInt_ofNat_of_lt (by omega)] at hle'
    omega

/-- The boot CPU among others with other ids. -/
theorem exists_around {cpus : List (UInt32 × UInt32)} (hdistinct : (cpus.map Prod.fst).Nodup)
    (hboot : boot_cpu_apic_id ∈ cpus.map Prod.fst) :
    ∃ before cpu rest, cpus = before ++ cpu :: rest ∧ cpu.1 = boot_cpu_apic_id ∧
      (∀ other ∈ before, other.1 ≠ boot_cpu_apic_id) ∧
      ∀ other ∈ rest, other.1 ≠ boot_cpu_apic_id := by
  obtain ⟨cpu, hcpu, rfl⟩ := List.mem_map.mp hboot
  obtain ⟨before, rest, rfl⟩ := List.append_of_mem hcpu
  rw [List.map_append, List.map_cons, List.nodup_append, List.nodup_cons] at hdistinct
  obtain ⟨-, ⟨hnot, -⟩, hdiffer⟩ := hdistinct
  refine ⟨before, cpu, rest, rfl, rfl, fun other hmem => ?_, fun other hmem hother => ?_⟩
  · exact hdiffer _ (List.mem_map_of_mem hmem) _ List.mem_cons_self
  · exact hnot (hother ▸ List.mem_map_of_mem hmem)

theorem getLast?_around (hcpu : cpu.1 = boot_cpu_apic_id)
    (hrest : ∀ other ∈ rest, other.1 ≠ boot_cpu_apic_id) :
    ((before ++ cpu :: rest).map Prod.fst).getLast? = some boot_cpu_apic_id ↔ rest = [] := by
  constructor
  · intro hlast
    by_contra hne
    rw [List.append_cons, List.map_append, List.getLast?_append,
      List.getLast?_eq_some_getLast (List.map_eq_nil_iff.not.mpr hne), Option.some_or] at hlast
    have hmem : boot_cpu_apic_id ∈ rest.map Prod.fst :=
      Option.some.inj hlast ▸ List.getLast_mem _
    obtain ⟨other, hother, heq⟩ := List.mem_map.mp hmem
    exact hrest other hother heq
  · rintro rfl
    rw [List.map_append, List.map_singleton, List.getLast?_concat, hcpu]

/-- The CPUs get their numbers exactly if the boot CPU is registered after all others. -/
theorem registerAll_numbers_iff (NR_CPUS : Int32) (boot_cpu_apic_id : UInt32)
    (cpus : List (UInt32 × UInt32)) (hdistinct : (cpus.map Prod.fst).Nodup)
    (hboot : boot_cpu_apic_id ∈ cpus.map Prod.fst) (hle : (cpus.length : ℤ) ≤ NR_CPUS.toInt) :
    (∃ numbers, Numbers boot_cpu_apic_id cpus
        (registerAll NR_CPUS boot_cpu_apic_id cpus .loaded) numbers) ↔
      (cpus.map Prod.fst).getLast? = some boot_cpu_apic_id := by
  obtain ⟨before, cpu, rest, rfl, hcpu, hbefore, hrest⟩ := exists_around hdistinct hboot
  rw [getLast?_around hcpu hrest]
  constructor
  · rintro ⟨numbers, h⟩
    by_contra hne
    exact not_numbers_of_rest hbefore hcpu hrest hne hle numbers h
  · rintro rfl
    rw [List.length_append, List.length_singleton] at hle
    exact ⟨_, numbers_of_last hbefore hcpu (by omega)⟩

end Whole

/-- Three CPUs, the boot CPU behind the others. -/
def bootLast : List (UInt32 × UInt32) := [(0, 1), (2, 3), (4, 5)]

theorem registerAll_numbers_iff_bootLast :
    (∃ numbers, Numbers 4 bootLast (registerAll 16 4 bootLast .loaded) numbers) ↔
      (bootLast.map Prod.fst).getLast? = some 4 :=
  registerAll_numbers_iff 16 4 bootLast (by decide) (by decide) (by decide)

/-- The boot CPU comes first of two: number 1 is left out. -/
theorem not_numbers_bootFirst : (registerAll 16 0 [(0, 1), (2, 3)] .loaded).log =
      [.info 0 0 1, .info 2 2 3] ∧
    ¬ ∃ numbers, Numbers 0 [(0, 1), (2, 3)] (registerAll 16 0 [(0, 1), (2, 3)] .loaded) numbers := by
  refine ⟨rfl, ?_⟩
  rintro ⟨numbers, h⟩
  have hnone : ∀ other ∈ ([] : List (UInt32 × UInt32)), other.1 ≠ 0 := by simp
  have hrest : ∀ other ∈ ([(2, 3)] : List (UInt32 × UInt32)), other.1 ≠ 0 := by simp
  exact not_numbers_of_rest hnone rfl hrest (by decide) (by decide) numbers h

end Cyanea.Apic
