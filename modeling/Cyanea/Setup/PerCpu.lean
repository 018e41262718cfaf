/-
# The areas of the processors

`setup_per_cpu_areas` gives each processor a copy of the per-CPU variables. The boot processor has
used the ones in the image until then; the copy that it goes over to holds what they hold, but for
the variables that say where the area is and which processor it belongs to.
-/

import Cyanea.Setup.Arch
import Cyanea.X86.VirtualMemory

namespace Cyanea.Setup

open Memory hiding PAGE_SIZE
open Mm X86
open Efi (EfiInfo EfiMemoryDesc WellFormed descs usable)
open Cyanea.Math (Ends)

/-! ## The image of the variables -/

/-- `GDT_ENTRIES`, each of eight bytes. -/
def GDT_SIZE : ℕ := 12 * 8

/-- The section `.data..percpu`, which begins at zero, and where some of its variables are. -/
structure PerCpuImage extends LoadedImage where
  per_cpu_load : ℕ
  static_size : ℕ
  this_cpu_off : ℕ
  cpu_number : ℕ
  cpuid_to_apic_id : ℕ
  cpuid_to_acpi_id : ℕ
  gdt_page : ℕ
  NR_CPUS : ℕ
  cpus_lt : NR_CPUS < 2 ^ 31
  load_from : text ≤ per_cpu_load
  load_to : per_cpu_load + static_size ≤ end_of_kernel_reserve
  vars_inside : ∀ b ∈ [Block.mk this_cpu_off 8, ⟨cpu_number, 4⟩, ⟨cpuid_to_apic_id, 4⟩,
    ⟨cpuid_to_acpi_id, 4⟩, ⟨gdt_page, GDT_SIZE⟩], b.base + b.size ≤ static_size
  vars_apart : [Block.mk this_cpu_off 8, ⟨cpu_number, 4⟩, ⟨cpuid_to_apic_id, 4⟩,
    ⟨cpuid_to_acpi_id, 4⟩, ⟨gdt_page, GDT_SIZE⟩].Pairwise Block.Disjoint

/-- How `setup_per_cpu_areas` ends without returning. -/
inductive AreaStop where
  | memblock (fault : Memory.Fault)
  /-- `assert(paddr, "cannot initialize per-CPU area.")` -/
  | assertion
  | access (fault : PageFault)
  | outOfBounds (cpu : ℕ)
  deriving DecidableEq, Repr

/-- What `setup_per_cpu_areas` changes: the table of the allocator, the memory, the array
`__per_cpu_offset`, and the registers of the boot processor. -/
structure Processors where
  memory : Memblock
  mem : ℕ → UInt8
  per_cpu_offset : ℕ → ℕ
  gdt : ℕ
  gs_base : ℕ

/-- `early_cpuid_to_apic_id` and `early_cpuid_to_acpi_id`. -/
structure EarlyIds where
  apic : ℕ → UInt32
  acpi : ℕ → UInt32

/-- A variable of an area with the number that it gets. -/
structure Assignment where
  var : Block
  value : ℕ

/-- `per_cpu(var, cpu) = value`, one after the other. -/
def assign (tr : ℕ → Option ℕ) (offset : ℕ) : List Assignment → (ℕ → UInt8) →
    Except PageFault (ℕ → UInt8)
  | [], mem => .ok mem
  | w :: ws, mem => do
      let mem ← storeLe tr (add64 w.var.base offset) w.var.size w.value mem
      assign tr offset ws mem

namespace PerCpuImage

variable (k : PerCpuImage)

/-- What a processor finds in its own area, in the order in which it is written. -/
def own (ids : EarlyIds) (cpu offset : ℕ) : List Assignment :=
  [⟨⟨k.this_cpu_off, 8⟩, offset⟩, ⟨⟨k.cpu_number, 4⟩, cpu⟩,
    ⟨⟨k.cpuid_to_apic_id, 4⟩, (ids.apic cpu).toNat⟩,
    ⟨⟨k.cpuid_to_acpi_id, 4⟩, (ids.acpi cpu).toNat⟩]

/-- `switch_gdt_and_percpu_base`. -/
def switchGdtAndPercpuBase (cpu : ℕ) (s : Processors) : Processors :=
  { s with
    gdt := add64 k.gdt_page (s.per_cpu_offset cpu)
    gs_base := s.per_cpu_offset cpu }

/-- The body of the loop of `setup_per_cpu_areas`. -/
def setupArea (tr : ℕ → Option ℕ) (ids : EarlyIds) (behind : Option MemblockRegion) (cpu : ℕ)
    (s : Processors) : Except AreaStop Processors := do
  let (memory, paddr) ← (memblockAlloc behind s.memory k.static_size PAGE_SIZE 0 (2 ^ 64 - 1) (-1)
    false).mapError .memblock
  if paddr = 0 then
    throw .assertion
  let mem ← (copyBytes tr (va paddr) k.per_cpu_load k.static_size s.mem).mapError .access
  if k.NR_CPUS ≤ cpu then
    throw (.outOfBounds cpu)
  let per_cpu_offset := Function.update s.per_cpu_offset cpu (va paddr)
  let mem ← (assign tr (per_cpu_offset cpu) (k.own ids cpu (per_cpu_offset cpu)) mem).mapError
    .access
  let s := { s with memory, mem, per_cpu_offset }
  return if cpu = 0 then k.switchGdtAndPercpuBase cpu s else s

/-- The loop, from the processor `cpu` on. -/
def areaLoop (tr : ℕ → Option ℕ) (ids : EarlyIds) (behind : ℕ → Option MemblockRegion) :
    (turns cpu : ℕ) → Processors → Except AreaStop Processors
  | 0, _, s => .ok s
  | turns + 1, cpu, s => do
      let s ← k.setupArea tr ids (behind cpu) cpu s
      areaLoop tr ids behind turns (cpu + 1) s

/-- `setup_per_cpu_areas`. -/
def setupPerCpuAreas (tr : ℕ → Option ℕ) (ids : EarlyIds) (behind : ℕ → Option MemblockRegion)
    (nr_cpu_ids : ℕ) (s : Processors) : Except AreaStop Processors :=
  k.areaLoop tr ids behind nr_cpu_ids 0 s

end PerCpuImage

/-! ## Assignments -/

section Assign

variable {tr : ℕ → Option ℕ} {offset p n : ℕ} {ws : List Assignment}

/-- Each variable holds its number, and what lies between the variables is as before. -/
structure Assigned (p : ℕ) (ws : List Assignment) (mem mem' : ℕ → UInt8) : Prop where
  own : ∀ w ∈ ws, ∀ i < w.var.size, mem' (p + w.var.base + i) = leByte w.value i
  rest : ∀ a, (∀ w ∈ ws, ¬ Block.Has ⟨p + w.var.base, w.var.size⟩ a) → mem' a = mem a

theorem assign_eq (mem : ℕ → UInt8) (hshown : Shows tr offset p n) (hend : offset + n ≤ 2 ^ 64)
    (hinside : ∀ w ∈ ws, w.var.base + w.var.size ≤ n)
    (hapart : ws.Pairwise fun w w' => w.var.Disjoint w'.var) (hpos : ∀ w ∈ ws, 0 < w.var.size) :
    ∃ mem', assign tr offset ws mem = .ok mem' ∧ Assigned p ws mem mem' := by
  induction ws generalizing mem with
  | nil => exact ⟨mem, rfl, nofun, fun _ _ => rfl⟩
  | cons w ws ih =>
      obtain ⟨hw, hinside⟩ := List.forall_mem_cons.mp hinside
      obtain ⟨hsize, hpos⟩ := List.forall_mem_cons.mp hpos
      obtain ⟨hothers, hapart⟩ := List.pairwise_cons.mp hapart
      have haddress : add64 w.var.base offset = offset + w.var.base := by
        rw [add64]
        omega
      obtain ⟨mem', hok, hown, hrest⟩ :=
        ih (blit mem (p + w.var.base) w.var.size (leByte w.value)) hinside hapart hpos
      refine ⟨mem', ?_, ?_, fun a ha => ?_⟩
      · rw [assign, haddress, storeLe_eq (hshown.part hw)]
        exact hok
      · refine List.forall_mem_cons.mpr ⟨fun i hi => ?_, hown⟩
        rw [hrest, blit_inside hi]
        intro w' hw' hin
        have hdisjoint := hothers w' hw' (w.var.base + i) ⟨Nat.le_add_right _ _, by omega⟩
        obtain ⟨hlo, hhi⟩ := hin
        dsimp only at hlo hhi
        exact hdisjoint ⟨by omega, by omega⟩
      · obtain ⟨hfirst, ha⟩ := List.forall_mem_cons.mp ha
        rw [hrest a ha, blit_outside hfirst]

end Assign

/-! ## One area -/

namespace PerCpuImage

variable {k : PerCpuImage} {ram : Set ℕ} {held : List Block} {nid : ℤ} {n : ℕ} {t : InitTables}
  {ids : EarlyIds}

/-- Where the variables of the image are in memory. -/
def template (k : PerCpuImage) : ℕ := k.frame k.load k.per_cpu_load

theorem template_inside (k : PerCpuImage) {i : ℕ} (hi : i < k.static_size) :
    k.imageBlock.Has (k.template + i) := by
  have hfrom := k.load_from
  have hto := k.load_to
  rw [template, Kernel.frame]
  show k.load ≤ _ ∧ _ < k.load + (k.end_of_kernel_reserve - k.text)
  omega

theorem static_size_pos (k : PerCpuImage) : 0 < k.static_size := by
  have hle := k.vars_inside _ List.mem_cons_self
  dsimp only at hle
  omega

/-- The translation shows the memory where the direct mapping does, and the image where it is
linked. -/
structure Addressed (k : PerCpuImage) (ram : Set ℕ) (t : InitTables) : Prop where
  shows : ShowsMemory k.image t ram
  image : ∀ o < k.kernelEnd - k.text, k.image.walk t (k.text + o) = some (k.load + o)
  low : ∀ a ∈ ram, a + 1 < DIRECT_SIZE

theorem Addressed.template (h : k.Addressed ram t) :
    Shows (k.image.walk t) k.per_cpu_load k.template k.static_size := by
  obtain ⟨-, hend⟩ := k.reserve_bounds
  have hfrom := k.load_from
  have hto := k.load_to
  intro i hi
  have himage := h.image (k.per_cpu_load - k.text + i) (by omega)
  rwa [← Nat.add_assoc, Nat.add_sub_cancel' hfrom, ← Nat.add_assoc] at himage

theorem Addressed.area (h : k.Addressed ram t) {p : ℕ}
    (hp : ∀ a, Block.Has ⟨p, k.static_size⟩ a → a ∈ ram) :
    p < DIRECT_SIZE ∧ va p + k.static_size ≤ 2 ^ 64 ∧
      Shows (k.image.walk t) (va p) p k.static_size := by
  have hpos := k.static_size_pos
  have hlast := h.low _ (hp (p + k.static_size - 1) ⟨by dsimp only; omega, by dsimp only; omega⟩)
  rw [DIRECT_SIZE_eq] at hlast ⊢
  have hva : ∀ i < k.static_size, va (p + i) = va p + i := by
    intro i hi
    rw [va_eq (by omega), va_eq (by omega), Nat.add_assoc]
  refine ⟨by omega, ?_, fun i hi => ?_⟩
  · rw [va_eq (by omega), PAGE_OFFSET_eq]
    omega
  · rw [← hva i hi]
    exact h.shows.maps _ (hp _ ⟨Nat.le_add_right p i, by dsimp only; omega⟩)

/-- An area in memory: its own variables hold its numbers, and the others what the image holds. -/
structure AreaOf (k : PerCpuImage) (ids : EarlyIds) (cpu p : ℕ) (image mem : ℕ → UInt8) : Prop where
  own : ∀ w ∈ k.own ids cpu (va p), ∀ i < w.var.size, mem (p + w.var.base + i) = leByte w.value i
  rest : ∀ i < k.static_size, (∀ w ∈ k.own ids cpu (va p), ¬ w.var.Has i) → mem (p + i) = image i

theorem own_inside (offset : ℕ) {cpu : ℕ} :
    ∀ w ∈ k.own ids cpu offset, w.var.base + w.var.size ≤ k.static_size := by
  have hinside := k.vars_inside
  simp only [List.forall_mem_cons] at hinside
  simp only [own, List.forall_mem_cons]
  exact ⟨hinside.1, hinside.2.1, hinside.2.2.1, hinside.2.2.2.1, nofun⟩

theorem own_pos {cpu offset : ℕ} : ∀ w ∈ k.own ids cpu offset, 0 < w.var.size := by
  simp [own]

theorem gdt_inside (k : PerCpuImage) : k.gdt_page + GDT_SIZE ≤ k.static_size :=
  k.vars_inside ⟨k.gdt_page, GDT_SIZE⟩ (by simp)

/-- No processor's own variable is in the GDT. -/
theorem gdt_apart (offset : ℕ) {cpu i : ℕ} (hi : i < GDT_SIZE) :
    ∀ w ∈ k.own ids cpu offset, ¬ w.var.Has (k.gdt_page + i) := by
  have hvars := k.vars_apart
  simp only [List.pairwise_cons, List.forall_mem_cons] at hvars
  obtain ⟨⟨-, -, -, h₁, -⟩, ⟨-, -, h₂, -⟩, ⟨-, h₃, -⟩, ⟨h₄, -⟩, -⟩ := hvars
  have hin : Block.Has ⟨k.gdt_page, GDT_SIZE⟩ (k.gdt_page + i) :=
    ⟨Nat.le_add_right _ _, Nat.add_lt_add_left hi _⟩
  simp only [own, List.forall_mem_cons]
  exact ⟨fun h => h₁ _ h hin, fun h => h₂ _ h hin, fun h => h₃ _ h hin, fun h => h₄ _ h hin, nofun⟩

theorem AreaOf.congr {cpu p : ℕ} {image mem mem' : ℕ → UInt8} (h : k.AreaOf ids cpu p image mem)
    (hmem : ∀ a, Block.Has ⟨p, k.static_size⟩ a → mem' a = mem a) :
    k.AreaOf ids cpu p image mem' where
  own w hw i hi := by
    have hinside := own_inside _ w hw
    rw [hmem _ ⟨by dsimp only; omega, by dsimp only; omega⟩, h.own w hw i hi]
  rest i hi hnone := by
    rw [hmem _ ⟨Nat.le_add_right p i, by dsimp only; omega⟩, h.rest i hi hnone]

/-- The copy and the assignments fill an area and nothing else. -/
theorem fill_area (h : k.Addressed ram t) (himage : k.imageBlock ∈ held) {p : ℕ} (cpu : ℕ)
    (htaken : Taken ram held k.static_size PAGE_SIZE 0 (2 ^ 64 - 1) p) (mem : ℕ → UInt8) :
    ∃ mem₁ mem₂, copyBytes (k.image.walk t) (va p) k.per_cpu_load k.static_size mem = .ok mem₁ ∧
      assign (k.image.walk t) (va p) (k.own ids cpu (va p)) mem₁ = .ok mem₂ ∧
      k.AreaOf ids cpu p (fun i => mem (k.template + i)) mem₂ ∧
      ∀ a, ¬ Block.Has ⟨p, k.static_size⟩ a → mem₂ a = mem a := by
  obtain ⟨-, hend, hshown⟩ := h.area htaken.memory
  have happart : ∀ a, p ≤ a → a < p + k.static_size →
      ¬ (k.template ≤ a ∧ a < k.template + k.static_size) := by
    intro a hlo hhi hin
    have himageHas := k.template_inside (show a - k.template < k.static_size by omega)
    rw [Nat.add_sub_cancel' hin.1] at himageHas
    exact htaken.apart _ himage a ⟨hlo, hhi⟩ himageHas
  have hcopy : copyBytes (k.image.walk t) (va p) k.per_cpu_load k.static_size mem =
      .ok (blit mem p k.static_size fun i => mem (k.template + i)) :=
    copyBytes_eq hshown h.template happart
  have hapart : (k.own ids cpu (va p)).Pairwise fun w w' => w.var.Disjoint w'.var := by
    have hvars := k.vars_apart
    simp only [List.pairwise_cons, List.forall_mem_cons] at hvars
    simp only [own, List.pairwise_cons, List.forall_mem_cons]
    obtain ⟨⟨h12, h13, h14, -⟩, ⟨h23, h24, -⟩, ⟨h34, -⟩, -⟩ := hvars
    exact ⟨⟨h12, h13, h14, nofun⟩, ⟨h23, h24, nofun⟩, ⟨h34, nofun⟩, nofun, .nil⟩
  obtain ⟨mem₂, hassign, hown, hrest⟩ := assign_eq (blit mem p k.static_size fun i =>
    mem (k.template + i)) hshown hend (own_inside (va p)) hapart own_pos
  refine ⟨_, mem₂, hcopy, hassign, ⟨hown, fun i hi hnone => ?_⟩, fun a ha => ?_⟩
  · rw [hrest, blit_inside hi]
    intro w hw hin
    obtain ⟨hlo, hhi⟩ := hin
    dsimp only at hlo hhi
    exact hnone w hw ⟨by omega, by omega⟩
  · rw [hrest, blit_outside ha]
    intro w hw hin
    obtain ⟨hlo, hhi⟩ := hin
    have hinside := own_inside _ w hw
    dsimp only at hlo hhi
    exact ha ⟨by dsimp only; omega, by dsimp only; omega⟩

/-! ## All areas -/

/-- The area of a processor is where its entry of `__per_cpu_offset` points. -/
def area (k : PerCpuImage) (s : Processors) (cpu : ℕ) : Block :=
  ⟨s.per_cpu_offset cpu - PAGE_OFFSET, k.static_size⟩

/-- The areas of the first processors. -/
def areas (k : PerCpuImage) (s : Processors) : ℕ → List Block
  | 0 => []
  | cpu + 1 => k.area s cpu :: areas k s cpu

/-- The first processors have their areas. -/
structure Areas (k : PerCpuImage) (ram : Set ℕ) (held : List Block) (nid : ℤ) (n : ℕ)
    (ids : EarlyIds) (s₀ : Processors) (cpu : ℕ) (s : Processors) : Prop where
  record : Keeps ram (k.areas s cpu ++ held) nid (n + 2 * cpu) s.memory
  taken : ∀ c < cpu, Taken ram (k.areas s c ++ held) k.static_size PAGE_SIZE 0 (2 ^ 64 - 1)
    (k.area s c).base
  offset : ∀ c < cpu, s.per_cpu_offset c = va (k.area s c).base
  filled : ∀ c < cpu, k.AreaOf ids c (k.area s c).base (fun i => s₀.mem (k.template + i)) s.mem
  frame : ∀ a, (∀ c < cpu, ¬ (k.area s c).Has a) → s.mem a = s₀.mem a
  boot : 0 < cpu → s.gs_base = s.per_cpu_offset 0 ∧ s.gdt = add64 k.gdt_page (s.per_cpu_offset 0)

theorem areas_congr {s s' : Processors} {cpu : ℕ}
    (h : ∀ c < cpu, s'.per_cpu_offset c = s.per_cpu_offset c) : k.areas s' cpu = k.areas s cpu := by
  induction cpu with
  | zero => rfl
  | succ cpu ih =>
      rw [areas, areas, ih fun c hc => h c (by omega), area, area, h cpu (by omega)]

theorem mem_areas {s : Processors} {cpu : ℕ} {b : Block} :
    b ∈ k.areas s cpu ↔ ∃ c < cpu, b = k.area s c := by
  induction cpu with
  | zero => exact iff_of_false nofun (by simp)
  | succ cpu ih => rw [areas, List.mem_cons, ih, Nat.exists_lt_succ_right, or_comm]

/-- What a pass that has found a block leaves, with the memory as it has filled it. -/
structure Settled (k : PerCpuImage) (memory : Memblock) (mem : ℕ → UInt8) (cpu p : ℕ)
    (s s' : Processors) : Prop where
  memory : s'.memory = memory
  mem : s'.mem = mem
  offset : s'.per_cpu_offset = Function.update s.per_cpu_offset cpu (va p)
  first : cpu = 0 → s'.gs_base = va p ∧ s'.gdt = add64 k.gdt_page (va p)
  later : cpu ≠ 0 → s'.gs_base = s.gs_base ∧ s'.gdt = s.gdt

theorem setupArea_settled {tr : ℕ → Option ℕ} {behind : Option MemblockRegion} {cpu p : ℕ}
    {s : Processors} {memory : Memblock} {mem₁ mem₂ : ℕ → UInt8}
    (hok : memblockAlloc behind s.memory k.static_size PAGE_SIZE 0 (2 ^ 64 - 1) (-1) false =
      .ok (memory, p)) (hp : p ≠ 0) (hcpu : cpu < k.NR_CPUS)
    (hcopy : copyBytes tr (va p) k.per_cpu_load k.static_size s.mem = .ok mem₁)
    (hassign : assign tr (va p) (k.own ids cpu (va p)) mem₁ = .ok mem₂) :
    ∃ s', k.setupArea tr ids behind cpu s = .ok s' ∧ k.Settled memory mem₂ cpu p s s' := by
  have hself : Function.update s.per_cpu_offset cpu (va p) cpu = va p := Function.update_self ..
  let next : Processors :=
    { s with memory, mem := mem₂, per_cpu_offset := Function.update s.per_cpu_offset cpu (va p) }
  have hrun : k.setupArea tr ids behind cpu s =
      .ok (if cpu = 0 then k.switchGdtAndPercpuBase cpu next else next) := by
    rw [PerCpuImage.setupArea, hok]
    dsimp only [Except.mapError, Bind.bind, Except.bind]
    rw [if_neg hp, hcopy]
    dsimp only [pure, Except.pure, Except.mapError]
    rw [if_neg (not_le.mpr hcpu), hself, hassign]
  refine ⟨_, hrun, ?_⟩
  by_cases hzero : cpu = 0
  · rw [if_pos hzero, switchGdtAndPercpuBase]
    exact ⟨rfl, rfl, rfl, fun _ => ⟨hself, congrArg (add64 k.gdt_page) hself⟩,
      fun hne => absurd hzero hne⟩
  · rw [if_neg hzero]
    exact ⟨rfl, rfl, rfl, fun heq => absurd heq hzero, fun _ => ⟨rfl, rfl⟩⟩

/-- The next processor gets its area. -/
theorem Areas.setupArea {s₀ s : Processors} {cpu : ℕ} (h : k.Areas ram held nid n ids s₀ cpu s)
    (haddressed : k.Addressed ram t) (himage : k.imageBlock ∈ held) (hcpu : cpu < k.NR_CPUS)
    (hroom : n + 2 * cpu + 2 ≤ NR_REGIONS) (behind : Option MemblockRegion) :
    Ends (k.Areas ram held nid n ids s₀ (cpu + 1))
      (fun stop => stop = .assertion ∧
        ∀ p, ¬ Taken ram (k.areas s cpu ++ held) k.static_size PAGE_SIZE 0 (2 ^ 64 - 1) p)
      (k.setupArea (k.image.walk t) ids behind cpu s) := by
  obtain ⟨memory, p, hok, ⟨rfl, rfl, hnone⟩ | ⟨hp, htaken, hkeeps⟩⟩ :=
    h.record.alloc behind hroom k.static_size_pos (by decide : 12 < 64) (by decide : 0 < 2 ^ 64)
      (by decide : 2 ^ 64 - 1 < 2 ^ 64)
  · rw [PerCpuImage.setupArea, show PAGE_SIZE = 2 ^ 12 from rfl, hok]
    exact ⟨rfl, hnone⟩
  obtain ⟨mem₁, mem₂, hcopy, hassign, harea, hframe⟩ :=
    fill_area haddressed (List.mem_append_right _ himage) cpu htaken s.mem
  obtain ⟨s', hrun, hmemory, hmem, hoffset, hfirst, hlater⟩ :=
    setupArea_settled hok hp hcpu hcopy hassign
  have hold : ∀ c < cpu, s'.per_cpu_offset c = s.per_cpu_offset c := fun c hc => by
    rw [hoffset, Function.update_of_ne (Nat.ne_of_lt hc)]
  have hnew : s'.per_cpu_offset cpu = va p := by rw [hoffset, Function.update_self]
  have hlow := (haddressed.area htaken.memory).1
  rw [DIRECT_SIZE_eq] at hlow
  have hnewArea : k.area s' cpu = ⟨p, k.static_size⟩ := by
    rw [area, hnew, va_eq (by omega), Nat.add_sub_cancel_left]
  have holdArea : ∀ c < cpu, k.area s' c = k.area s c := fun c hc => by rw [area, area, hold c hc]
  have holdAreas : ∀ c ≤ cpu, k.areas s' c = k.areas s c := fun c hc =>
    areas_congr fun d hd => hold d (by omega)
  -- a byte of an earlier area, or of none, is not in the new one
  have hearlier : ∀ c < cpu, ∀ a, (k.area s c).Has a → s'.mem a = s.mem a := by
    intro c hc a ha
    rw [hmem]
    refine hframe a fun hin => ?_
    exact htaken.apart _ (List.mem_append_left _ (mem_areas.mpr ⟨c, hc, rfl⟩)) a hin ha
  rw [hrun]
  refine ⟨?_, fun c hc => ?_, fun c hc => ?_, fun c hc => ?_, fun a ha => ?_, fun _ => ?_⟩
  · rw [areas, hnewArea, holdAreas cpu (Nat.le_refl cpu), hmemory]
    exact hkeeps
  · obtain hc | rfl := Nat.lt_succ_iff_lt_or_eq.mp hc
    · rw [holdAreas c hc.le, holdArea c hc]
      exact h.taken c hc
    · rw [holdAreas c (Nat.le_refl c), hnewArea]
      exact htaken
  · obtain hc | rfl := Nat.lt_succ_iff_lt_or_eq.mp hc
    · rw [hold c hc, holdArea c hc]
      exact h.offset c hc
    · rw [hnewArea]
      exact hnew
  · obtain hc | rfl := Nat.lt_succ_iff_lt_or_eq.mp hc
    · rw [holdArea c hc]
      exact (h.filled c hc).congr (hearlier c hc)
    · -- the image is apart from the areas, so it is still as it was
      have htemplate : ∀ i < k.static_size, s.mem (k.template + i) = s₀.mem (k.template + i) := by
        intro i hi
        refine h.frame _ fun d hd hin => ?_
        exact (h.taken d hd).apart _ (List.mem_append_right _ himage) _ hin (k.template_inside hi)
      rw [hnewArea, hmem]
      exact ⟨harea.own, fun i hi hnone => (harea.rest i hi hnone).trans (htemplate i hi)⟩
  · rw [hmem, hframe a fun hin => ha cpu (Nat.lt_succ_self cpu) (hnewArea ▸ hin)]
    exact h.frame a fun c hc hin => ha c (by omega) ((holdArea c hc).symm ▸ hin)
  · by_cases hzero : cpu = 0
    · subst hzero
      rw [hnew]
      exact hfirst rfl
    · have hpos := Nat.pos_of_ne_zero hzero
      rw [(hlater hzero).1, (hlater hzero).2, hold 0 hpos]
      exact h.boot hpos

/-- When the loop stops, some processors have their areas, and the next does not fit. -/
def NoRoom (k : PerCpuImage) (ram : Set ℕ) (held : List Block) (nid : ℤ) (n : ℕ) (ids : EarlyIds)
    (s₀ : Processors) (nr_cpu_ids : ℕ) (stop : AreaStop) : Prop :=
  stop = .assertion ∧ ∃ cpu < nr_cpu_ids, ∃ s, k.Areas ram held nid n ids s₀ cpu s ∧
    ∀ p, ¬ Taken ram (k.areas s cpu ++ held) k.static_size PAGE_SIZE 0 (2 ^ 64 - 1) p

theorem Areas.areaLoop {s₀ s : Processors} {turns cpu : ℕ} (h : k.Areas ram held nid n ids s₀ cpu s)
    (haddressed : k.Addressed ram t) (himage : k.imageBlock ∈ held)
    (hcpus : cpu + turns ≤ k.NR_CPUS) (hroom : n + 2 * (cpu + turns) ≤ NR_REGIONS)
    (behind : ℕ → Option MemblockRegion) :
    Ends (k.Areas ram held nid n ids s₀ (cpu + turns))
      (k.NoRoom ram held nid n ids s₀ (cpu + turns))
      (k.areaLoop (k.image.walk t) ids behind turns cpu s) := by
  induction turns generalizing cpu s with
  | zero => exact h
  | succ turns ih =>
      rw [PerCpuImage.areaLoop]
      have hstep := h.setupArea haddressed himage (by omega) (by omega) (behind cpu)
      refine (hstep.mono (fun _ hs => hs) fun stop hstop => ?_).bind fun s' hs' => ?_
      · exact ⟨hstop.1, cpu, by omega, s, h, hstop.2⟩
      · have hrest := ih hs' (by omega) (by omega)
        rwa [show cpu + 1 + turns = cpu + (turns + 1) by omega] at hrest

theorem areas_zero {s : Processors} (h : Keeps ram held nid n s.memory) :
    k.Areas ram held nid n ids s 0 s :=
  ⟨h, nofun, nofun, nofun, fun _ _ => rfl, nofun⟩

/-- Every processor has an area of its own in memory that nothing else uses. Read through its offset
the area holds what the image holds, but for the variables that the processor gets. No other byte of
memory has changed, and the boot processor uses its area, with the GDT that is there. The array
`__per_cpu_offset` itself is apart from the memory that is meant. -/
structure Provided (k : PerCpuImage) (ram : Set ℕ) (held : List Block) (t : InitTables)
    (ids : EarlyIds) (nr_cpu_ids : ℕ) (s₀ s : Processors) : Prop where
  placed : ∀ c < nr_cpu_ids, PAGE_SIZE ∣ (k.area s c).base ∧ ∀ a, (k.area s c).Has a → a ∈ ram
  apart : ∀ c < nr_cpu_ids, ∀ b ∈ held, (k.area s c).Disjoint b
  separate : ∀ c < nr_cpu_ids, ∀ d < c, (k.area s c).Disjoint (k.area s d)
  own : ∀ c < nr_cpu_ids, ∀ w ∈ k.own ids c (s.per_cpu_offset c),
    loadLe (k.image.walk t) s.mem (add64 w.var.base (s.per_cpu_offset c)) w.var.size = .ok w.value
  copied : ∀ c < nr_cpu_ids, ∀ i < k.static_size,
    (∀ w ∈ k.own ids c (s.per_cpu_offset c), ¬ w.var.Has i) →
      loadByte (k.image.walk t) s.mem (add64 i (s.per_cpu_offset c)) =
        loadByte (k.image.walk t) s₀.mem (k.per_cpu_load + i)
  frame : ∀ a, (∀ c < nr_cpu_ids, ¬ (k.area s c).Has a) → s.mem a = s₀.mem a
  boot : 0 < nr_cpu_ids →
    s.gs_base = s.per_cpu_offset 0 ∧ s.gdt = add64 k.gdt_page (s.per_cpu_offset 0)
  gdt : 0 < nr_cpu_ids → ∀ i < GDT_SIZE, ∃ a, (k.area s 0).Has a ∧
    k.image.walk t (s.gdt + i) = some a ∧ s.mem a = s₀.mem (k.template + (k.gdt_page + i))

theorem own_lt {cpu offset : ℕ} (hcpu : cpu < k.NR_CPUS) (hoffset : offset < 2 ^ 64) :
    ∀ w ∈ k.own ids cpu offset, w.value < 256 ^ w.var.size := by
  have hcpus := k.cpus_lt
  have hapic := (ids.apic cpu).toNat_lt
  have hacpi := (ids.acpi cpu).toNat_lt
  simp only [own, List.forall_mem_cons, List.not_mem_nil, false_implies, implies_true, and_true]
  refine ⟨?_, ?_, ?_, ?_⟩ <;> omega

theorem Areas.provided {s₀ s : Processors} {nr_cpu_ids : ℕ}
    (h : k.Areas ram held nid n ids s₀ nr_cpu_ids s) (haddressed : k.Addressed ram t)
    (hcpus : nr_cpu_ids ≤ k.NR_CPUS) : k.Provided ram held t ids nr_cpu_ids s₀ s := by
  have hdisjoint : ∀ c < nr_cpu_ids, ∀ b ∈ k.areas s c ++ held, (k.area s c).Disjoint b :=
    fun c hc => (h.taken c hc).apart
  have hshown : ∀ c < nr_cpu_ids, s.per_cpu_offset c + k.static_size ≤ 2 ^ 64 ∧
      Shows (k.image.walk t) (s.per_cpu_offset c) (k.area s c).base k.static_size := by
    intro c hc
    rw [h.offset c hc]
    exact (haddressed.area (h.taken c hc).memory).2
  refine ⟨fun c hc => ⟨(h.taken c hc).aligned, (h.taken c hc).memory⟩,
    fun c hc b hb => hdisjoint c hc b (List.mem_append_right _ hb),
    fun c hc d hd => hdisjoint c hc _ (List.mem_append_left _ (mem_areas.mpr ⟨d, hd, rfl⟩)),
    fun c hc w hw => ?_, fun c hc i hi hnone => ?_, h.frame, h.boot, fun hpos i hi => ?_⟩
  · obtain ⟨hend, hshows⟩ := hshown c hc
    have hinside := own_inside _ w hw
    have hpos := own_pos w hw
    have hvalue := own_lt (by omega) (by omega) w hw
    have haddress : add64 w.var.base (s.per_cpu_offset c) = s.per_cpu_offset c + w.var.base := by
      rw [add64]
      omega
    rw [haddress, loadLe_eq_of_bytes (hshows.part hinside) ?_, Nat.mod_eq_of_lt hvalue]
    rw [h.offset c hc] at hw
    exact (h.filled c hc).own w hw
  · obtain ⟨hend, hshows⟩ := hshown c hc
    have haddress : add64 i (s.per_cpu_offset c) = s.per_cpu_offset c + i := by
      rw [add64]
      omega
    rw [h.offset c hc] at hnone
    rw [haddress, loadByte_eq (hshows i hi), loadByte_eq (haddressed.template i hi)]
    exact congrArg Except.ok ((h.filled c hc).rest i hi hnone)
  · obtain ⟨hend, hshows⟩ := hshown 0 hpos
    have hinside := k.gdt_inside
    have hlt : k.gdt_page + i < k.static_size := by omega
    have haddress : s.gdt + i = s.per_cpu_offset 0 + (k.gdt_page + i) := by
      rw [(h.boot hpos).2, add64]
      omega
    refine ⟨(k.area s 0).base + (k.gdt_page + i), ⟨Nat.le_add_right _ _, Nat.add_lt_add_left hlt _⟩,
      ?_, (h.filled 0 hpos).rest _ hlt (gdt_apart _ hi)⟩
    rw [haddress]
    exact hshows _ hlt

/-! ## The start of the kernel -/

/-- `BOOT_PERCPU_OFFSET`, which the array begins with. -/
def BOOT_PERCPU_OFFSET (k : PerCpuImage) : ℕ := k.per_cpu_load

/-- How `start_kernel` ends without reaching its last loop. -/
inductive KernelStop where
  | setup (stop : SetupStop)
  | areas (stop : AreaStop)
  deriving DecidableEq, Repr

/-- The boot processor as it comes to `setup_per_cpu_areas`, with the GDT and the variables of the
image. -/
def bootProcessor (k : PerCpuImage) (phys : ℕ → UInt8) (memory : Memblock) : Processors :=
  ⟨memory, phys, fun _ => k.BOOT_PERCPU_OFFSET, add64 k.gdt_page k.BOOT_PERCPU_OFFSET,
    k.BOOT_PERCPU_OFFSET⟩

/-- The part of `start_kernel` that deals with memory: `setup_arch` and `setup_per_cpu_areas`. -/
def startKernel (k : PerCpuImage) (phys : ℕ → UInt8) (fixmap : Fixmap) (info : EfiInfo)
    (disk : Ramdisk) (real_mode_blob : ℕ) (acpi_table_init : ℤ) (ids : EarlyIds) (nr_cpu_ids : ℕ)
    (behind behind' : ℕ → Option MemblockRegion) (s : EarlyTables) :
    Except KernelStop (ArchState × Processors) := do
  let arch ← (k.setupArch phys fixmap info disk real_mode_blob acpi_table_init behind
    s).mapError .setup
  let processors ← (k.setupPerCpuAreas (k.image.walk arch.tables) ids behind' nr_cpu_ids
    (k.bootProcessor phys arch.memory)).mapError .areas
  return (arch, processors)

/-- What is spoken for when the areas are placed. -/
def startBlocks (k : PerCpuImage) (disk : Ramdisk) (real_mode_blob : ℕ) (arch : ArchState) :
    List Block :=
  k.brkBlock arch.tables ::
    (realModeBlocks real_mode_blob arch.real_mode_header ++ k.earlyBlocks disk)

theorem imageBlock_mem (disk : Ramdisk) (real_mode_blob : ℕ) (arch : ArchState) :
    k.imageBlock ∈ k.startBlocks disk real_mode_blob arch := by
  simp [startBlocks, LoadedImage.earlyBlocks]

/-- What may stop the start: `setup_arch` stops, or no further area fits. -/
def KernelStopped (k : PerCpuImage) (ram : Set ℕ) (phys : ℕ → UInt8) (disk : Ramdisk)
    (real_mode_blob n : ℕ) (acpi_table_init : ℤ) (ids : EarlyIds) (nr_cpu_ids : ℕ) :
    KernelStop → Prop
  | .setup stop => LoadedImage.Stopped acpi_table_init stop
  | .areas stop => ∃ arch, k.Started ram disk real_mode_blob n arch ∧
      k.NoRoom ram (k.startBlocks disk real_mode_blob arch) 0 n ids
        (k.bootProcessor phys arch.memory) nr_cpu_ids stop

variable {phys : ℕ → UInt8} {fixmap : Fixmap} {info : EfiInfo} {disk : Ramdisk}
  {real_mode_blob nr_cpu_ids : ℕ} {acpi_table_init : ℤ}

/-- From the tables that the early boot has left, `start_kernel` provides each processor with an
area, unless something runs out on the way. -/
theorem startKernel_provided {s₀ s₁ s : EarlyTables} (hblank : k.Blank s₀)
    (hrun : k.startup64 k.load s₀ = some s₁) (hfaults : k.Faults (k.purgeIdentMapping s₁) s)
    (hefi : WellFormed phys fixmap info)
    (hpages : ∀ d ∈ descs phys info, d.Usable → PAGE_SIZE ∣ d.phys_addr)
    (hlow : ∀ a ∈ ramOf (descs phys info), a + 1 < DIRECT_SIZE)
    (hfew : (usable (descs phys info)).length + 10 + 2 * nr_cpu_ids ≤ NR_REGIONS)
    (hdisk : disk.Placed) (hblob : real_mode_blob + PAGE_SIZE < 2 ^ 64)
    (hcpus : nr_cpu_ids ≤ k.NR_CPUS) (ids : EarlyIds)
    (behind behind' : ℕ → Option MemblockRegion) :
    Ends (fun r : ArchState × Processors =>
        k.Provided (ramOf (descs phys info)) (k.startBlocks disk real_mode_blob r.1) r.1.tables ids
            nr_cpu_ids (k.bootProcessor phys r.1.memory) r.2 ∧
          Keeps (ramOf (descs phys info))
            (k.areas r.2 nr_cpu_ids ++ k.startBlocks disk real_mode_blob r.1) 0
            ((usable (descs phys info)).length + 10 + 2 * nr_cpu_ids) r.2.memory)
      (k.KernelStopped (ramOf (descs phys info)) phys disk real_mode_blob
        ((usable (descs phys info)).length + 10) acpi_table_init ids nr_cpu_ids)
      (k.startKernel phys fixmap info disk real_mode_blob acpi_table_init ids nr_cpu_ids behind
        behind' s) := by
  have harch := LoadedImage.setupArch_ends hblank hrun hfaults hefi hpages hlow (by omega) hdisk hblob
    acpi_table_init behind
  have hsetup : Ends _ (k.KernelStopped (ramOf (descs phys info)) phys disk real_mode_blob
      ((usable (descs phys info)).length + 10) acpi_table_init ids nr_cpu_ids)
      (Except.mapError KernelStop.setup _) :=
    ends_mapError harch
  rw [startKernel]
  refine hsetup.bind fun arch hstarted => ?_
  have haddressed : k.Addressed (ramOf (descs phys info)) arch.tables :=
    ⟨hstarted.shows, hstarted.image, hlow⟩
  have hstart : k.Areas _ _ 0 _ ids (k.bootProcessor phys arch.memory) 0
      (k.bootProcessor phys arch.memory) := areas_zero hstarted.record
  have hareas := hstart.areaLoop haddressed (imageBlock_mem disk real_mode_blob arch)
    (by omega : 0 + nr_cpu_ids ≤ k.NR_CPUS) (by omega) behind'
  rw [Nat.zero_add] at hareas
  have hprovided : Ends _ (k.KernelStopped (ramOf (descs phys info)) phys disk real_mode_blob
      ((usable (descs phys info)).length + 10) acpi_table_init ids nr_cpu_ids)
      (Except.mapError KernelStop.areas _) :=
    ends_mapError (hareas.mono (fun _ h => h) fun stop hstop => ⟨arch, hstarted, hstop⟩)
  exact hprovided.map fun s' hs' => ⟨hs'.provided haddressed hcpus, hs'.record⟩

/-- `smallImage` with 256 bytes of variables. -/
def smallVariables : PerCpuImage where
  toLoadedImage := LoadedImage.smallImage
  per_cpu_load := 0xFFFFFFFF80470000
  static_size := 256
  this_cpu_off := 64
  cpu_number := 8
  cpuid_to_apic_id := 72
  cpuid_to_acpi_id := 76
  gdt_page := 128
  NR_CPUS := 16
  cpus_lt := by decide
  load_from := by decide
  load_to := by decide
  vars_inside := by decide
  vars_apart := by
    simp only [List.pairwise_cons, List.forall_mem_cons, List.not_mem_nil, false_implies,
      implies_true, and_true, List.Pairwise.nil, Block.Disjoint, Block.Has]
    refine ⟨⟨?_, ?_, ?_, ?_⟩, ⟨?_, ?_, ?_⟩, ⟨?_, ?_⟩, ?_⟩ <;> intro a ha hb <;> omega

/-- Two processors, and eight pages of memory of which the ramdisk has one. -/
theorem startKernel_provided_small :
    ∃ s₁, smallVariables.startup64 smallVariables.load Kernel.blankTables = some s₁ ∧
      Ends (fun r : ArchState × Processors =>
          smallVariables.Provided (ramOf (descs Efi.gapMap (Efi.gapInfo 8)))
              (smallVariables.startBlocks ⟨0x4000, 5⟩ 100 r.1) r.1.tables
              ⟨fun _ => 0, fun _ => 1⟩ 2 (smallVariables.bootProcessor Efi.gapMap r.1.memory) r.2 ∧
            Keeps (ramOf (descs Efi.gapMap (Efi.gapInfo 8)))
              (smallVariables.areas r.2 2 ++ smallVariables.startBlocks ⟨0x4000, 5⟩ 100 r.1) 0
              ((usable (descs Efi.gapMap (Efi.gapInfo 8))).length + 10 + 2 * 2) r.2.memory)
        (smallVariables.KernelStopped (ramOf (descs Efi.gapMap (Efi.gapInfo 8))) Efi.gapMap
          ⟨0x4000, 5⟩ 100 ((usable (descs Efi.gapMap (Efi.gapInfo 8))).length + 10) SUCCESS
          ⟨fun _ => 0, fun _ => 1⟩ 2)
        (smallVariables.startKernel Efi.gapMap .start (Efi.gapInfo 8) ⟨0x4000, 5⟩ 100 SUCCESS
          ⟨fun _ => 0, fun _ => 1⟩ 2 (fun _ => none) (fun _ => none)
          (smallVariables.purgeIdentMapping s₁)) := by
  have hrun := Kernel.startup64_some smallVariables.toKernel smallVariables.loadedAt.aligned
    Kernel.blankTables
  have hbelow : ∀ d ∈ descs Efi.gapMap (Efi.gapInfo 8),
      d.phys_addr + d.num_pages * Efi.EFI_PAGE_SIZE < DIRECT_SIZE := by decide +kernel
  have hlow : ∀ a ∈ ramOf (descs Efi.gapMap (Efi.gapInfo 8)), a + 1 < DIRECT_SIZE := by
    rintro a ⟨d, hd, -, -, ha⟩
    have hend := hbelow d hd
    have hlast : a < d.phys_addr + d.num_pages * Efi.EFI_PAGE_SIZE := ha
    omega
  have hwell := Efi.wellFormed_gapInfo (n := 8) (by decide) (by decide) (by decide +kernel)
  have hpages : ∀ d ∈ descs Efi.gapMap (Efi.gapInfo 8), d.Usable → PAGE_SIZE ∣ d.phys_addr := by
    decide +kernel
  have hfew : (usable (descs Efi.gapMap (Efi.gapInfo 8))).length + 10 + 2 * 2 ≤ NR_REGIONS := by
    decide +kernel
  have hdisk : Ramdisk.Placed ⟨0x4000, 5⟩ := ⟨by decide, by decide⟩
  have hblob : 100 + PAGE_SIZE < 2 ^ 64 := by decide
  have hcpus : 2 ≤ smallVariables.NR_CPUS := by decide
  refine ⟨_, hrun, ?_⟩
  with_reducible
    exact startKernel_provided (LoadedImage.blank_blankTables smallVariables.toLoadedImage) hrun
      .start hwell hpages hlow hfew hdisk hblob hcpus _ _ _

end PerCpuImage

end Cyanea.Setup
