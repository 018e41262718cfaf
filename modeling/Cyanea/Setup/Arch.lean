/-
# The memory of the machine at start

`setup_arch` hands the memory map of the firmware to the allocator, speaks for what is in use, and
goes over to the direct mapping. What it leaves is a record of all of the memory in one node: the
kernel, the ramdisk, the block for the real mode and the pages of the tables are spoken for, and
everything else is free.
-/

import Cyanea.Setup.MemMapping

namespace Cyanea.Setup

open Memory hiding PAGE_SIZE
open Mm X86
open Efi (EfiInfo EfiMemoryDesc WellFormed bootMemory bootMemory_eq descs usable)
open Cyanea.Math (Ends)

/-! ## What is in use -/

/-- What `boot_params` says about the ramdisk. -/
structure Ramdisk where
  ramdisk_image : ℕ
  ramdisk_size : ℕ
  deriving DecidableEq, Repr

/-- `early_reserve_initrd`. -/
def earlyReserveInitrd (behind : Option MemblockRegion) (disk : Ramdisk) (m : Memblock) :
    Except Memory.Fault Memblock :=
  if disk.ramdisk_image = 0 ∨ disk.ramdisk_size = 0 then .ok m
  else do
    let ramdisk_size := roundUp disk.ramdisk_size PAGE_SIZE
    let (m, _) ← memblockReserve behind m disk.ramdisk_image ramdisk_size
    return m

/-- `real_mode_size_needed`, for a blob of so many bytes. -/
def realModeSizeNeeded (real_mode_blob : ℕ) : ℕ := roundUp real_mode_blob PAGE_SIZE

/-- `reserve_real_mode`, with the physical address that `real_mode_header` gets. -/
def reserveRealMode (behind : Option MemblockRegion) (real_mode_blob : ℕ) (m : Memblock) :
    Except Memory.Fault (Memblock × Option ℕ × ℤ) := do
  let size := realModeSizeNeeded real_mode_blob
  if size = 0 then
    return (m, none, SUCCESS)
  let (m, mem) ← memblockAlloc behind m size PAGE_SIZE 0 (0 + 1 <<< 20) (-1) false
  if mem = 0 then
    return (m, none, -ENOMEM)
  return (m, some mem, SUCCESS)

/-- `initmem_init`, without NUMA. -/
def initmemInit (behind : Option MemblockRegion) (m : Memblock) : Except Memory.Fault Memblock := do
  let (m, _) ← memblockSetNode behind m 0 (2 ^ 64 - 1) 0
  return m

/-- `acpi_boot_table_init`, given what `acpi_table_init` returns. -/
def acpiBootTableInit (acpi_table_init : ℤ) : Except SetupStop Unit :=
  if acpi_table_init = 0 then .ok () else .error .acpi

/-- What `setup_arch` leaves. -/
structure ArchState where
  memory : Memblock
  real_mode_header : Option ℕ
  tables : InitTables

namespace LoadedImage

variable (k : LoadedImage)

/-- `early_reserve_memory`. -/
def earlyReserveMemory (behind : ℕ → Option MemblockRegion) (disk : Ramdisk) (m : Memblock) :
    Except Memory.Fault Memblock := do
  let (m, _) ← memblockReserve (behind 1) m (k.paSymbol k.text)
    (sub64 k.end_of_kernel_reserve k.text)
  earlyReserveInitrd (behind 2) disk m

/-- `setup_arch`: its steps that touch the allocator or the tables, and the assertion about the
tables of ACPI. The `i`-th call that goes over the array of the allocator finds `behind i` there. -/
def setupArch (phys : ℕ → UInt8) (fixmap : Fixmap) (info : EfiInfo) (disk : Ramdisk)
    (real_mode_blob : ℕ) (acpi_table_init : ℤ) (behind : ℕ → Option MemblockRegion)
    (s : EarlyTables) :
    Except SetupStop ArchState := do
  let m ← (bootMemory phys (behind 0) fixmap info).mapError .efi
  let m ← (k.earlyReserveMemory behind disk m).mapError .memblock
  let (m, real_mode_header, _) ← (reserveRealMode (behind 3) real_mode_blob m).mapError .memblock
  let (m, tables) ← k.initMemMapping (behind 4) m ⟨s.mem, 0⟩
  acpiBootTableInit acpi_table_init
  let m ← (initmemInit (behind 5) m).mapError .memblock
  return ⟨m, real_mode_header, tables⟩

end LoadedImage

/-! ## The memory of the map -/

section Map

variable {phys : ℕ → UInt8} {fixmap : Fixmap} {info : EfiInfo} {l : List EfiMemoryDesc}

/-- The memory that usable descriptors describe. -/
def ramOf (l : List EfiMemoryDesc) : Set ℕ := {a | ∃ d ∈ l, d.Usable ∧ a ∈ d.range.bytes}

theorem bytesOf_usable (l : List EfiMemoryDesc) : bytesOf (usable l) = ramOf l :=
  Set.ext fun _ => Efi.mem_bytesOf_usable

/-- Descriptors describe whole pages. -/
theorem wholePages_ramOf (h : ∀ d ∈ l, d.Usable → Memory.PAGE_SIZE ∣ d.phys_addr) :
    WholePages (ramOf l) := by
  intro a c hac
  refine exists_congr fun d => and_congr_right fun hd => and_congr_right fun husable => ?_
  have hstart := h d hd husable
  exact inside_iff_of_page hstart (Nat.dvd_add hstart (Nat.dvd_mul_left _ _)) hac

/-- A few descriptors are recorded as they are. -/
theorem bootMemory_keeps (h : WellFormed phys fixmap info)
    (hfew : (usable (descs phys info)).length < NR_REGIONS) (behind : Option MemblockRegion) :
    Ends (Keeps (ramOf (descs phys info)) [] (-1) (usable (descs phys info)).length)
      (· = .memblock .outOfSpace) (bootMemory phys behind fixmap info) := by
  have hentries : ∀ e ∈ (descs phys info).map EfiMemoryDesc.entry, e.Fits := by
    intro e he
    obtain ⟨d, hd, rfl⟩ := List.mem_map.mp he
    have hlt := h.fits d hd
    show d.phys_addr + d.num_pages * Efi.EFI_PAGE_SIZE % 2 ^ 64 < 2 ^ 64
    rw [Nat.mod_eq_of_lt (by omega)]
    exact hlt
  have hjoined := Efi.updateEntries_joined hentries
  have hbytes := hjoined.bytesOf_eq
  have hnever := hjoined.neverFills_iff
  rw [Efi.ram_entries h.fits] at hbytes hnever
  have hranges : ∀ r ∈ Efi.ram (Efi.updateEntries ((descs phys info).map EfiMemoryDesc.entry)),
      r.start + r.size < 2 ^ 64 := by
    intro r hr
    obtain ⟨e, he, heq⟩ := List.mem_filterMap.mp hr
    split at heq
    · obtain rfl := Option.some.inj heq
      exact hjoined.fits hentries e he
    · exact absurd heq nofun
  have hends := addRanges_records behind hranges (hnever.mp (neverFills_of_length hfew))
  rw [bootMemory_eq h]
  generalize addRanges behind _ memory = run at *
  cases run with
  | error stop => exact congrArg Efi.Fault.memblock hends
  | ok m =>
      rw [← hbytes] at hends
      rw [← bytesOf_usable]
      exact Records.keeps hends

end Map

/-! ## What is spoken for -/

/-- The block of the ramdisk, if there is one. -/
def Ramdisk.blocks (disk : Ramdisk) : List Block :=
  if disk.ramdisk_image = 0 ∨ disk.ramdisk_size = 0 then []
  else [⟨disk.ramdisk_image, roundUp disk.ramdisk_size PAGE_SIZE⟩]

/-- The ramdisk begins at a page and ends in the address space. -/
structure Ramdisk.Placed (disk : Ramdisk) : Prop where
  aligned : PAGE_SIZE ∣ disk.ramdisk_image
  fits : disk.ramdisk_image + disk.ramdisk_size + PAGE_SIZE < 2 ^ 64

/-- The block for the real mode, if there is one. -/
def realModeBlocks (real_mode_blob : ℕ) (real_mode_header : Option ℕ) : List Block :=
  real_mode_header.toList.map fun mem => ⟨mem, realModeSizeNeeded real_mode_blob⟩

/-- The block for the real mode suits, or there is nothing to put there or no place for it. -/
def RealModeReserved (ram : Set ℕ) (held : List Block) (real_mode_blob : ℕ) : Option ℕ → Prop
  | some mem => Taken ram held (realModeSizeNeeded real_mode_blob) PAGE_SIZE 0 (2 ^ 20) mem
  | none => real_mode_blob = 0 ∨
      ∀ mem, ¬ Taken ram held (realModeSizeNeeded real_mode_blob) PAGE_SIZE 0 (2 ^ 20) mem

section Steps

variable {ram : Set ℕ} {held : List Block} {nid : ℤ} {n : ℕ} {m : Memblock}

theorem roundUp_page {x : ℕ} (hx : x + PAGE_SIZE < 2 ^ 64) :
    PAGE_SIZE ∣ roundUp x PAGE_SIZE ∧ x ≤ roundUp x PAGE_SIZE ∧ roundUp x PAGE_SIZE < x + PAGE_SIZE := by
  rw [show PAGE_SIZE = 2 ^ 12 from rfl] at *
  rw [roundUp_eq (by decide) (by omega)]
  refine ⟨Nat.dvd_mul_right _ _, ?_, ?_⟩ <;> omega

theorem Ramdisk.Placed.aligned_blocks {disk : Ramdisk} (h : disk.Placed) :
    ∀ b ∈ disk.blocks, PAGE_SIZE ∣ b.base ∧ PAGE_SIZE ∣ b.base + b.size := by
  have hfits := h.fits
  intro b hb
  rw [Ramdisk.blocks] at hb
  split at hb
  · cases hb
  · obtain rfl := List.mem_singleton.mp hb
    exact ⟨h.aligned, Nat.dvd_add h.aligned (roundUp_page (by omega)).1⟩

theorem earlyReserveInitrd_keeps {disk : Ramdisk} (h : Keeps ram held nid n m) (hdisk : disk.Placed)
    (hroom : n + 2 ≤ NR_REGIONS) (behind : Option MemblockRegion) :
    ∃ m', earlyReserveInitrd behind disk m = .ok m' ∧
      Keeps ram (disk.blocks ++ held) nid (n + 2) m' := by
  have hfits := hdisk.fits
  rw [earlyReserveInitrd, Ramdisk.blocks]
  by_cases hnone : disk.ramdisk_image = 0 ∨ disk.ramdisk_size = 0
  · rw [if_pos hnone, if_pos hnone]
    exact ⟨m, rfl, h.mono (Nat.le_add_right n 2)⟩
  · obtain ⟨-, -, hlt⟩ := roundUp_page (x := disk.ramdisk_size) (by omega)
    have hend : disk.ramdisk_image + roundUp disk.ramdisk_size PAGE_SIZE < 2 ^ 64 := by omega
    obtain ⟨m', hok, hkeeps⟩ := h.reserve behind hroom hend
    rw [if_neg hnone, if_neg hnone]
    dsimp only
    rw [hok]
    exact ⟨m', rfl, hkeeps⟩

theorem reserveRealMode_keeps {real_mode_blob : ℕ} (h : Keeps ram held nid n m)
    (hblob : real_mode_blob + PAGE_SIZE < 2 ^ 64) (hroom : n + 2 ≤ NR_REGIONS)
    (behind : Option MemblockRegion) :
    ∃ m' header err, reserveRealMode behind real_mode_blob m = .ok (m', header, err) ∧
      RealModeReserved ram held real_mode_blob header ∧
        Keeps ram (realModeBlocks real_mode_blob header ++ held) nid (n + 2) m' := by
  obtain ⟨-, hle, -⟩ := roundUp_page hblob
  have hgrown := h.mono (Nat.le_add_right n 2)
  rw [reserveRealMode]
  dsimp only
  by_cases hzero : realModeSizeNeeded real_mode_blob = 0
  · rw [if_pos hzero]
    rw [realModeSizeNeeded] at hzero
    exact ⟨m, none, SUCCESS, rfl, .inl (by omega), hgrown⟩
  · obtain ⟨m', mem, hok, ⟨rfl, rfl, hnone⟩ | ⟨hmem, htaken, hkeeps⟩⟩ :=
      h.alloc behind hroom (Nat.pos_of_ne_zero hzero) (by decide : 12 < 64)
        (by decide : 0 < 2 ^ 64) (by decide : 2 ^ 20 < 2 ^ 64)
    · refine ⟨m', none, -ENOMEM, ?_, .inr hnone, hgrown⟩
      rw [if_neg hzero, show PAGE_SIZE = 2 ^ 12 from rfl, show 0 + 1 <<< 20 = 2 ^ 20 from rfl, hok]
      rfl
    · refine ⟨m', some mem, SUCCESS, ?_, htaken, hkeeps⟩
      rw [if_neg hzero, show PAGE_SIZE = 2 ^ 12 from rfl, show 0 + 1 <<< 20 = 2 ^ 20 from rfl, hok]
      exact if_neg hmem

theorem RealModeReserved.aligned {real_mode_blob : ℕ} {real_mode_header : Option ℕ}
    (h : RealModeReserved ram held real_mode_blob real_mode_header)
    (hblob : real_mode_blob + PAGE_SIZE < 2 ^ 64) :
    ∀ b ∈ realModeBlocks real_mode_blob real_mode_header,
      PAGE_SIZE ∣ b.base ∧ PAGE_SIZE ∣ b.base + b.size := by
  intro b hb
  obtain ⟨mem, hmem, rfl⟩ := List.mem_map.mp hb
  obtain rfl := Option.mem_toList.mp hmem
  have haligned : PAGE_SIZE ∣ mem := Taken.aligned h
  exact ⟨haligned, Nat.dvd_add haligned (roundUp_page hblob).1⟩

theorem initmemInit_keeps (h : Keeps ram held nid n m) (hram : ∀ a ∈ ram, a < 2 ^ 64 - 1)
    (hroom : n + 2 ≤ NR_REGIONS) (behind : Option MemblockRegion) :
    ∃ m', initmemInit behind m = .ok m' ∧ Keeps ram held 0 (n + 2) m' := by
  obtain ⟨m', hok, hkeeps⟩ := h.setNode behind hroom (by decide) hram 0
  refine ⟨m', ?_, hkeeps⟩
  rw [initmemInit, hok]
  rfl

end Steps

/-! ## The start -/

namespace LoadedImage

variable {k : LoadedImage} {ram : Set ℕ} {n : ℕ} {m : Memblock}

/-- The part of the image that is reserved as a whole. -/
def imageBlock (k : LoadedImage) : Block := ⟨k.load, k.end_of_kernel_reserve - k.text⟩

theorem reserve_bounds (k : LoadedImage) :
    k.text < k.end_of_kernel_reserve ∧ k.end_of_kernel_reserve < k.kernelEnd := by
  obtain ⟨hfrom, hto⟩ := k.tables_inside _ List.mem_cons_self
  have hle := k.reserve_le
  have hbrk := k.brk_bounds.2.1
  rw [show Mm.PAGE_SIZE = 4096 from rfl] at hto
  omega

theorem imageBlock_aligned (k : LoadedImage) :
    PAGE_SIZE ∣ k.imageBlock.base ∧ PAGE_SIZE ∣ k.imageBlock.base + k.imageBlock.size := by
  obtain ⟨-, -, -, htext⟩ := k.image_bounds
  have hpage : PAGE_SIZE ∣ k.text :=
    (by decide : PAGE_SIZE ∣ 2 ^ 21).trans (Nat.dvd_of_mod_eq_zero htext)
  exact ⟨k.loadedAt.aligned, Nat.dvd_add k.loadedAt.aligned (Nat.dvd_sub k.reserve_aligned hpage)⟩

/-- What is spoken for before the first block is taken. -/
def earlyBlocks (k : LoadedImage) (disk : Ramdisk) : List Block := disk.blocks ++ [k.imageBlock]

theorem earlyBlocks_aligned {disk : Ramdisk} (h : disk.Placed) :
    ∀ b ∈ k.earlyBlocks disk, PAGE_SIZE ∣ b.base ∧ PAGE_SIZE ∣ b.base + b.size := by
  intro b hb
  obtain hb | hb := List.mem_append.mp hb
  · exact h.aligned_blocks b hb
  · obtain rfl := List.mem_singleton.mp hb
    exact k.imageBlock_aligned

theorem earlyReserveMemory_keeps {disk : Ramdisk} (h : Keeps ram [] (-1) n m)
    (hdisk : disk.Placed) (hroom : n + 4 ≤ NR_REGIONS) (behind : ℕ → Option MemblockRegion) :
    ∃ m', k.earlyReserveMemory behind disk m = .ok m' ∧
      Keeps ram (k.earlyBlocks disk) (-1) (n + 4) m' := by
  obtain ⟨hlt, hto⟩ := k.reserve_bounds
  obtain ⟨-, -, hend, -⟩ := k.image_bounds
  have hcanonical := k.loadedAt.canonical
  have hload : k.paSymbol k.text = k.load := by
    rw [paSymbol_eq (Nat.le_refl _) (hlt.trans hto), Kernel.frame, Nat.sub_self, Nat.add_zero]
  have hfits : k.load + (k.end_of_kernel_reserve - k.text) < 2 ^ 64 := by omega
  obtain ⟨m₁, hok₁, hkeeps₁⟩ := h.reserve (behind 1) (by omega) hfits
  obtain ⟨m₂, hok₂, hkeeps₂⟩ := earlyReserveInitrd_keeps hkeeps₁ hdisk (by omega) (behind 2)
  refine ⟨m₂, ?_, hkeeps₂⟩
  rw [earlyReserveMemory, hload, sub64_eq hlt.le (by omega), hok₁]
  exact hok₂

/-- All of the memory is recorded, in one node, and of it these blocks are spoken for. The direct
mapping shows it, and the kernel is mapped where it was. -/
structure Started (k : LoadedImage) (ram : Set ℕ) (disk : Ramdisk) (real_mode_blob : ℕ) (n : ℕ)
    (r : ArchState) : Prop where
  record : Keeps ram (k.brkBlock r.tables ::
    (realModeBlocks real_mode_blob r.real_mode_header ++ k.earlyBlocks disk)) 0 n r.memory
  realMode : RealModeReserved ram (k.earlyBlocks disk) real_mode_blob r.real_mode_header
  shows : ShowsMemory k.image r.tables ram
  image : ∀ o < k.kernelEnd - k.text, k.image.walk r.tables (k.text + o) = some (k.load + o)
  pages : r.tables.next_page ≤ k.BRK_ALLOC_PAGES

/-- What may stop the start: the array of the allocator or the pages for tables run out, or there
are no tables of ACPI. -/
def Stopped (acpi_table_init : ℤ) (stop : SetupStop) : Prop :=
  stop = .efi (.memblock .outOfSpace) ∨ stop = .mapping (.mapping .notEnoughMemory) ∨
    acpi_table_init ≠ 0 ∧ stop = .acpi

theorem image_of_upper {s : EarlyTables} {s' : InitTables} (h : k.EarlyDone s)
    (hupper : ∀ x, START_KERNEL_map ≤ x → x < 2 ^ 64 → k.image.walk s' x = k.walk s x) :
    ∀ o < k.kernelEnd - k.text, k.image.walk s' (k.text + o) = some (k.load + o) := by
  obtain ⟨htext, -, hend, -⟩ := k.image_bounds
  obtain ⟨f, hf⟩ := h.faulting
  intro o ho
  rw [hupper _ (by rw [START_KERNEL_map_eq]; omega) (by omega)]
  exact (hf.serves k.loadedAt k.large).image o ho

variable {phys : ℕ → UInt8} {fixmap : Fixmap} {info : EfiInfo} {disk : Ramdisk}
  {real_mode_blob : ℕ} {acpi_table_init : ℤ}

theorem setupArch_ends {s₀ s₁ s : EarlyTables} (hblank : k.Blank s₀)
    (hrun : k.startup64 k.load s₀ = some s₁) (hfaults : k.Faults (k.purgeIdentMapping s₁) s)
    (hefi : WellFormed phys fixmap info)
    (hpages : ∀ d ∈ descs phys info, d.Usable → PAGE_SIZE ∣ d.phys_addr)
    (hlow : ∀ a ∈ ramOf (descs phys info), a + 1 < DIRECT_SIZE)
    (hfew : (usable (descs phys info)).length + 10 ≤ NR_REGIONS) (hdisk : disk.Placed)
    (hblob : real_mode_blob + PAGE_SIZE < 2 ^ 64) (acpi_table_init : ℤ)
    (behind : ℕ → Option MemblockRegion) :
    Ends (k.Started (ramOf (descs phys info)) disk real_mode_blob
        ((usable (descs phys info)).length + 10))
      (Stopped acpi_table_init)
      (k.setupArch phys fixmap info disk real_mode_blob acpi_table_init behind s) := by
  have hearly := hblank.earlyDone hrun hfaults
  have hboot := bootMemory_keeps hefi (by omega) (behind 0)
  generalize hn : (usable (descs phys info)).length = n at *
  rw [setupArch]
  refine (ends_mapError (hboot.mono (fun _ h => h) fun f hf => .inl (congrArg _ hf))).bind
    fun m hkeeps => ?_
  obtain ⟨m₁, hok₁, hkeeps₁⟩ := k.earlyReserveMemory_keeps hkeeps hdisk (by omega) behind
  obtain ⟨m₂, header, err, hok₂, hrealMode, hkeeps₂⟩ :=
    reserveRealMode_keeps hkeeps₁ hblob (by omega) (behind 3)
  rw [hok₁]
  show Ends _ _ ((reserveRealMode (behind 3) real_mode_blob m₁).mapError SetupStop.memblock >>= _)
  rw [hok₂]
  have haligned : ∀ b ∈ realModeBlocks real_mode_blob header ++ k.earlyBlocks disk,
      Memory.PAGE_SIZE ∣ b.base ∧ Memory.PAGE_SIZE ∣ b.base + b.size := fun b hb =>
    (List.mem_append.mp hb).elim (hrealMode.aligned hblob b) (earlyBlocks_aligned hdisk b)
  have hmapping := hearly.initMemMapping hkeeps₂ (by omega) (wholePages_ramOf hpages) haligned hlow
    (behind 4)
  refine (hmapping.mono (fun _ h => h) fun f hf => .inr (.inl hf)).bind fun r hr => ?_
  obtain ⟨hswitched, hkeeps₃⟩ := hr
  have hbelow : ∀ a ∈ ramOf (descs phys info), a < 2 ^ 64 - 1 := fun a ha =>
    (Nat.lt_of_succ_lt (hlow a ha)).trans (by decide)
  obtain ⟨m₄, hok₄, hkeeps₄⟩ := initmemInit_keeps hkeeps₃ hbelow (by omega) (behind 5)
  dsimp only
  rw [acpiBootTableInit]
  by_cases hacpi : acpi_table_init = 0
  swap
  · rw [if_neg hacpi]
    exact .inr (.inr ⟨hacpi, rfl⟩)
  rw [if_pos hacpi, hok₄]
  exact ⟨hkeeps₄.mono (by omega), hrealMode, hswitched.shows,
    image_of_upper hearly hswitched.upper, hswitched.pages⟩

/-- From the tables that the early boot has left, after any page faults, and from any memory map of
the firmware that is not too long, `setup_arch` starts the memory, unless it runs out or there are
no tables of ACPI. -/
theorem setupArch_started {s₀ s₁ s : EarlyTables} (hblank : k.Blank s₀)
    (hrun : k.startup64 k.load s₀ = some s₁) (hfaults : k.Faults (k.purgeIdentMapping s₁) s)
    (hefi : WellFormed phys fixmap info)
    (hpages : ∀ d ∈ descs phys info, d.Usable → PAGE_SIZE ∣ d.phys_addr)
    (hlow : ∀ a ∈ ramOf (descs phys info), a + 1 < DIRECT_SIZE)
    (hfew : (usable (descs phys info)).length + 10 ≤ NR_REGIONS) (hdisk : disk.Placed)
    (hblob : real_mode_blob + PAGE_SIZE < 2 ^ 64) (behind : ℕ → Option MemblockRegion) :
    Ends (k.Started (ramOf (descs phys info)) disk real_mode_blob
        ((usable (descs phys info)).length + 10))
      (Stopped acpi_table_init)
      (k.setupArch phys fixmap info disk real_mode_blob acpi_table_init behind s) :=
  setupArch_ends hblank hrun hfaults hefi hpages hlow hfew hdisk hblob _ behind

/-- `smallKernel`, with its other tables behind those of the early boot. -/
def smallImage : LoadedImage where
  toKernel := Kernel.smallKernel
  init_top_pgt := 0xFFFFFFFF80406000
  level3_kernel_pgt := 0xFFFFFFFF80407000
  end_of_kernel_reserve := 0xFFFFFFFF80480000
  brk_base := 0xFFFFFFFF80480000
  BRK_ALLOC_PAGES := 64
  tables_distinct := by decide +kernel
  tables_inside := by decide +kernel
  root_aligned := by decide
  level3_aligned := by decide
  reserve_aligned := by decide
  reserve_le := Nat.le_refl _
  brk_aligned := by decide
  brk_pos := by decide
  brk_limit := by decide
  load := 0x1000000
  loadedAt := ⟨by decide, by decide⟩
  large := by decide
  low := by decide

theorem blank_blankTables (k : LoadedImage) : k.Blank Kernel.blankTables :=
  ⟨Kernel.loaded_blankTables _ _, fun _ => rfl, fun _ => rfl⟩

/-- Four pages of memory, a ramdisk in one of them, and a small blob for the real mode. -/
theorem setupArch_started_small :
    ∃ s₁, smallImage.startup64 smallImage.load Kernel.blankTables = some s₁ ∧
      Ends (smallImage.Started (ramOf (descs Efi.gapMap (Efi.gapInfo 4))) ⟨0x4000, 5⟩ 100
        ((usable (descs Efi.gapMap (Efi.gapInfo 4))).length + 10)) (Stopped SUCCESS)
      (smallImage.setupArch Efi.gapMap .start (Efi.gapInfo 4) ⟨0x4000, 5⟩ 100 SUCCESS (fun _ => none)
        (smallImage.purgeIdentMapping s₁)) := by
  have hrun := Kernel.startup64_some smallImage.toKernel smallImage.loadedAt.aligned
    Kernel.blankTables
  have hbelow : ∀ d ∈ descs Efi.gapMap (Efi.gapInfo 4),
      d.phys_addr + d.num_pages * Efi.EFI_PAGE_SIZE < DIRECT_SIZE := by decide +kernel
  have hlow : ∀ a ∈ ramOf (descs Efi.gapMap (Efi.gapInfo 4)), a + 1 < DIRECT_SIZE := by
    rintro a ⟨d, hd, -, -, ha⟩
    have hend := hbelow d hd
    have hlast : a < d.phys_addr + d.num_pages * Efi.EFI_PAGE_SIZE := ha
    omega
  have hwell := Efi.wellFormed_gapInfo (n := 4) (by decide) (by decide) (by decide +kernel)
  have hpages : ∀ d ∈ descs Efi.gapMap (Efi.gapInfo 4), d.Usable → PAGE_SIZE ∣ d.phys_addr := by
    decide +kernel
  have hfew : (usable (descs Efi.gapMap (Efi.gapInfo 4))).length + 10 ≤ NR_REGIONS := by
    decide +kernel
  have hdisk : Ramdisk.Placed ⟨0x4000, 5⟩ := ⟨by decide, by decide⟩
  have hblob : 100 + PAGE_SIZE < 2 ^ 64 := by decide
  refine ⟨_, hrun, ?_⟩
  with_reducible
    exact setupArch_started (blank_blankTables smallImage) hrun .start hwell hpages hlow hfew hdisk
      hblob _

end LoadedImage

end Cyanea.Setup
