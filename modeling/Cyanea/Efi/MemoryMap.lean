/-
# From the firmware's memory map to the allocator

`efi_add_memmap` maps the descriptors that the firmware left in memory, walks over them
with the stride the firmware gives, and translates each type to one of E820;
`e820__memblock_setup` then adds what is usable to the empty table of the allocator. The
bytes of a descriptor are read through the page tables of the fixmap.
-/

import Cyanea.Efi.E820
import Cyanea.Mm.Fixmap

namespace Cyanea.Efi

open Cyanea.Math Cyanea.Math.Segments Cyanea.Math.Spans Cyanea.Memory Cyanea.Mm

def EFI_LOADER_CODE : ℕ := 1
def EFI_LOADER_DATA : ℕ := 2
def EFI_BOOT_SERVICES_CODE : ℕ := 3
def EFI_BOOT_SERVICES_DATA : ℕ := 4
def EFI_CONVENTIONAL_MEMORY : ℕ := 7
def EFI_UNUSABLE_MEMORY : ℕ := 8
def EFI_ACPI_RECLAIM_MEMORY : ℕ := 9
def EFI_ACPI_MEMORY_NVS : ℕ := 10
def EFI_PERSISTENT_MEMORY : ℕ := 14

def EFI_PAGE_SIZE : ℕ := 1 <<< 12

/-- The fields of `struct efi_info` that describe the memory map. -/
structure EfiInfo where
  efi_memdesc_size : ℕ
  efi_memmap_size : ℕ
  efi_memmap : ℕ
  deriving DecidableEq, Repr

/-- The fields of `struct efi_memory_desc` that are read. -/
structure EfiMemoryDesc where
  type : ℕ
  phys_addr : ℕ
  num_pages : ℕ
  deriving DecidableEq, Repr

/-- `sizeof(struct efi_memory_desc)`. -/
def sizeofDesc : ℕ := 40

/-- How the boot code stops before the table is complete. -/
inductive Fault where
  | pageFault (va : ℕ)
  | fixmap (f : Mm.Fault)
  | memblock (f : Memory.Fault)
  /-- The walk has not ended; with a stride that is not 0 it does. -/
  | unfinished
  deriving DecidableEq, Repr

section Walk

variable (phys : ℕ → UInt8)

/-- Read `n` bytes, the lowest first, through the page tables. -/
def readLe (f : Fixmap) : ℕ → ℕ → Except Fault ℕ
  | 0, _ => .ok 0
  | n + 1, va =>
    match f.translate va with
    | none => .error (.pageFault va)
    | some p => do
      let rest ← readLe f n (va + 1)
      return (phys p).toNat + 256 * rest

/-- The fields of `*md`. -/
def readDesc (f : Fixmap) (md : ℕ) : Except Fault EfiMemoryDesc := do
  let type ← readLe phys f 4 md
  let phys_addr ← readLe phys f 8 (md + 8)
  let num_pages ← readLe phys f 8 (md + 24)
  return { type, phys_addr, num_pages }

/-- The type that `efi_add_memmap` chooses. -/
def e820Type (type : ℕ) : E820Type :=
  if type = EFI_LOADER_CODE ∨ type = EFI_LOADER_DATA ∨ type = EFI_BOOT_SERVICES_CODE ∨
      type = EFI_BOOT_SERVICES_DATA ∨ type = EFI_CONVENTIONAL_MEMORY then .RAM
  else if type = EFI_ACPI_RECLAIM_MEMORY then .ACPI
  else if type = EFI_ACPI_MEMORY_NVS then .NVS
  else if type = EFI_UNUSABLE_MEMORY then .UNUSABLE
  else if type = EFI_PERSISTENT_MEMORY then .PMEM
  else .RESERVED

/-- The loop of `for_each_efi_memory_desc_in_map` in `efi_add_memmap`. -/
def descLoop (f : Fixmap) (info : EfiInfo) (descs : ℕ) :
    ℕ → ℕ → E820Table → Except Fault E820Table
  | 0, _, _ => .error .unfinished
  | turns + 1, md, table =>
    if add64 md info.efi_memdesc_size ≤ add64 descs info.efi_memmap_size then do
      let desc ← readDesc phys f md
      let table := e820RangeAdd table desc.phys_addr
        (desc.num_pages * EFI_PAGE_SIZE % 2 ^ 64) (e820Type desc.type)
      descLoop f info descs turns (add64 md info.efi_memdesc_size) table
    else .ok table

/-- A computation on the fixmap, inside the boot code. -/
def liftFixmap {α : Type} (x : Except Mm.Fault α) : Except Fault α := x.mapError .fixmap

/-- `efi_add_memmap`, with the entries it leaves in `e820_table`. -/
def efiAddMemmap (fixmap : Fixmap) (info : EfiInfo) :
    Except Fault (ℤ × Fixmap × List E820Entry) := do
  let (descs, mapped) ← liftFixmap (memremap fixmap info.efi_memmap info.efi_memmap_size)
  if descs = 0 then
    return (-ENOMEM, mapped, e820Table.entries)
  else
    let table ← descLoop phys mapped info descs (info.efi_memmap_size + 1) descs e820Table
    let unmapped ← liftFixmap (iounmap mapped descs info.efi_memmap_size)
    return (SUCCESS, unmapped, updateEntries table.entries)

/-- `e820__memory_setup()` and `e820__memblock_setup()`, as `setup_arch` calls them. -/
def bootMemory (behind : Option MemblockRegion) (fixmap : Fixmap) (info : EfiInfo) :
    Except Fault Memblock := do
  let (_, _, entries) ← efiAddMemmap phys fixmap info
  (e820MemblockSetup behind entries memory).mapError .memblock

/-! ## The map in memory -/

/-- The number that `n` bytes of memory hold, the lowest byte first. -/
def leAt : ℕ → ℕ → ℕ
  | 0, _ => 0
  | n + 1, a => (phys a).toNat + 256 * leAt n (a + 1)

def descAt (a : ℕ) : EfiMemoryDesc := ⟨leAt phys 4 a, leAt phys 8 (a + 8), leAt phys 8 (a + 24)⟩

/-- The descriptors of the map. -/
def descs (info : EfiInfo) : List EfiMemoryDesc :=
  (List.range (info.efi_memmap_size / info.efi_memdesc_size)).map fun i =>
    descAt phys (info.efi_memmap + i * info.efi_memdesc_size)

end Walk

/-- Loader code and data, boot-services code and data, and conventional memory. -/
def EfiMemoryDesc.Usable (d : EfiMemoryDesc) : Prop :=
  d.type ∈ [EFI_LOADER_CODE, EFI_LOADER_DATA, EFI_BOOT_SERVICES_CODE, EFI_BOOT_SERVICES_DATA,
    EFI_CONVENTIONAL_MEMORY]

instance (d : EfiMemoryDesc) : Decidable d.Usable := inferInstanceAs (Decidable (_ ∈ _))

/-- The range that a descriptor describes. -/
def EfiMemoryDesc.range (d : EfiMemoryDesc) : Range := ⟨d.phys_addr, d.num_pages * EFI_PAGE_SIZE⟩

/-- The ranges of the usable descriptors. -/
def usable (l : List EfiMemoryDesc) : List Range :=
  l.filterMap fun d => if d.Usable then some d.range else none

/-- The map can be mapped, has no more descriptors than E820 entries, and no sum of an
address and a size leaves the address space. -/
structure WellFormed (phys : ℕ → UInt8) (fixmap : Fixmap) (info : EfiInfo) : Prop where
  stride : sizeofDesc ≤ info.efi_memdesc_size
  few : info.efi_memmap_size / info.efi_memdesc_size ≤ E820_MAX_ENTRIES
  fits : ∀ d ∈ descs phys info, d.phys_addr + d.num_pages * EFI_PAGE_SIZE < 2 ^ 64
  mappable : ∃ virt mapped unmapped,
    memremap fixmap info.efi_memmap info.efi_memmap_size = .ok (virt, mapped) ∧ virt ≠ 0 ∧
    (∀ k < info.efi_memmap_size, mapped.translate (virt + k) = some (info.efi_memmap + k)) ∧
    iounmap mapped virt info.efi_memmap_size = .ok unmapped ∧
    virt + info.efi_memmap_size + info.efi_memdesc_size < 2 ^ 64

/-- The table covers the usable descriptors, without nodes and flags, and knows how many
bytes that is. -/
structure RecordsMap (m : Memblock) (l : List EfiMemoryDesc) : Prop where
  covers : ∀ a, (∃ r ∈ m.live, r.Covers a) ↔ ∃ d ∈ l, d.Usable ∧ a ∈ d.range.bytes
  plain : ∀ r ∈ m.live, r.nid = -1 ∧ r.flags = MEMBLOCK_NONE
  size : memblockPhysMemSize m = {a | ∃ d ∈ l, d.Usable ∧ a ∈ d.range.bytes}.ncard

/-! ## The walk -/

variable {phys : ℕ → UInt8} {f fixmap : Fixmap} {info : EfiInfo} {l : List EfiMemoryDesc}

theorem readLe_eq {n va a : ℕ} (h : ∀ k < n, f.translate (va + k) = some (a + k)) :
    readLe phys f n va = .ok (leAt phys n a) := by
  induction n generalizing va a with
  | zero => rfl
  | succ n ih =>
      have hfirst : f.translate va = some a := h 0 (Nat.succ_pos n)
      have hrest : ∀ k < n, f.translate (va + 1 + k) = some (a + 1 + k) := by
        intro k hk
        rw [Nat.add_assoc, Nat.add_assoc, Nat.add_comm 1 k]
        exact h (k + 1) (by omega)
      rw [readLe, hfirst]
      dsimp only
      rw [ih hrest]
      rfl

theorem readDesc_eq {md a : ℕ} (h : ∀ k < sizeofDesc, f.translate (md + k) = some (a + k)) :
    readDesc phys f md = .ok (descAt phys a) := by
  have hpart : ∀ n off, off + n ≤ sizeofDesc →
      readLe phys f n (md + off) = .ok (leAt phys n (a + off)) := by
    intro n off hle
    apply readLe_eq
    intro k hk
    rw [Nat.add_assoc, Nat.add_assoc]
    exact h (off + k) (by omega)
  have htype := hpart 4 0 (by decide)
  have haddr := hpart 8 8 (by decide)
  have hpages := hpart 8 24 (by decide)
  rw [Nat.add_zero, Nat.add_zero] at htype
  rw [readDesc, htype, haddr, hpages]
  rfl

/-- The entry that a descriptor becomes. -/
def EfiMemoryDesc.entry (d : EfiMemoryDesc) : E820Entry :=
  ⟨d.phys_addr, d.num_pages * EFI_PAGE_SIZE % 2 ^ 64, e820Type d.type⟩

theorem e820RangeAdd_entries {table : E820Table} (h : table.entries.length < E820_MAX_ENTRIES)
    (start size : ℕ) (type : E820Type) :
    (e820RangeAdd table start size type).entries = table.entries ++ [⟨start, size, type⟩] := by
  rw [e820RangeAdd, dif_neg h.ne]

/-- The walk appends the entry of each descriptor from the `i`-th on. -/
theorem descLoop_eq {virt : ℕ} (hstride : sizeofDesc ≤ info.efi_memdesc_size)
    (htranslate : ∀ k < info.efi_memmap_size, f.translate (virt + k) = some (info.efi_memmap + k))
    (hwrap : virt + info.efi_memmap_size + info.efi_memdesc_size < 2 ^ 64) {left i turns : ℕ}
    (hleft : i + left = info.efi_memmap_size / info.efi_memdesc_size) (hturns : left < turns)
    (table : E820Table) (hroom : table.entries.length + left ≤ E820_MAX_ENTRIES) :
    ∃ table', descLoop phys f info virt turns (virt + i * info.efi_memdesc_size) table =
        .ok table' ∧
      table'.entries = table.entries ++ ((descs phys info).drop i).map EfiMemoryDesc.entry := by
  have hpos : 0 < info.efi_memdesc_size := Nat.lt_of_lt_of_le (by decide) hstride
  have hend : add64 virt info.efi_memmap_size = virt + info.efi_memmap_size :=
    add64_eq (by omega)
  have hwhole : info.efi_memmap_size / info.efi_memdesc_size * info.efi_memdesc_size ≤
      info.efi_memmap_size := Nat.div_mul_le_self _ _
  have hi : i * info.efi_memdesc_size ≤ info.efi_memmap_size :=
    (Nat.mul_le_mul_right _ (by omega)).trans hwhole
  have hnext : add64 (virt + i * info.efi_memdesc_size) info.efi_memdesc_size =
      virt + (i + 1) * info.efi_memdesc_size := by
    rw [add64_eq (by omega), Nat.add_mul, Nat.one_mul, Nat.add_assoc]
  induction left generalizing i turns table with
  | zero =>
      obtain ⟨turns, rfl⟩ := Nat.exists_eq_add_of_lt hturns
      have hstop : ¬ virt + (i + 1) * info.efi_memdesc_size ≤ virt + info.efi_memmap_size := by
        intro hle
        have hmul : (i + 1) * info.efi_memdesc_size ≤ info.efi_memmap_size := by omega
        have hdiv := (Nat.le_div_iff_mul_le hpos).mpr hmul
        omega
      have hnone : (descs phys info).drop i = [] := by
        apply List.drop_eq_nil_of_le
        rw [descs, List.length_map, List.length_range]
        omega
      rw [descLoop, hnext, hend, if_neg hstop, hnone]
      exact ⟨table, rfl, (List.append_nil _).symm⟩
  | succ left ih =>
      obtain ⟨turns, rfl⟩ := Nat.exists_eq_add_of_lt (Nat.lt_of_le_of_lt (Nat.zero_le _) hturns)
      have hlt : i < info.efi_memmap_size / info.efi_memdesc_size := by omega
      have hmul : (i + 1) * info.efi_memdesc_size ≤ info.efi_memmap_size :=
        (Nat.mul_le_mul_right _ hlt).trans hwhole
      have hnext' : add64 (virt + (i + 1) * info.efi_memdesc_size) info.efi_memdesc_size =
          virt + (i + 1 + 1) * info.efi_memdesc_size := by
        rw [add64_eq (by omega), Nat.add_mul (i + 1), Nat.one_mul, Nat.add_assoc]
      have hdesc : readDesc phys f (virt + i * info.efi_memdesc_size) =
          .ok (descAt phys (info.efi_memmap + i * info.efi_memdesc_size)) := by
        apply readDesc_eq
        intro k hk
        rw [Nat.add_mul, Nat.one_mul] at hmul
        rw [Nat.add_assoc, Nat.add_assoc]
        exact htranslate _ (by omega)
      have hcons : (descs phys info).drop i =
          descAt phys (info.efi_memmap + i * info.efi_memdesc_size) ::
            (descs phys info).drop (i + 1) := by
        have hlength : i < (descs phys info).length := by
          rwa [descs, List.length_map, List.length_range]
        rw [List.drop_eq_getElem_cons hlength]
        simp [descs]
      obtain ⟨desc, hd⟩ : ∃ desc, desc = descAt phys (info.efi_memmap +
        i * info.efi_memdesc_size) := ⟨_, rfl⟩
      rw [← hd] at hdesc hcons
      have hlength : table.entries.length < E820_MAX_ENTRIES := by omega
      have hadd := e820RangeAdd_entries hlength desc.phys_addr
        (desc.num_pages * EFI_PAGE_SIZE % 2 ^ 64) (e820Type desc.type)
      have hroom' : (e820RangeAdd table desc.phys_addr
          (desc.num_pages * EFI_PAGE_SIZE % 2 ^ 64) (e820Type desc.type)).entries.length + left ≤
          E820_MAX_ENTRIES := by
        rw [hadd, List.length_append, List.length_singleton]
        omega
      have hturns' : left < 0 + turns := by omega
      obtain ⟨table', hloop, hentries⟩ := ih (by omega) hturns' _ hroom' hmul hnext'
      refine ⟨table', ?_, ?_⟩
      · rw [descLoop, hnext, hend, if_pos (by omega), hdesc]
        exact hloop
      · rw [hentries, hadd, hcons, List.map_cons, List.append_assoc]
        rfl

/-! ## The whole boot -/

theorem e820Type_eq_ram_iff (d : EfiMemoryDesc) : e820Type d.type = .RAM ↔ d.Usable := by
  have husable : d.Usable ↔ d.type = EFI_LOADER_CODE ∨ d.type = EFI_LOADER_DATA ∨
      d.type = EFI_BOOT_SERVICES_CODE ∨ d.type = EFI_BOOT_SERVICES_DATA ∨
      d.type = EFI_CONVENTIONAL_MEMORY := by
    simp only [EfiMemoryDesc.Usable, List.mem_cons, List.not_mem_nil, or_false]
  rw [husable, e820Type]
  split_ifs with h
  · exact iff_of_true rfl h
  all_goals exact iff_of_false nofun h

theorem ram_entries (hfits : ∀ d ∈ l, d.phys_addr + d.num_pages * EFI_PAGE_SIZE < 2 ^ 64) :
    ram (l.map EfiMemoryDesc.entry) = usable l := by
  induction l with
  | nil => rfl
  | cons d l ih =>
      obtain ⟨hd, hl⟩ := List.forall_mem_cons.mp hfits
      have hmod : d.num_pages * EFI_PAGE_SIZE % 2 ^ 64 = d.num_pages * EFI_PAGE_SIZE :=
        Nat.mod_eq_of_lt (by omega)
      have hrest := ih hl
      rw [ram, usable] at hrest ⊢
      by_cases h : d.Usable
      · have hram : d.entry.type = .RAM := (e820Type_eq_ram_iff d).mpr h
        rw [List.map_cons, List.filterMap_cons, List.filterMap_cons, if_pos hram, if_pos h, hrest,
          EfiMemoryDesc.entry, hmod, EfiMemoryDesc.range]
      · have hram : d.entry.type ≠ .RAM := mt (e820Type_eq_ram_iff d).mp h
        rw [List.map_cons, List.filterMap_cons, List.filterMap_cons, if_neg hram, if_neg h, hrest]

theorem mem_usable {r : Range} : r ∈ usable l ↔ ∃ d ∈ l, d.Usable ∧ d.range = r := by
  rw [usable, List.mem_filterMap]
  refine exists_congr fun d => and_congr_right fun _ => ?_
  split
  · rename_i h
    exact ⟨fun heq => ⟨h, Option.some.inj heq⟩, fun heq => congrArg some heq.2⟩
  · rename_i h
    exact iff_of_false nofun fun heq => h heq.1

theorem mem_bytesOf_usable {a : ℕ} :
    a ∈ bytesOf (usable l) ↔ ∃ d ∈ l, d.Usable ∧ a ∈ d.range.bytes := by
  constructor
  · rintro ⟨r, hr, ha⟩
    obtain ⟨d, hd, husable, rfl⟩ := mem_usable.mp hr
    exact ⟨d, hd, husable, ha⟩
  · rintro ⟨d, hd, husable, ha⟩
    exact ⟨d.range, mem_usable.mpr ⟨d, hd, husable, rfl⟩, ha⟩

/-- The walk and the translation leave the joined entries, and the allocator gets the
usable ones of them. -/
theorem bootMemory_eq (h : WellFormed phys fixmap info) (behind : Option MemblockRegion) :
    bootMemory phys behind fixmap info =
      (addRanges behind (ram (updateEntries ((descs phys info).map EfiMemoryDesc.entry)))
        memory).mapError .memblock := by
  obtain ⟨hstride, hfew, hfits, virt, mapped, unmapped, hmap, hvirt, htranslate, hunmap, hwrap⟩ := h
  have hturns : info.efi_memmap_size / info.efi_memdesc_size < info.efi_memmap_size + 1 :=
    Nat.lt_succ_of_le (Nat.div_le_self _ _)
  obtain ⟨table, hloop, hentries⟩ := descLoop_eq hstride htranslate hwrap (Nat.zero_add _) hturns
    e820Table (by rw [e820Table, List.length_nil, Nat.zero_add]; exact hfew)
  have hmd : virt + 0 * info.efi_memdesc_size = virt := by
    rw [Nat.zero_mul, Nat.add_zero]
  rw [hmd] at hloop
  rw [List.drop_zero, e820Table, List.nil_append] at hentries
  rw [← e820MemblockSetup_eq, ← hentries]
  have hadd : efiAddMemmap phys fixmap info =
      .ok (SUCCESS, unmapped, updateEntries table.entries) := by
    rw [efiAddMemmap, hmap]
    change (if virt = 0 then _ else _) = _
    rw [if_neg hvirt, hloop]
    change (do
      let unmapped ← liftFixmap (iounmap mapped virt info.efi_memmap_size)
      return (SUCCESS, unmapped, updateEntries table.entries)) = _
    rw [hunmap]
    rfl
  rw [bootMemory, hadd]
  rfl

/-- A table that records the usable bytes is what the map asks for. -/
theorem recordsMap_of_records {m : Memblock} (h : Records (bytesOf (usable l)) m) :
    RecordsMap m l := by
  obtain ⟨segs, slots, hproper, hmerged, hlength, hslots, rfl, hx, hcovered⟩ := h
  have hbytes : ∀ a, (lookup segs a).isSome ↔ ∃ d ∈ l, d.Usable ∧ a ∈ d.range.bytes := by
    intro a
    rw [← mem_bytesOf_usable, ← hcovered]
    rfl
  have hset : {a | ∃ d ∈ l, d.Usable ∧ a ∈ d.range.bytes} = covered segs := by
    ext a
    exact (hbytes a).symm
  have hcoalesced : Coalesced NR_REGIONS (table (segs.map toRegion) slots 0) :=
    ⟨segs, slots, hproper, hmerged, hlength, hslots, rfl⟩
  have hinv := hcoalesced.inv
  constructor
  · intro a
    rw [← tagAt_isSome_iff, tagAt_table hproper, hbytes]
  · rw [live_table]
    intro r hr
    obtain ⟨s, hs, rfl⟩ := List.mem_map.mp hr
    have htag : s.tag = (MEMBLOCK_NONE, -1) := hx s hs
    rw [toRegion, htag]
    exact ⟨rfl, rfl⟩
  · rw [memblockPhysMemSize, hinv.size_eq, live_table, hset, ← total_eq_ncard hproper.ordered,
      ← sizeSum_toRegion]
    rfl

/-- Whatever lies behind the array of the allocator, the table is right, or the assertion
of `insert_region` has stopped the boot: exactly if no usable range becomes the last
region of a full array. -/
theorem recordsMap_iff (h : WellFormed phys fixmap info)
    (hspace : bootMemory phys none fixmap info ≠ .error (.memblock .outOfSpace)) :
    (∀ behind, bootMemory phys behind fixmap info ≠ .error (.memblock .outOfSpace) →
      ∃ m, bootMemory phys behind fixmap info = .ok m ∧ RecordsMap m (descs phys info)) ↔
    NeverFills (usable (descs phys info)) := by
  have hentries : ∀ e ∈ (descs phys info).map EfiMemoryDesc.entry, e.Fits := by
    intro e he
    obtain ⟨d, hd, rfl⟩ := List.mem_map.mp he
    have hlt := h.fits d hd
    have hmod : d.num_pages * EFI_PAGE_SIZE % 2 ^ 64 = d.num_pages * EFI_PAGE_SIZE :=
      Nat.mod_eq_of_lt (by omega)
    show d.phys_addr + d.num_pages * EFI_PAGE_SIZE % 2 ^ 64 < 2 ^ 64
    rw [hmod]
    exact hlt
  have hjoined := updateEntries_joined hentries
  have hbytes := hjoined.bytesOf_eq
  have hnever := hjoined.neverFills_iff
  rw [ram_entries h.fits] at hbytes hnever
  have hranges : ∀ r ∈ ram (updateEntries ((descs phys info).map EfiMemoryDesc.entry)),
      r.start + r.size < 2 ^ 64 := by
    intro r hr
    obtain ⟨e, he, heq⟩ := List.mem_filterMap.mp hr
    split at heq
    · obtain rfl := Option.some.inj heq
      exact hjoined.fits hentries e he
    · exact absurd heq nofun
  constructor
  · intro hall
    obtain ⟨m, hok, -⟩ := hall none hspace
    rw [bootMemory_eq h] at hok
    cases hrun : addRanges none
        (ram (updateEntries ((descs phys info).map EfiMemoryDesc.entry))) memory with
    | error e =>
        rw [hrun] at hok
        exact absurd hok nofun
    | ok m' => exact hnever.mpr (neverFills_of_ok hranges hrun)
  · intro hfills behind hne
    have hrecords := addRanges_records behind hranges (hnever.mp hfills)
    rw [bootMemory_eq h] at hne ⊢
    cases hrun : addRanges behind
        (ram (updateEntries ((descs phys info).map EfiMemoryDesc.entry))) memory with
    | error e =>
        rw [hrun] at hrecords hne
        exact absurd (congrArg (fun e => Except.error (Fault.memblock e)) hrecords) hne
    | ok m =>
        rw [hrun] at hrecords
        rw [← hbytes] at hrecords
        exact ⟨m, rfl, recordsMap_of_records hrecords⟩

/-- Memory with a map of conventional memory at 1 MiB: of the pages from 0 on, every
second one. -/
def gapMap (a : ℕ) : UInt8 :=
  let i := (a - 0x100000) / 40
  match (a - 0x100000) % 40 with
  | 0 => 7
  | 9 => UInt8.ofNat (i * 32 % 256)
  | 10 => UInt8.ofNat (i / 8)
  | 24 => 1
  | _ => 0

/-- The first `n` descriptors of `gapMap`. -/
def gapInfo (n : ℕ) : EfiInfo := ⟨40, 40 * n, 0x100000⟩

theorem wellFormed_gapInfo {n : ℕ} (hpos : n ≠ 0) (hn : n ≤ 128)
    (hfits : ∀ d ∈ descs gapMap (gapInfo n),
      d.phys_addr + d.num_pages * EFI_PAGE_SIZE < 2 ^ 64) :
    WellFormed gapMap .start (gapInfo n) := by
  have hsize : 40 * n ≠ 0 := by omega
  have hcount : pageCount 0x100000 (40 * n) ≤ 512 := by
    rw [pageCount, if_neg hsize]
    omega
  obtain ⟨virt, mapped, unmapped, hmap, hvirt, htranslate, hunmap, hend⟩ :=
    memremap_free laid_start hsize (show 0x100000 + 40 * n ≤ 2 ^ 52 by omega)
      ⟨0, freeRun_start hcount⟩
  refine ⟨Nat.le_refl _, ?_, hfits, virt, mapped, unmapped, hmap, hvirt, htranslate, hunmap, ?_⟩
  · rw [gapInfo, Nat.mul_div_cancel_left n (by decide)]
    exact hn
  · show virt + 40 * n + 40 < 2 ^ 64
    omega

/-- Two descriptors. -/
theorem recordsMap_two :
    (∀ behind, bootMemory gapMap behind .start (gapInfo 2) ≠ .error (.memblock .outOfSpace) →
      ∃ m, bootMemory gapMap behind .start (gapInfo 2) = .ok m ∧
        RecordsMap m (descs gapMap (gapInfo 2))) ↔
    NeverFills (usable (descs gapMap (gapInfo 2))) := by
  have hwell := wellFormed_gapInfo (n := 2) (by decide) (by decide) (by decide +kernel)
  refine recordsMap_iff hwell ?_
  rw [bootMemory_eq hwell]
  decide +kernel

/-- A descriptor of `gapMap`. -/
def gapDesc (i : ℕ) : EfiMemoryDesc := ⟨EFI_CONVENTIONAL_MEMORY, i * 8192, 1⟩

theorem descs_gapMap : descs gapMap (gapInfo NR_REGIONS) = (List.range NR_REGIONS).map gapDesc := by
  have hdesc : ∀ i < NR_REGIONS, descAt gapMap (0x100000 + i * 40) = gapDesc i := by
    decide +kernel
  exact List.map_congr_left fun i hi => hdesc i (List.mem_range.mp hi)

theorem updateEntries_gapDesc :
    updateEntries ((List.range NR_REGIONS).map fun i => (gapDesc i).entry) =
      (List.range NR_REGIONS).map fun i => (gapDesc i).entry := by
  decide +kernel

theorem ram_gapDesc : ram ((List.range NR_REGIONS).map fun i => (gapDesc i).entry) =
    gaps NR_REGIONS := by
  rw [ram, List.filterMap_map, gaps, ← List.filterMap_eq_map]
  have htype : e820Type EFI_CONVENTIONAL_MEMORY = .RAM := by decide
  have hsize : 1 * EFI_PAGE_SIZE % 2 ^ 64 = 4096 := by decide
  refine List.filterMap_congr fun i _ => ?_
  rw [Function.comp_apply, Function.comp_apply, EfiMemoryDesc.entry, gapDesc, htype, hsize,
    if_pos rfl]

/-- The last of 128 descriptors becomes the last region of the full array, and
`merge_regions` reads behind it. -/
theorem not_recordsMap_full :
    WellFormed gapMap .start (gapInfo 128) ∧
      bootMemory gapMap none .start (gapInfo 128) ≠ .error (.memblock .outOfSpace) ∧
      ¬ ∃ m, bootMemory gapMap none .start (gapInfo 128) = .ok m ∧
        RecordsMap m (descs gapMap (gapInfo 128)) := by
  have hregions : NR_REGIONS = 128 := rfl
  have hfits : ∀ d ∈ descs gapMap (gapInfo 128),
      d.phys_addr + d.num_pages * EFI_PAGE_SIZE < 2 ^ 64 := by
    rw [← hregions, descs_gapMap]
    decide +kernel
  have hwell := wellFormed_gapInfo (n := 128) (by decide) (by decide) hfits
  obtain ⟨f, hf, hfill⟩ := gaps_fill
  have hboot : bootMemory gapMap none .start (gapInfo 128) = .error (.memblock f) := by
    rw [bootMemory_eq hwell, ← hregions, descs_gapMap, List.map_map]
    change (addRanges none (ram (updateEntries
      ((List.range NR_REGIONS).map fun i => (gapDesc i).entry))) memory).mapError _ = _
    rw [updateEntries_gapDesc, ram_gapDesc, hfill]
    rfl
  rw [hboot]
  refine ⟨hwell, ?_, ?_⟩
  · intro heq
    injection heq with heq
    injection heq with heq
    exact hf heq
  · rintro ⟨m, hm, -⟩
    exact absurd hm nofun

end Cyanea.Efi
