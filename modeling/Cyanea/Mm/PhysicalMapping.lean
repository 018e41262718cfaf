/-
# Filling the direct mapping

`physical_mapping_init` maps a range of physical memory at `PAGE_OFFSET`, with pages of one
size. It descends through the four levels, one builder for each: a builder goes over the
entries of its table that the range meets, enters the table that an entry points to, or
takes a new page for a table, or maps a page. A table is reached through a kernel pointer,
and the early page tables show the physical page that `__pa` gives for it.
-/

import Cyanea.Math.Run
import Cyanea.Math.Simulation
import Cyanea.Mm.KernelAddress
import Cyanea.X86.Tables

namespace Cyanea.Mm

open Cyanea.Math (Ends)
open Cyanea.Math.Simulation (ok_bind error_bind)
open X86

/-- The assertions that stop the kernel. -/
inductive Stop where
  /-- "not enough memory to init page table." -/
  | notEnoughMemory
  /-- "memory already mapped." -/
  | alreadyMapped
  /-- "unable to map page." -/
  | unableToMap
  /-- "direct mapping overlap with '__START_KERNEL_map'." -/
  | overlap
  deriving DecidableEq, Repr

/-- The kernel image: its root table and the pages behind it, as the linker places them, and
`phys_base`, which says where it was loaded. The pages are in the kernel's window, and in
memory that the direct mapping can show. -/
structure Image where
  phys_base : ℕ
  init_top_pgt : ℕ
  brk_base : ℕ
  BRK_ALLOC_PAGES : ℕ
  brk_kernel : START_KERNEL_map ≤ brk_base
  brk_limit : brk_base + PAGE_SIZE * BRK_ALLOC_PAGES ≤ 2 ^ 64
  brk_aligned : PAGE_SIZE ∣ physAddr phys_base brk_base
  brk_low : physAddr phys_base brk_base + PAGE_SIZE * BRK_ALLOC_PAGES ≤ DIRECT_SIZE

/-- The tables in memory, and `next_page`. -/
structure InitTables where
  mem : Tables
  next_page : ℕ

namespace Image

variable (img : Image)

/-- `__pa(x)`. -/
def pa (x : ℕ) : ℕ := physAddr img.phys_base x

/-- `__brk_alloc[j]`. -/
def brkPage (j : ℕ) : ℕ := img.brk_base + PAGE_SIZE * j

/-- `table[i]`. -/
def load (s : InitTables) (table i : ℕ) : ℕ := s.mem (img.pa table) i

/-- `table[i] = e`, which `pte_set`, `pmd_set`, `pud_set` and `pgd_set` do. -/
def store (s : InitTables) (table i e : ℕ) : InitTables :=
  { s with mem := setEntry s.mem (img.pa table) i e }

/-- `memset(page, 0, PAGE_SIZE)`. -/
def clear (mem : Tables) (page : ℕ) : Tables :=
  Function.update mem (img.pa page) fun _ => 0

/-- `alloc_pages`. -/
def allocPages (num : ℕ) (s : InitTables) : Except Stop (ℕ × InitTables) :=
  if s.next_page + num < img.BRK_ALLOC_PAGES then
    .ok (img.brkPage s.next_page,
      { mem := (List.range num).foldl (fun mem j => img.clear mem (img.brkPage (s.next_page + j)))
          s.mem
        next_page := s.next_page + num })
  else .error .notEnoughMemory

/-- A function that maps the part of a range that a table covers. -/
abbrev Builder := (table start rangeEnd : ℕ) → PageSize → InitTables → Except Stop InitTables

/-- `for (; i < 512 && vaddr < vaddr_end; i++) { …; vaddr = (vaddr & mask) + size; }` -/
def entryLoop (mask size vaddr_end : ℕ) (body : ℕ → ℕ → InitTables → Except Stop InitTables) :
    ℕ → ℕ → ℕ → InitTables → Except Stop InitTables
  | 0, _, _, s => .ok s
  | turns + 1, i, vaddr, s =>
    if vaddr < vaddr_end then do
      let s ← body i vaddr s
      entryLoop mask size vaddr_end body turns (i + 1) (add64 (vaddr &&& mask) size) s
    else .ok s

/-- The turn of `physical_pt_init`, which maps a page whatever the size asked for. -/
def pageTurn (pt : ℕ) (i vaddr : ℕ) (s : InitTables) : Except Stop InitTables :=
  if entryFlags (img.load s pt i) &&& PAGE_PRESENT ≠ 0 then .error .alreadyMapped
  else .ok (img.store s pt i (img.pa vaddr ||| checkPgprot PAGE_KERNEL))

/-- `physical_pt_init`. -/
def physicalPtInit : Builder := fun pt start rangeEnd _ s =>
  entryLoop PAGE_MASK PAGE_SIZE (va rangeEnd) (img.pageTurn pt)
    (PTRS_PER_PT - pteIndex (va start)) (pteIndex (va start)) (va start) s

/-- A new table, filled by `init` and put into `table[i]`. -/
def newTable (init : Builder) (table vaddr_end : ℕ) (ps : PageSize) (i vaddr : ℕ)
    (s : InitTables) : Except Stop InitTables := do
  let (t, s) ← img.allocPages 1 s
  let s ← init t (img.pa vaddr) (img.pa vaddr_end) ps s
  return img.store s table i (img.pa t ||| KERNPG_TABLE)

/-- The turn of `physical_pmd_init` and of `physical_pud_init`: a page of the size `own`
belongs into this table, and `init` fills the tables of the level below. -/
def largeTurn (own : PageSize) (largeMask : ℕ) (init : Builder) (table vaddr_end : ℕ)
    (ps : PageSize) (i vaddr : ℕ) (s : InitTables) : Except Stop InitTables :=
  let e := img.load s table i
  if largeFlags largeMask e &&& PAGE_PRESENT ≠ 0 then
    if ps = own then .error .unableToMap
    else if largeFlags largeMask e &&& PAGE_PSE ≠ 0 then .error .alreadyMapped
    else init (va (e &&& pfnMask largeMask e)) (img.pa vaddr) (img.pa vaddr_end) ps s
  else if ps = own then .ok (img.store s table i (img.pa vaddr ||| checkPgprot PAGE_KERNEL_LARGE))
  else img.newTable init table vaddr_end ps i vaddr s

/-- `physical_pmd_init`. -/
def physicalPmdInit : Builder := fun pmd start rangeEnd ps s =>
  entryLoop PMD_MASK PMD_SIZE (va rangeEnd)
    (img.largeTurn .PAGE_SIZE_2M PHYSICAL_PMD_PAGE_MASK img.physicalPtInit pmd (va rangeEnd) ps)
    (PTRS_PER_PMD - pmdIndex (va start)) (pmdIndex (va start)) (va start) s

/-- `physical_pud_init`. -/
def physicalPudInit : Builder := fun pud start rangeEnd ps s =>
  entryLoop PUD_MASK PUD_SIZE (va rangeEnd)
    (img.largeTurn .PAGE_SIZE_1G PHYSICAL_PUD_PAGE_MASK img.physicalPmdInit pud (va rangeEnd) ps)
    (PTRS_PER_PUD - pudIndex (va start)) (pudIndex (va start)) (va start) s

/-- The turn of `physical_mapping_init`: the root maps no page by itself. -/
def rootTurn (pgd vaddr_end : ℕ) (ps : PageSize) (i vaddr : ℕ) (s : InitTables) :
    Except Stop InitTables :=
  let e := img.load s pgd i
  if entryFlags e &&& PAGE_PRESENT ≠ 0 then
    img.physicalPudInit (va (e &&& PG_PFN_MASK)) (img.pa vaddr) (img.pa vaddr_end) ps s
  else img.newTable img.physicalPudInit pgd vaddr_end ps i vaddr s

/-- `physical_mapping_init`. -/
def physicalMappingInit (start rangeEnd : ℕ) (ps : PageSize) (s : InitTables) :
    Except Stop InitTables :=
  if va rangeEnd < START_KERNEL_map then
    entryLoop PGD_MASK PGD_SIZE (va rangeEnd) (img.rootTurn img.init_top_pgt (va rangeEnd) ps)
      (PTRS_PER_PGD - pgdIndex (va start)) (pgdIndex (va start)) (va start) s
  else .error .overlap

variable {img} {start rangeEnd : ℕ} {ps : PageSize} {s : InitTables}

theorem physicalMappingInit_below (hend : va rangeEnd < START_KERNEL_map) :
    img.physicalMappingInit start rangeEnd ps s =
      entryLoop PGD_MASK PGD_SIZE (va rangeEnd) (img.rootTurn img.init_top_pgt (va rangeEnd) ps)
        (PTRS_PER_PGD - pgdIndex (va start)) (pgdIndex (va start)) (va start) s := by
  rw [physicalMappingInit, if_pos hend]

theorem physicalMappingInit_above (hend : START_KERNEL_map ≤ va rangeEnd) :
    img.physicalMappingInit start rangeEnd ps s = .error .overlap := by
  rw [physicalMappingInit, if_neg (not_lt.mpr hend)]

-- The assertion compares large numbers, which are not to be evaluated.
attribute [irreducible] physicalMappingInit

variable (img)

/-- What the processor translates an address to, once the root is in use. -/
def walk (s : InitTables) (x : ℕ) : Option ℕ := X86.walk s.mem (img.pa img.init_top_pgt) x

end Image

end Cyanea.Mm
