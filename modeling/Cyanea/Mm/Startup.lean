/-
# The early page tables

The kernel starts at its physical address, through identity-mapped tables that the loader
has left. `__startup_64` builds the kernel's first tables: they map the image where it is
linked, wherever it has been loaded, and for the switch also at its physical address. Once
the kernel runs where it is linked, `purge_ident_mapping` drops the second mapping, and from
then on `do_early_map` maps memory as page faults ask for it.
-/

import Cyanea.Mm.KernelAddress
import Cyanea.X86.Descent

namespace Cyanea.Mm

open X86

def EARLY_FREE_PAGES : ℕ := 64

/-- Where the image is linked: `_text`, `_end`, and the tables between them. -/
structure Symbols where
  text : ℕ
  kernelEnd : ℕ
  early_top_pgt : ℕ
  level2_kernel_pgt : ℕ
  level2_fixmap_pgt : ℕ
  level1_fixmap_pgt : ℕ
  early_pages : ℕ

/-- `early_pages[j]`. -/
def Symbols.earlyPage (k : Symbols) (j : ℕ) : ℕ := k.early_pages + PAGE_SIZE * j

/-- The pages that are tables, or may become tables. -/
def Symbols.pages (k : Symbols) : List ℕ :=
  [k.early_top_pgt, k.level2_kernel_pgt, k.level2_fixmap_pgt, k.level1_fixmap_pgt,
    k.level1_fixmap_pgt + PAGE_SIZE] ++ (List.range EARLY_FREE_PAGES).map k.earlyPage

/-- The kernel image. It starts at a large page, and fits into the 1 GiB behind
`__START_KERNEL_map`. -/
structure Kernel extends Symbols where
  text_map : START_KERNEL_map ≤ text
  end_map : kernelEnd ≤ START_KERNEL_map + PUD_SIZE
  text_aligned : PMD_SIZE ∣ text
  inside : ∀ p ∈ toSymbols.pages, text ≤ p ∧ p + PAGE_SIZE ≤ kernelEnd
  aligned : ∀ p ∈ toSymbols.pages, PAGE_SIZE ∣ p
  distinct : toSymbols.pages.Nodup

/-- The tables in memory, `next_page` and `phys_base`. -/
structure EarlyTables where
  mem : Tables
  next_page : ℕ
  phys_base : ℕ

/-- `table[i] = e`, at a physical address. -/
def EarlyTables.store (s : EarlyTables) (table i e : ℕ) : EarlyTables :=
  { s with mem := setEntry s.mem table i e }

/-- `memset(page, 0, PAGE_SIZE)`. -/
def EarlyTables.clear (s : EarlyTables) (page : ℕ) : EarlyTables :=
  { s with mem := Function.update s.mem page fun _ => 0 }

theorem EarlyTables.next_page_store (s : EarlyTables) (table i e : ℕ) :
    (s.store table i e).next_page = s.next_page := rfl

theorem EarlyTables.store_self (s : EarlyTables) (table i e : ℕ) :
    (s.store table i e).mem table i = e := setEntry_self s.mem table i e

theorem EarlyTables.store_of_ne {s : EarlyTables} {table i e b j : ℕ}
    (hne : ¬ (b = table ∧ j = i)) : (s.store table i e).mem b j = s.mem b j := setEntry_of_ne hne

theorem EarlyTables.clear_self (s : EarlyTables) (page i : ℕ) : (s.clear page).mem page i = 0 :=
  congrFun (Function.update_self page _ s.mem) i

theorem EarlyTables.clear_of_ne {s : EarlyTables} {page b : ℕ} (hne : b ≠ page) :
    (s.clear page).mem b = s.mem b := Function.update_of_ne hne _ s.mem

theorem EarlyTables.clear_eq {s : EarlyTables} {page : ℕ} (hempty : ∀ i, s.mem page i = 0) :
    s.clear page = s := by
  rw [clear, Function.update_eq_self_iff.mpr (funext hempty).symm]

/-- `__PAGE_KERNEL_LARGE_EXEC_NO_GLOBAL`. -/
def PAGE_KERNEL_LARGE_EXEC_NO_GLOBAL : ℕ := PAGE_KERNEL_LARGE_EXEC &&& not64 PAGE_GLOBAL

/-- `__PAGE_KERNEL_LARGE_NO_GLOBAL`. -/
def PAGE_KERNEL_LARGE_NO_GLOBAL : ℕ := PAGE_KERNEL_LARGE &&& not64 PAGE_GLOBAL

namespace Kernel

variable (k : Kernel)

/-- `RIP_REL_REF(symbol)`: where the symbol is while the code runs at its physical address. -/
def ripRel (load_phys_addr symbol : ℕ) : ℕ := add64 (sub64 symbol k.text) load_phys_addr

/-- `__get_free_page`. -/
def getFreePage (load_phys_addr : ℕ) (s : EarlyTables) : ℕ × EarlyTables :=
  (k.ripRel load_phys_addr (k.earlyPage s.next_page), { s with next_page := s.next_page + 1 })

/-- The table that `table[i]` points to; a free page, put there, if the entry is zero. -/
def tableOf (load_phys_addr table i : ℕ) (s : EarlyTables) : ℕ × EarlyTables :=
  if s.mem table i ≠ 0 then (s.mem table i &&& PG_PFN_MASK, s)
  else
    let (page, s) := k.getFreePage load_phys_addr s
    (page, s.store table i (page ||| KERNPG_TABLE))

/-- `ident_map`. -/
def identMap (pgd address load_phys_addr : ℕ) (s : EarlyTables) : EarlyTables :=
  let (pud, s) := k.tableOf load_phys_addr pgd (pgdIndex address) s
  let (pmd, s) := k.tableOf load_phys_addr pud (pudIndex address) s
  s.store pmd (pmdIndex address) (address ||| PAGE_KERNEL_LARGE_EXEC_NO_GLOBAL)

/-- `__KERNEL_DIV_ROUND_UP(_end - _text, PMD_SIZE)`. -/
def largePages : ℕ := (sub64 k.kernelEnd k.text + PMD_SIZE - 1) / PMD_SIZE

/-- The loop that maps the image where it is linked. -/
def mapKernel (pmd load_phys_addr count : ℕ) (s : EarlyTables) : EarlyTables :=
  (List.range count).foldl (fun s i =>
    s.store pmd (i + pmdIndex k.text)
      (add64 load_phys_addr (i * PMD_SIZE) ||| PAGE_KERNEL_LARGE_EXEC)) s

/-- The loop that maps the image where it has been loaded. -/
def mapIdent (pgd load_phys_addr count : ℕ) (s : EarlyTables) : EarlyTables :=
  (List.range count).foldl (fun s i =>
    k.identMap pgd (add64 load_phys_addr (i * PMD_SIZE)) load_phys_addr s) s

/-- `__startup_64`; `none` if it halts. -/
def startup64 (load_phys_addr : ℕ) (s : EarlyTables) : Option EarlyTables :=
  let pgd := k.ripRel load_phys_addr k.early_top_pgt
  let (pud, s) := k.getFreePage load_phys_addr s
  let pmd := k.ripRel load_phys_addr k.level2_kernel_pgt
  let pmd_fixmap := k.ripRel load_phys_addr k.level2_fixmap_pgt
  let pt_fixmap_1 := k.ripRel load_phys_addr k.level1_fixmap_pgt
  let pt_fixmap_2 := k.ripRel load_phys_addr (k.level1_fixmap_pgt + PAGE_SIZE)
  let load_delta := sub64 load_phys_addr (physAddrKernel k.text)
  let s := { s with phys_base := load_delta }
  -- `IS_ALIGNED(load_delta, PMD_SHIFT)`
  if load_delta &&& (PMD_SHIFT - 1) ≠ 0 then none
  else
    let s := s.store pgd (pgdIndex START_KERNEL_map) (pud ||| KERNPG_TABLE)
    let s := s.store pud (pudIndex START_KERNEL_map) (pmd ||| KERNPG_TABLE)
    let s := s.store pud (pudIndex START_KERNEL_map + 1) (pmd_fixmap ||| KERNPG_TABLE)
    let s := k.mapKernel pmd load_phys_addr k.largePages s
    let s := s.store pmd_fixmap 511 (pt_fixmap_2 ||| KERNPG_TABLE)
    let s := s.store pmd_fixmap 510 (pt_fixmap_1 ||| KERNPG_TABLE)
    some (k.mapIdent pgd load_phys_addr k.largePages s)

/-- The processor translates by `early_top_pgt`, which is at this physical address. -/
def walk (s : EarlyTables) (x : ℕ) : Option ℕ :=
  X86.walk s.mem (physAddr s.phys_base k.early_top_pgt) x

/-- `purge_ident_mapping`: the entries of the root below the last are cleared. -/
def purgeIdentMapping (s : EarlyTables) : EarlyTables :=
  let root := physAddr s.phys_base k.early_top_pgt
  { s with
    mem := Function.update s.mem root fun i => if i < PTRS_PER_PGD - 1 then 0 else s.mem root i
    next_page := 1 }

/-- `get_free_zero_page`. -/
def getFreeZeroPage (s : EarlyTables) : Option (ℕ × EarlyTables) :=
  if s.next_page < EARLY_FREE_PAGES then
    let page := k.earlyPage s.next_page
    let s := { s with next_page := s.next_page + 1 }
    some (page, s.clear (physAddr s.phys_base page))
  else none

/-- `__va_symbol(x)`. -/
def vaSymbol (s : EarlyTables) (x : ℕ) : ℕ := sub64 (add64 x START_KERNEL_map) s.phys_base

/-- `__pa_symbol(x)`. -/
def paSymbol (s : EarlyTables) (x : ℕ) : ℕ := add64 (physAddrKernel x) s.phys_base

/-- A large page of the direct mapping is put into `pmd`. -/
def mapLarge (pmd address : ℕ) (s : EarlyTables) : EarlyTables :=
  s.store (physAddr s.phys_base pmd) (pmdIndex address)
    (sub64 address PAGE_OFFSET &&& PMD_MASK ||| PAGE_KERNEL_LARGE_NO_GLOBAL)

/-- `do_early_map`; `none` if it stops at "out-of-bound memory access during boot." -/
def doEarlyMap (address : ℕ) (s : EarlyTables) : Option (Bool × EarlyTables) :=
  let pgdEntry := s.mem (physAddr s.phys_base k.early_top_pgt) (pgdIndex address)
  if pgdEntry = 0 then none
  else
    let pud := vaSymbol s (pgdEntry &&& PG_PFN_MASK)
    let pudEntry := s.mem (physAddr s.phys_base pud) (pudIndex address)
    if pudEntry ≠ 0 then
      some (true, mapLarge (vaSymbol s (pudEntry &&& PG_PFN_MASK)) address s)
    else
      match k.getFreeZeroPage s with
      | none => some (false, s)
      | some (pmd, s) =>
        let s := s.store (physAddr s.phys_base pud) (pudIndex address)
          (paSymbol s pmd ||| KERNPG_TABLE)
        some (true, mapLarge pmd address s)

end Kernel

end Cyanea.Mm
