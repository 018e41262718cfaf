/-
# Page constants

The page sizes, masks and entry flags of the kernel, the index macros of the four
levels, and what they come to in the processor's terms. A leading underscore of the
source is dropped: `_PAGE_PRESENT` is `PAGE_PRESENT` here.
-/

import Cyanea.Word
import Cyanea.X86.Paging

namespace Cyanea.Mm

open X86

def PAGE_SHIFT : ℕ := 12
def PAGE_SIZE : ℕ := 2 ^ PAGE_SHIFT
def PAGE_MASK : ℕ := not64 (PAGE_SIZE - 1)
def PTRS_PER_PT : ℕ := 512

def PMD_SHIFT : ℕ := 21
def PMD_SIZE : ℕ := 1 <<< 21
def PMD_MASK : ℕ := not64 (PMD_SIZE - 1)
def PTRS_PER_PMD : ℕ := 512

def PUD_SHIFT : ℕ := 30
def PUD_SIZE : ℕ := 1 <<< 30
def PUD_MASK : ℕ := not64 (PUD_SIZE - 1)
def PTRS_PER_PUD : ℕ := 512

def PGD_SHIFT : ℕ := 39
def PGD_SIZE : ℕ := 1 <<< 39
def PGD_MASK : ℕ := not64 (PGD_SIZE - 1)
def PTRS_PER_PGD : ℕ := 512

/-- `ALIGN_KERNEL(a, PAGE_SIZE)`. -/
def pageAlign (a : ℕ) : ℕ := add64 a (PAGE_SIZE - 1) &&& not64 (PAGE_SIZE - 1)

def offsetInPage (p : ℕ) : ℕ := p &&& not64 PAGE_MASK

def pteIndex (a : ℕ) : ℕ := (a >>> PAGE_SHIFT) &&& (PTRS_PER_PT - 1)

def pmdIndex (a : ℕ) : ℕ := (a >>> PMD_SHIFT) &&& (PTRS_PER_PMD - 1)

def pudIndex (a : ℕ) : ℕ := (a >>> PUD_SHIFT) &&& (PTRS_PER_PUD - 1)

def pgdIndex (a : ℕ) : ℕ := (a >>> PGD_SHIFT) &&& (PTRS_PER_PGD - 1)

/-- `enum page_size`. -/
inductive PageSize
  | PAGE_SIZE_4K
  | PAGE_SIZE_2M
  | PAGE_SIZE_1G
  deriving DecidableEq, Repr

def PAGE_PRESENT : ℕ := 1 <<< 0
def PAGE_RW : ℕ := 1 <<< 1
def PAGE_ACCESSED : ℕ := 1 <<< 5
def PAGE_DIRTY : ℕ := 1 <<< 6
def PAGE_PSE : ℕ := 1 <<< 7
def PAGE_GLOBAL : ℕ := 1 <<< 8
def PAGE_XD : ℕ := 1 <<< 63

def PAGE_BIT_PWT : ℕ := 3
def PAGE_BIT_PCD : ℕ := 4
def PAGE_BIT_PAT : ℕ := 7

/-- `__PAGE_KERNEL`, and `PAGE_KERNEL`, which wraps it. -/
def PAGE_KERNEL : ℕ :=
  PAGE_PRESENT ||| PAGE_RW ||| PAGE_ACCESSED ||| PAGE_XD ||| PAGE_DIRTY ||| PAGE_GLOBAL

def KERNPG_TABLE : ℕ := PAGE_PRESENT ||| PAGE_RW ||| PAGE_ACCESSED ||| PAGE_DIRTY

/-- `__PAGE_KERNEL_LARGE`, and `PAGE_KERNEL_LARGE`, which wraps it. -/
def PAGE_KERNEL_LARGE : ℕ :=
  PAGE_PRESENT ||| PAGE_RW ||| PAGE_ACCESSED ||| PAGE_XD ||| PAGE_DIRTY ||| PAGE_PSE ||| PAGE_GLOBAL

/-- `__PAGE_KERNEL_LARGE_EXEC`. -/
def PAGE_KERNEL_LARGE_EXEC : ℕ :=
  PAGE_PRESENT ||| PAGE_RW ||| PAGE_ACCESSED ||| PAGE_DIRTY ||| PAGE_PSE ||| PAGE_GLOBAL

/-- `__PHYSICAL_MASK`. -/
def PHYSICAL_MASK : ℕ := 2 ^ 52 - 1

/-- `PG_PFN_MASK`, which is `PHYSICAL_PAGE_MASK`. -/
def PG_PFN_MASK : ℕ := PHYSICAL_MASK &&& PAGE_MASK

def PHYSICAL_PMD_PAGE_MASK : ℕ := PHYSICAL_MASK &&& PMD_MASK

def PHYSICAL_PUD_PAGE_MASK : ℕ := PHYSICAL_MASK &&& PUD_MASK

/-- `pmd_pfn_mask` and `pud_pfn_mask`, with the mask of a large page of the level. -/
def pfnMask (largeMask e : ℕ) : ℕ := if e &&& PAGE_PSE ≠ 0 then largeMask else PG_PFN_MASK

/-- `pgd_flags(x)` and `pte_flags(x)`. -/
def entryFlags (e : ℕ) : ℕ := e &&& not64 PG_PFN_MASK

/-- `pmd_flags` and `pud_flags`, with the mask of a large page of the level. -/
def largeFlags (largeMask e : ℕ) : ℕ := e &&& not64 (pfnMask largeMask e)

/-- `__supported_pte_mask`, the bits supported by hardware: `-1`, all of them. -/
def supported_pte_mask : ℕ := 2 ^ 64 - 1

/-- `check_pgprot`. -/
def checkPgprot (protval : ℕ) : ℕ :=
  if protval &&& PAGE_PRESENT ≠ 0 then protval &&& supported_pte_mask else protval

/-! ## Cache modes -/

/-- `enum page_cache_mode`. -/
inductive PageCacheMode where
  | WB
  | WT
  | UC_MINUS
  | UC
  | WC
  | WP
  deriving DecidableEq, Repr

/-- `__idx_pat2pte`: the flags that select an entry of the PAT. -/
def idxPat2pte (i : ℕ) : ℕ :=
  (i &&& 4) <<< (PAGE_BIT_PAT - 2) ||| (i &&& 2) <<< (PAGE_BIT_PCD - 1) |||
    (i &&& 1) <<< PAGE_BIT_PWT

/-- `__cachemode_to_pte`, which holds `__idx_pat2pte` of one of the eight PAT entries for
each mode at any time, whatever the PAT was programmed to. -/
abbrev CachemodeToPte := PageCacheMode → Fin 8

def cachemode2protval (modes : CachemodeToPte) (pcm : PageCacheMode) : ℕ :=
  if pcm = .WB then 0 else idxPat2pte (modes pcm)

def PAGE_KERNEL_NOCACHE (modes : CachemodeToPte) : ℕ :=
  PAGE_KERNEL ||| cachemode2protval modes .UC

/-! ## In the processor's terms -/

theorem and_PAGE_MASK {a : ℕ} (ha : a < 2 ^ 64) : a &&& PAGE_MASK = 2 ^ 12 * (a / 2 ^ 12) :=
  and_not64_eq ha (by decide)

theorem not64_PAGE_MASK : not64 PAGE_MASK = 2 ^ 12 - 1 := by decide

theorem offsetInPage_eq (p : ℕ) : offsetInPage p = p % 2 ^ 12 := by
  rw [offsetInPage, not64_PAGE_MASK, Nat.and_two_pow_sub_one_eq_mod]

theorem pageAlign_eq {a : ℕ} (ha : a + (2 ^ 12 - 1) < 2 ^ 64) :
    pageAlign a = 2 ^ 12 * ((a + (2 ^ 12 - 1)) / 2 ^ 12) := by
  rw [pageAlign, show PAGE_SIZE = 2 ^ 12 from rfl, add64_eq ha]
  exact and_not64_eq ha (by decide)

theorem pteIndex_eq (a : ℕ) : pteIndex a = index 0 a := by
  rw [pteIndex, show PTRS_PER_PT - 1 = 2 ^ 9 - 1 from rfl, Nat.and_two_pow_sub_one_eq_mod,
    Nat.shiftRight_eq_div_pow]
  rfl

theorem pmdIndex_eq (a : ℕ) : pmdIndex a = index 1 a := by
  rw [pmdIndex, show PTRS_PER_PMD - 1 = 2 ^ 9 - 1 from rfl, Nat.and_two_pow_sub_one_eq_mod,
    Nat.shiftRight_eq_div_pow]
  rfl

theorem pudIndex_eq (a : ℕ) : pudIndex a = index 2 a := by
  rw [pudIndex, show PTRS_PER_PUD - 1 = 2 ^ 9 - 1 from rfl, Nat.and_two_pow_sub_one_eq_mod,
    Nat.shiftRight_eq_div_pow]
  rfl

theorem pgdIndex_eq (a : ℕ) : pgdIndex a = index 3 a := by
  rw [pgdIndex, show PTRS_PER_PGD - 1 = 2 ^ 9 - 1 from rfl, Nat.and_two_pow_sub_one_eq_mod,
    Nat.shiftRight_eq_div_pow]
  rfl

theorem and_PG_PFN_MASK (e : ℕ) : e &&& PG_PFN_MASK = address e := by
  have hlt : e % 2 ^ 52 < 2 ^ 64 := (Nat.mod_lt e (by decide)).trans (by decide)
  rw [PG_PFN_MASK, ← Nat.and_assoc, PHYSICAL_MASK, Nat.and_two_pow_sub_one_eq_mod,
    and_PAGE_MASK hlt, address]
  omega

/-- A test of one flag that the mask keeps. -/
theorem flag_iff {e mask i : ℕ} (hmask : mask.testBit i = true) :
    (e &&& mask) &&& 1 <<< i ≠ 0 ↔ e.testBit i = true := by
  rw [Nat.one_shiftLeft, Nat.and_two_pow, Nat.testBit_and, hmask, Bool.and_true]
  cases e.testBit i <;> simp

theorem entryFlags_present (e : ℕ) :
    entryFlags e &&& PAGE_PRESENT ≠ 0 ↔ e.testBit 0 = true :=
  flag_iff (by decide)

section LargeFlags

variable {largeMask : ℕ}
  (hlarge : largeMask = PHYSICAL_PMD_PAGE_MASK ∨ largeMask = PHYSICAL_PUD_PAGE_MASK) (e : ℕ)

include hlarge

theorem largeFlags_flag {i : ℕ} (hi : i = 0 ∨ i = 7) :
    largeFlags largeMask e &&& 1 <<< i ≠ 0 ↔ e.testBit i = true := by
  rw [largeFlags, pfnMask]
  refine flag_iff ?_
  obtain rfl | rfl := hlarge <;> obtain rfl | rfl := hi <;> split <;> decide

theorem largeFlags_present : largeFlags largeMask e &&& PAGE_PRESENT ≠ 0 ↔ e.testBit 0 = true :=
  largeFlags_flag hlarge e (.inl rfl)

theorem largeFlags_PSE : largeFlags largeMask e &&& PAGE_PSE ≠ 0 ↔ e.testBit 7 = true :=
  largeFlags_flag hlarge e (.inr rfl)

end LargeFlags

/-- The address in an entry without the page size bit. -/
theorem and_pfnMask {largeMask e : ℕ} (hps : e.testBit 7 = false) :
    e &&& pfnMask largeMask e = address e := by
  have hnone : ¬ (e &&& PAGE_PSE ≠ 0) := by
    rw [PAGE_PSE, Nat.one_shiftLeft, Nat.and_two_pow, hps]
    simp
  rw [pfnMask, if_neg hnone, and_PG_PFN_MASK]

end Cyanea.Mm
