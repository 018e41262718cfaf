/-
# Allocating aligned pages

The model of `efi_allocate_pages` in `efi-boot/efi.c`. The firmware aligns to its own page
size only. For more than that, the code asks for as many pages more as the alignment can
cost, and gives those in front of and behind the aligned part back. The firmware is a
function here, from a memory type and a number of pages to a status and an address.
-/

import Cyanea.Boot.ExitBootServices
import Cyanea.Efi.MemoryMap
import Cyanea.Memory.Frames
import Mathlib.Tactic.Ring

namespace Cyanea.Efi

open Boot (EFI_SUCCESS)
open Memory (alignKernel alignKernel_eq roundUp roundUp_eq)

def EFI_ALLOC_ALIGN : ℕ := EFI_PAGE_SIZE

/-- The calls of `free_pages`, with their arguments. The block at `addr` begins `e` pages
behind an aligned address. -/
def freeSurplus (addr alloc_addr size : ℕ) (extra e : ℤ) : List (ℕ × ℕ) :=
  if extra ≠ 0 then
    let (freed, extra) :=
      if e ≠ 0 then ([(addr, wordOfInt (extra - e + 1))], e - 1) else ([], extra)
    if extra ≠ 0 then freed ++ [(add64 alloc_addr size, wordOfInt extra)] else freed
  else []

/-- The status, what `*alloc_addr` is set to, and what is given back. -/
def efiAllocatePages (allocate_pages : ℕ → ℕ → ℕ × ℕ) (size align memory_type : ℕ) :
    ℕ × Option ℕ × List (ℕ × ℕ) :=
  let align := if align < EFI_ALLOC_ALIGN then EFI_ALLOC_ALIGN else align
  let extra := intOfWord (sub64 (align / EFI_PAGE_SIZE) 1)
  let size := roundUp size EFI_ALLOC_ALIGN
  let (status, addr) :=
    allocate_pages memory_type (add64 (size / EFI_PAGE_SIZE) (wordOfInt extra))
  if status ≠ EFI_SUCCESS then
    (status, none, [])
  else
    let alloc_addr := alignKernel addr align
    let e := intOfWord ((addr &&& sub64 align 1) / EFI_PAGE_SIZE)
    (EFI_SUCCESS, some alloc_addr, freeSurplus addr alloc_addr size extra e)

/-! ## What is asked for -/

/-- The pages of a run, given by its address and its number of pages. -/
def pages (run : ℕ × ℕ) : List ℕ := List.range' run.1 run.2 EFI_PAGE_SIZE

/-- The number of pages that hold `size` bytes. -/
def sizePages (size : ℕ) : ℕ := (size + (EFI_PAGE_SIZE - 1)) / EFI_PAGE_SIZE

/-- The number of pages in which there is an aligned run for `size` bytes. -/
def blockPages (size align : ℕ) : ℕ :=
  sizePages size + (max align EFI_PAGE_SIZE / EFI_PAGE_SIZE - 1)

/-- Of a block one run of pages is kept: the pages given back are outside the run and inside
the block, none is given back twice, and with the run they are the block. -/
structure Trims (block kept : ℕ × ℕ) (freed : List (ℕ × ℕ)) : Prop where
  disjoint : ∀ page ∈ freed.flatMap pages,
    page + EFI_PAGE_SIZE ≤ kept.1 ∨ kept.1 + kept.2 * EFI_PAGE_SIZE ≤ page
  within : ∀ page ∈ freed.flatMap pages,
    block.1 ≤ page ∧ page + EFI_PAGE_SIZE ≤ block.1 + block.2 * EFI_PAGE_SIZE
  once : (freed.flatMap pages).Nodup
  whole : (freed.flatMap pages ++ pages kept).Perm (pages block)

theorem sizePages_eq (size : ℕ) : sizePages size = (size + 4095) / 4096 := rfl

theorem sizePages_pos {size : ℕ} (h : 0 < size) : 0 < sizePages size := by
  rw [sizePages_eq]
  omega

/-! ## Runs of pages -/

theorem mem_pages {page addr n : ℕ} :
    page ∈ pages (addr, n) ↔ ∃ i < n, page = addr + EFI_PAGE_SIZE * i :=
  List.mem_range'

theorem pages_add (addr m n : ℕ) :
    pages (addr, m + n) = pages (addr, m) ++ pages (addr + EFI_PAGE_SIZE * m, n) :=
  List.range'_append.symm

theorem nodup_pages (run : ℕ × ℕ) : (pages run).Nodup := List.nodup_range' EFI_PAGE_SIZE (by decide)

/-- Some pages of a block are given back at its front, and some at its end. -/
theorem trims_of_ends {addr lead m trail : ℕ} {freed : List (ℕ × ℕ)}
    (h : freed.flatMap pages =
      pages (addr, lead) ++ pages (addr + EFI_PAGE_SIZE * (lead + m), trail)) :
    Trims (addr, lead + m + trail) (addr + EFI_PAGE_SIZE * lead, m) freed := by
  have hwhole : (freed.flatMap pages ++ pages (addr + EFI_PAGE_SIZE * lead, m)).Perm
      (pages (addr, lead + m + trail)) := by
    rw [h, pages_add addr (lead + m), pages_add addr lead, List.append_assoc, List.append_assoc]
    exact List.perm_append_comm.append_left _
  have hmem : ∀ page ∈ freed.flatMap pages,
      (∃ i < lead, page = addr + EFI_PAGE_SIZE * i) ∨
        ∃ i < trail, page = addr + EFI_PAGE_SIZE * (lead + m) + EFI_PAGE_SIZE * i := by
    intro page hpage
    rw [h, List.mem_append, mem_pages, mem_pages] at hpage
    exact hpage
  have hsize : EFI_PAGE_SIZE = 4096 := rfl
  refine ⟨?_, ?_, ?_, hwhole⟩
  · intro page hpage
    obtain ⟨i, hi, rfl⟩ | ⟨i, hi, rfl⟩ := hmem page hpage
    · simp only [hsize]
      omega
    · simp only [hsize]
      omega
  · intro page hpage
    obtain ⟨i, hi, rfl⟩ | ⟨i, hi, rfl⟩ := hmem page hpage
    · simp only [hsize]
      omega
    · simp only [hsize]
      omega
  · exact (List.nodup_append.mp (hwhole.nodup_iff.mpr (nodup_pages _))).1

/-! ## The arithmetic -/

theorem roundUp_size {size : ℕ} (h : sizePages size < 2 ^ 31) :
    roundUp size EFI_ALLOC_ALIGN = 4096 * sizePages size := by
  have hlt : size + (2 ^ 12 - 1) < 2 ^ 64 := by
    rw [sizePages_eq] at h
    omega
  rw [show EFI_ALLOC_ALIGN = 2 ^ 12 from rfl, roundUp_eq (by decide) hlt]
  simp only [Nat.reducePow, Nat.reduceSub, sizePages_eq]

/-- The pages in front of the first one whose number is a multiple of `a`. -/
def leading (a q : ℕ) : ℕ := if q % a = 0 then 0 else a - q % a

theorem leading_lt {a : ℕ} (ha : 0 < a) (q : ℕ) : leading a q < a := by
  rw [leading]
  split <;> omega

/-- Where the aligned part begins. -/
theorem roundUp_pages {a : ℕ} (ha : 0 < a) (q : ℕ) :
    4096 * a * ((4096 * q + (4096 * a - 1)) / (4096 * a)) = 4096 * (q + leading a q) := by
  have hq := Nat.div_add_mod q a
  have hmod := Nat.mod_lt q ha
  have hup : (4096 * q + (4096 * a - 1)) / (4096 * a) =
      if q % a = 0 then q / a else q / a + 1 := by
    have hlow : q / a * (4096 * a) = 4096 * (a * (q / a)) := by ring
    have hhigh : (q / a + 1) * (4096 * a) = 4096 * (a * (q / a)) + 4096 * a := by ring
    have hnext : (q / a + 1 + 1) * (4096 * a) = 4096 * (a * (q / a)) + 4096 * a + 4096 * a := by
      ring
    split
    · apply Nat.div_eq_of_lt_le
      · omega
      · omega
    · apply Nat.div_eq_of_lt_le
      · omega
      · omega
  rw [hup, leading]
  split
  · rw [Nat.mul_assoc]
    omega
  · rw [Nat.mul_assoc, Nat.mul_add]
    omega

theorem words_of_pages {n : ℕ} : 4096 * n / EFI_PAGE_SIZE = n :=
  Nat.mul_div_cancel_left n (by decide)

theorem extra_eq {a : ℕ} (ha : 0 < a) (hint : a - 1 < 2 ^ 31) :
    intOfWord (sub64 (4096 * a / EFI_PAGE_SIZE) 1) = (a - 1 : ℕ) := by
  rw [words_of_pages, sub64_eq ha (by omega), intOfWord_eq hint]

theorem count_eq {m n : ℕ} (hint : m + n < 2 ^ 31) :
    add64 (4096 * m / EFI_PAGE_SIZE) (wordOfInt n) = m + n := by
  rw [words_of_pages, wordOfInt_eq rfl (by omega), add64_eq (by omega)]

theorem aligned_eq {j a q : ℕ} (hj : j < 64) (ha : 2 ^ j = 4096 * a) (hpos : 0 < a)
    (hwrap : 4096 * q + 4096 * a ≤ 2 ^ 64) :
    alignKernel (4096 * q) (4096 * a) = 4096 * (q + leading a q) := by
  rw [← ha, alignKernel_eq hj, ha, add64_eq (by omega), roundUp_pages hpos]

/-- The pages between the last aligned address and the block. -/
theorem offset_eq {j a q : ℕ} (hj : j < 64) (ha : 2 ^ j = 4096 * a) (hpos : 0 < a)
    (hint : a ≤ 2 ^ 31) :
    intOfWord ((4096 * q &&& sub64 (4096 * a) 1) / EFI_PAGE_SIZE) = (q % a : ℕ) := by
  have hmod := Nat.mod_lt q hpos
  rw [← ha, sub64_eq (Nat.two_pow_pos j) (Nat.pow_lt_pow_right (by decide) hj),
    Nat.and_two_pow_sub_one_eq_mod, ha, Nat.mul_mod_mul_left, words_of_pages,
    intOfWord_eq (by omega)]

/-- The alignment that is used, as a number of pages. -/
theorem exists_align (k : ℕ) (hk : k < 64) :
    ∃ j < 64, max (2 ^ k) EFI_PAGE_SIZE = 2 ^ j ∧ 2 ^ j = 4096 * 2 ^ (j - 12) := by
  refine ⟨max k 12, by omega, ?_, ?_⟩
  · obtain hle | hle := Nat.le_total k 12
    · rw [max_eq_right hle]
      exact max_eq_right (Nat.pow_le_pow_right Nat.two_pos hle)
    · rw [max_eq_left hle]
      exact max_eq_left (Nat.pow_le_pow_right Nat.two_pos hle)
  · rw [show 4096 = 2 ^ 12 from rfl, ← Nat.pow_add, Nat.add_sub_cancel' (le_max_right _ _)]

/-! ## What is given back -/

/-- A call of `free_pages`, unless there is nothing to give back. -/
def freeRun (addr n : ℕ) : List (ℕ × ℕ) := if n = 0 then [] else [(addr, n)]

theorem flatMap_freeRun (addr n : ℕ) : (freeRun addr n).flatMap pages = pages (addr, n) := by
  rw [freeRun]
  split
  · next h => rw [h]; rfl
  · exact List.flatMap_singleton ..

theorem freeRun_pos {addr n : ℕ} (h : 0 < n) : freeRun addr n = [(addr, n)] :=
  if_neg h.ne'

/-- Behind an aligned address the pages in front of the next one are given back first, and
then those that are left. -/
theorem freeSurplus_eq {a m q : ℕ} (ha : 0 < a) (hm : 0 < m) (hint : m + (a - 1) < 2 ^ 31)
    (hwrap : 4096 * q + (m + (a - 1)) * 4096 ≤ 2 ^ 64) :
    freeSurplus (4096 * q) (4096 * (q + leading a q)) (4096 * m) (a - 1 : ℕ) (q % a : ℕ) =
      freeRun (4096 * q) (leading a q) ++
        freeRun (4096 * q + 4096 * (leading a q + m)) (a - 1 - leading a q) := by
  have hmod := Nat.mod_lt q ha
  have hlead : leading a q = if q % a = 0 then 0 else a - q % a := rfl
  generalize leading a q = lead at *
  generalize q % a = e at *
  rw [freeSurplus]
  by_cases he : e = 0
  · -- an aligned block: all that is too much is behind the aligned part
    subst he
    obtain rfl : lead = 0 := hlead
    by_cases hextra : a - 1 = 0
    · simp [hextra, freeRun]
    · have hbehind : add64 (4096 * q) (4096 * m) = 4096 * q + 4096 * m := add64_eq (by omega)
      simp [hextra, freeRun, hbehind, wordOfInt_eq rfl (show a - 1 < 2 ^ 64 by omega)]
  · rw [if_neg he] at hlead
    subst hlead
    have hextra : ((a - 1 : ℕ) : ℤ) ≠ 0 := by omega
    have he' : (e : ℤ) ≠ 0 := by exact_mod_cast he
    have hfront : wordOfInt ((a - 1 : ℕ) - (e : ℤ) + 1) = a - e :=
      wordOfInt_eq (by omega) (by omega)
    have hrest : a - 1 - (a - e) = e - 1 := by omega
    rw [hrest, freeRun_pos (by omega : 0 < a - e), if_pos hextra, if_pos he', hfront]
    dsimp only
    by_cases htrail : e = 1
    · subst htrail
      rfl
    · have hbehind : add64 (4096 * (q + (a - e))) (4096 * m) =
          4096 * q + 4096 * (a - e + m) := by
        rw [add64_eq (by omega)]
        ring
      rw [if_pos (by omega), freeRun_pos (by omega), hbehind,
        wordOfInt_eq (x := e - 1) (by omega) (by omega)]

section Allocate

variable {allocate_pages : ℕ → ℕ → ℕ × ℕ} {size align memory_type : ℕ}

theorem efiAllocatePages_success {align' size' addr : ℕ} {extra : ℤ}
    (halign : (if align < EFI_ALLOC_ALIGN then EFI_ALLOC_ALIGN else align) = align')
    (hsize : roundUp size EFI_ALLOC_ALIGN = size')
    (hextra : intOfWord (sub64 (align' / EFI_PAGE_SIZE) 1) = extra)
    (hanswer : allocate_pages memory_type
      (add64 (size' / EFI_PAGE_SIZE) (wordOfInt extra)) = (EFI_SUCCESS, addr)) :
    efiAllocatePages allocate_pages size align memory_type =
      (EFI_SUCCESS, some (alignKernel addr align'),
        freeSurplus addr (alignKernel addr align') size' extra
          (intOfWord ((addr &&& sub64 align' 1) / EFI_PAGE_SIZE))) := by
  subst halign hsize hextra
  simp only [efiAllocatePages, hanswer, ne_eq, not_true, if_false]

/-- Of the pages that the firmware is asked for, those that hold `size` bytes from an
aligned address on are kept, and the others are given back. -/
theorem efiAllocatePages_trims {k addr : ℕ} (hsize : 0 < size) (hk : k < 64)
    (hpage : EFI_PAGE_SIZE ∣ addr) (hint : blockPages size (2 ^ k) < 2 ^ 31)
    (hwrap : addr + blockPages size (2 ^ k) * EFI_PAGE_SIZE ≤ 2 ^ 64)
    (hanswer : allocate_pages memory_type (blockPages size (2 ^ k)) = (EFI_SUCCESS, addr)) :
    ∃ alloc_addr freed,
      efiAllocatePages allocate_pages size (2 ^ k) memory_type =
        (EFI_SUCCESS, some alloc_addr, freed) ∧
      max (2 ^ k) EFI_PAGE_SIZE ∣ alloc_addr ∧
      Trims (addr, blockPages size (2 ^ k)) (alloc_addr, sizePages size) freed := by
  obtain ⟨q, rfl⟩ := hpage
  obtain ⟨j, hj, hmax, hpow⟩ := exists_align k hk
  generalize 2 ^ (j - 12) = a at hpow
  have ha : 0 < a := Nat.pos_of_mul_pos_left (hpow ▸ Nat.two_pow_pos j)
  have hblock : blockPages size (2 ^ k) = sizePages size + (a - 1) := by
    rw [blockPages, hmax, hpow, words_of_pages]
  have hm := sizePages_pos hsize
  have halign : (if 2 ^ k < EFI_ALLOC_ALIGN then EFI_ALLOC_ALIGN else 2 ^ k) = 4096 * a := by
    rw [← hpow, ← hmax, EFI_ALLOC_ALIGN]
    split <;> omega
  have hround := roundUp_size (Nat.lt_of_le_of_lt (Nat.le_add_right _ _) (hblock ▸ hint))
  rw [hblock] at hint hwrap hanswer ⊢
  rw [hmax, show EFI_PAGE_SIZE = 4096 from rfl] at *
  generalize sizePages size = m at hint hwrap hanswer hm hround ⊢
  have hanswer' : allocate_pages memory_type
      (add64 (4096 * m / EFI_PAGE_SIZE) (wordOfInt (a - 1 : ℕ))) = (EFI_SUCCESS, 4096 * q) := by
    rw [count_eq hint]
    exact hanswer
  have hrun := efiAllocatePages_success halign hround (extra_eq ha (by omega)) hanswer'
  rw [aligned_eq hj hpow ha (by omega), offset_eq hj hpow ha (by omega),
    freeSurplus_eq ha hm hint hwrap] at hrun
  have hlead := leading_lt ha q
  refine ⟨_, _, hrun, ?_, ?_⟩
  · rw [hpow, ← roundUp_pages ha]
    exact Nat.dvd_mul_right _ _
  · have hfreed : (freeRun (4096 * q) (leading a q) ++ freeRun
        (4096 * q + 4096 * (leading a q + m)) (a - 1 - leading a q)).flatMap pages =
        pages (4096 * q, leading a q) ++
          pages (4096 * q + EFI_PAGE_SIZE * (leading a q + m), a - 1 - leading a q) := by
      rw [List.flatMap_append, flatMap_freeRun, flatMap_freeRun]
      rfl
    have hcount : leading a q + m + (a - 1 - leading a q) = m + (a - 1) := by omega
    have haddr : 4096 * q + EFI_PAGE_SIZE * leading a q = 4096 * (q + leading a q) :=
      (Nat.mul_add _ _ _).symm
    have htrims := trims_of_ends hfreed
    rw [hcount, haddr] at htrims
    exact htrims

end Allocate

/-- Five pages from page 6 on, for two that are aligned to four pages. -/
theorem efiAllocatePages_trims_five :
    ∃ alloc_addr freed,
      efiAllocatePages (fun _ _ => (EFI_SUCCESS, 0x6000)) 5000 (2 ^ 14) 2 =
        (EFI_SUCCESS, some alloc_addr, freed) ∧
      max (2 ^ 14) EFI_PAGE_SIZE ∣ alloc_addr ∧
      Trims (0x6000, blockPages 5000 (2 ^ 14)) (alloc_addr, sizePages 5000) freed :=
  efiAllocatePages_trims (by decide) (by decide) (by decide) (by decide) (by decide) rfl

example : efiAllocatePages (fun _ _ => (EFI_SUCCESS, 0x6000)) 5000 (2 ^ 14) 2 =
    (EFI_SUCCESS, some 0x8000, [(0x6000, 2), (0xa000, 1)]) := by
  decide

end Cyanea.Efi
