/-
# Temporary mappings

`ioremap` and its relatives map physical memory into one of 512 slots of the fixmap.
`mapping` remembers the number of pages of a mapping in the entry of its first slot and
holds `-1` everywhere else. Slots count downwards as addresses count upwards: entry `i`
of `mapping` is slot `FIX_BITMAP_BEGIN - i`, whose page is entry `i` of
`level1_fixmap_pgt[0]`.
-/

import Cyanea.Mm.Pgtable
import Mathlib.Logic.Function.Basic
import Mathlib.Data.Int.Notation

namespace Cyanea.Mm

open X86

def TOTAL_FIX_BITMAPS : ℕ := PTRS_PER_PT
def FIX_BITMAP_END : ℕ := TOTAL_FIX_BITMAPS
def FIX_BITMAP_BEGIN : ℕ := FIX_BITMAP_END + TOTAL_FIX_BITMAPS - 1

def FIX_TOP_ADDR : ℕ := 2 ^ 64 - 1 - PAGE_SIZE + 1

def fixToVirt (x : ℕ) : ℕ := sub64 FIX_TOP_ADDR (x <<< PAGE_SHIFT)

def virtToFix (x : ℕ) : ℕ := sub64 FIX_TOP_ADDR (x &&& PAGE_MASK) >>> PAGE_SHIFT

/-- The ways a call goes wrong without returning. -/
inductive Fault where
  /-- `mapping` is read or written outside of the array. -/
  | outOfBounds
  /-- The assertion of `__set_fixmap`: "%d out of %d to %d.\n". -/
  | outOfRange (idx : ℕ)
  /-- The scan has not ended; `TOTAL_FIX_BITMAPS + 2` turns are always enough. -/
  | stuck
  deriving DecidableEq, Repr

/-- `mapping` and the tables `level1_fixmap_pgt`. -/
structure Fixmap where
  mapping : ℕ → ℤ
  level1_fixmap_pgt : ℕ → ℕ → ℕ

/-- `{ [0 ... TOTAL_FIX_BITMAPS - 1] = -1 }`, and empty tables. -/
def Fixmap.start : Fixmap := ⟨fun _ => -1, fun _ _ => 0⟩

/-- `mapping[i]`. -/
def Fixmap.load (s : Fixmap) (i : ℕ) : Except Fault ℤ :=
  if i < TOTAL_FIX_BITMAPS then .ok (s.mapping i) else .error .outOfBounds

/-- `mapping[i] = n`. -/
def Fixmap.store (s : Fixmap) (i : ℕ) (n : ℤ) : Except Fault Fixmap :=
  if i < TOTAL_FIX_BITMAPS then .ok { s with mapping := Function.update s.mapping i n }
  else .error .outOfBounds

/-- `level1_fixmap_pgt[t][i] = pte`. -/
def Fixmap.setPte (s : Fixmap) (t i pte : ℕ) : Fixmap :=
  { s with
    level1_fixmap_pgt := Function.update s.level1_fixmap_pgt t
      (Function.update (s.level1_fixmap_pgt t) i pte) }

/-- `____set_fixmap`: what it leaves in the entry. -/
def fixmapPte (phys_addr prot : ℕ) : ℕ :=
  let phys_addr := phys_addr &&& PAGE_MASK
  let pgprot := prot &&& supported_pte_mask
  if pgprot ≠ 0 then phys_addr ||| pgprot else 0

/-- `__set_fixmap`. -/
def setFixmap (s : Fixmap) (idx phys_addr prot : ℕ) : Except Fault Fixmap :=
  if FIX_BITMAP_END ≤ idx ∧ idx ≤ FIX_BITMAP_BEGIN then
    .ok (s.setPte 0 (pteIndex (fixToVirt idx)) (fixmapPte phys_addr prot))
  else .error (.outOfRange idx)

/-- The loop of `find_free_range`; `none` is `-1`. A length in `mapping` is never negative,
so `toNat` is what is added to `i`. -/
def freeRangeLoop (s : Fixmap) (nrpages : ℕ) : ℕ → ℕ → ℕ → ℕ → Except Fault (Option ℕ)
  | 0, _, _, _ => .error .stuck
  | turns + 1, n, i, start =>
    if n < nrpages then
      if TOTAL_FIX_BITMAPS < i then .ok none
      else do
        let len ← s.load i
        if len ≠ -1 then freeRangeLoop s nrpages turns 0 (i + len.toNat) (i + len.toNat)
        else freeRangeLoop s nrpages turns (n + 1) (i + 1) start
    else .ok (some start)

/-- `find_free_range`, with the slot that is reserved, if any. -/
def findFreeRange (s : Fixmap) (nrpages : ℕ) : Except Fault (Option ℕ × Fixmap) := do
  match ← freeRangeLoop s nrpages (TOTAL_FIX_BITMAPS + 2) 0 0 0 with
  | none => pure (none, s)
  | some start =>
    let s ← s.store start nrpages
    pure (some (FIX_BITMAP_BEGIN - start), s)

/-- The loop of `__ioremap`. -/
def mapLoop (prot : ℕ) : ℕ → ℕ → ℕ → Fixmap → Except Fault Fixmap
  | 0, _, _, s => .ok s
  | nrpages + 1, i, phys_addr, s => do
    let s ← setFixmap s i phys_addr prot
    mapLoop prot nrpages (i - 1) (add64 phys_addr PAGE_SIZE) s

/-- `__ioremap`; 0 is `NULL`. -/
def ioremapProt (s : Fixmap) (phys_addr size prot : ℕ) : Except Fault (ℕ × Fixmap) :=
  let fin := add64 phys_addr size
  if size = 0 then .ok (0, s)
  else
    let offset := offsetInPage phys_addr
    let phys_addr := phys_addr &&& PAGE_MASK
    let size := sub64 (pageAlign fin) phys_addr
    let nrpages := (size >>> PAGE_SHIFT) % 2 ^ 32
    if TOTAL_FIX_BITMAPS < nrpages then .ok (0, s)
    else do
      match ← findFreeRange s nrpages with
      | (none, s) => pure (0, s)
      | (some slot, s) =>
        let s ← mapLoop prot nrpages slot phys_addr s
        pure (add64 (fixToVirt slot) offset, s)

def ioremap (modes : CachemodeToPte) (s : Fixmap) (phys_addr size : ℕ) :
    Except Fault (ℕ × Fixmap) :=
  ioremapProt s phys_addr size (PAGE_KERNEL_NOCACHE modes)

def memremap (s : Fixmap) (phys_addr size : ℕ) : Except Fault (ℕ × Fixmap) :=
  ioremapProt s phys_addr size PAGE_KERNEL

/-- The loop of `iounmap`. -/
def unmapLoop : ℕ → ℕ → Fixmap → Except Fault Fixmap
  | 0, _, s => .ok s
  | nrpages + 1, i, s => do
    let s ← setFixmap s i 0 0
    unmapLoop nrpages (i - 1) s

/-- `iounmap`, and `memunmap`, which calls it. The entry of `mapping` is compared as an
unsigned number. -/
def iounmap (s : Fixmap) (virt_addr size : ℕ) : Except Fault Fixmap :=
  if virt_addr = 0 then .ok s
  else if virt_addr < fixToVirt FIX_BITMAP_BEGIN ∨ fixToVirt FIX_BITMAP_END < virt_addr then .ok s
  else do
    let slot := virtToFix virt_addr
    let offset := offsetInPage virt_addr
    let nrpages : ℕ := (pageAlign (add64 offset size) >>> PAGE_SHIFT) % 2 ^ 32
    let recorded ← s.load (FIX_BITMAP_BEGIN - slot)
    if recorded % 2 ^ 32 ≠ nrpages then pure s
    else do
      let s ← unmapLoop nrpages slot s
      s.store (FIX_BITMAP_BEGIN - slot) (-1)

/-- The translation of an address by `level1_fixmap_pgt[0]`, which serves the 2 MiB below
the highest 2 MiB of the address space. -/
def Fixmap.translate (s : Fixmap) (va : ℕ) : Option ℕ :=
  if va / 2 ^ 21 = 2 ^ 43 - 2 then X86.translate (fun _ => s.level1_fixmap_pgt 0) 0 0 va
  else none

end Cyanea.Mm
