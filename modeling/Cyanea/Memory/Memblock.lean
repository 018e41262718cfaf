/-
# The early memory allocator

The model of `ukernel/memblock.c`. The table is the C array `regions[]` of which
the first `n` entries are live; what lies behind them is whatever earlier calls
left there, and several functions depend on it. Each C function is one
definition over the whole array.

A call stops in one of three ways: it fails the assertion in `insert_region`, it
touches an element of `regions[]` that does not exist, or it hands `memmove` an
element count below zero. The last two are undefined behaviour in C.
-/

import Cyanea.Errno
import Cyanea.Word

namespace Cyanea.Memory

/-- How a call fails to return. -/
inductive Fault
  /-- The assertion `memory.n + 1 <= memory.max` of `insert_region` failed. -/
  | outOfSpace
  /-- An element of `regions[]` outside the array was touched. -/
  | outOfBounds
  /-- `memmove` was called with a negative element count. -/
  | negativeCount
  /-- A loop took more turns than its bound allows. -/
  | unfinished
  deriving DecidableEq, Repr

/-- `enum memblock_flags`. -/
abbrev MemblockFlags := BitVec 32

def MEMBLOCK_NONE : MemblockFlags := 0

def MEMBLOCK_RESERVED : MemblockFlags := 0xFFFF

/-- `struct memblock_region`. -/
structure MemblockRegion where
  flags : MemblockFlags
  base : ℕ
  size : ℕ
  nid : ℤ
  deriving DecidableEq, Repr

/-- `base + size` of a region, as the code computes it. -/
def MemblockRegion.regionEnd (r : MemblockRegion) : ℕ := add64 r.base r.size

/-- `struct memblock`. -/
structure Memblock where
  n : ℕ
  max : ℕ
  size : ℕ
  regions : List MemblockRegion
  deriving DecidableEq, Repr

/-- `CONFIG_MEMBLOCK_MEMORY_REGIONS`. -/
def NR_REGIONS : ℕ := 128

/-- The table at boot: a zeroed array with no live entry. -/
def memory : Memblock where
  n := 0
  max := NR_REGIONS
  size := 0
  regions := List.replicate NR_REGIONS ⟨MEMBLOCK_NONE, 0, 0, 0⟩

/-! ## The array -/

def loadRegion (regions : List MemblockRegion) (i : ℕ) : Except Fault MemblockRegion :=
  match regions[i]? with
  | some r => .ok r
  | none => .error .outOfBounds

def storeRegion (regions : List MemblockRegion) (i : ℕ) (r : MemblockRegion) :
    Except Fault (List MemblockRegion) :=
  if i < regions.length then .ok (regions.set i r) else .error .outOfBounds

/-- `memmove(&regions[dst], &regions[src], (n - k) * sizeof(*regions))`. -/
def moveRegions (regions : List MemblockRegion) (dst src n k : ℕ) :
    Except Fault (List MemblockRegion) :=
  if n < k then .error .negativeCount
  else if dst + (n - k) ≤ regions.length ∧ src + (n - k) ≤ regions.length then
    .ok (regions.take dst ++ (regions.drop src).take (n - k) ++
      regions.drop (dst + (n - k)))
  else .error .outOfBounds

def insertRegion (m : Memblock) (i base size : ℕ) (nid : ℤ) (flags : MemblockFlags) :
    Except Fault Memblock := do
  if ¬ m.n + 1 ≤ m.max then
    throw .outOfSpace
  let regions ← moveRegions m.regions (i + 1) i m.n i
  let regions ← storeRegion regions i { flags, base, size, nid }
  return { m with regions, n := m.n + 1, size := add64 m.size size }

/-- The size is read back through `region` after the `memmove`. -/
def removeRegion (m : Memblock) (i : ℕ) : Except Fault Memblock := do
  let regions ← moveRegions m.regions i (i + 1) m.n (i + 1)
  let region ← loadRegion regions i
  return { m with regions, n := m.n - 1, size := sub64 m.size region.size }

/-! ## Merging

The scan reads one entry beyond the window it is given. When the table is full
that entry is not part of the array: `behind` is what the read finds there, or
`none` to let it stop the call as C does. -/

section Merge

variable (behind : Option MemblockRegion)

/-- The two regions are not one region that was cut. -/
def Apart (curr next : MemblockRegion) : Prop :=
  curr.regionEnd ≠ next.base ∨ curr.nid ≠ next.nid ∨ curr.flags ≠ next.flags

instance (curr next : MemblockRegion) : Decidable (Apart curr next) :=
  inferInstanceAs (Decidable (_ ∨ _ ∨ _))

/-- `curr->size += next->size`. -/
def MemblockRegion.extend (curr next : MemblockRegion) : MemblockRegion :=
  { curr with size := add64 curr.size next.size }

def loadNext (regions : List MemblockRegion) (i : ℕ) : Except Fault MemblockRegion :=
  match regions[i]?, behind with
  | some r, _ => .ok r
  | none, some r => .ok r
  | none, none => .error .outOfBounds

/-- The loop of `merge_regions`, where `end_region - i` turns are left: each turn
either advances `i` or takes one off `end_region`. -/
def mergeLoop : ℕ → ℕ → Memblock → Except Fault Memblock
  | 0, _, m => return m
  | turns + 1, i, m => do
      let curr ← loadRegion m.regions i
      let next ← loadNext behind m.regions (i + 1)
      if Apart curr next then
        mergeLoop turns (i + 1) m
      else
        let regions ← storeRegion m.regions i (curr.extend next)
        let regions ← moveRegions regions (i + 1) (i + 2) m.n (i + 2)
        mergeLoop turns i { m with regions, n := m.n - 1 }

def mergeRegions (m : Memblock) (startRegion endRegion : ℕ) : Except Fault Memblock :=
  let i := if startRegion = 0 then 0 else startRegion - 1
  mergeLoop behind (endRegion - i) i m

/-! ## Adding a range -/

/-- The locals of `add_range` that its loop changes. `window` holds
`start_region` and `end_region`, which are set together. -/
structure AddState where
  i : ℕ
  base : ℕ
  window : Option (ℕ × ℕ)
  memory : Memblock

/-- `insert_region(i, base, upto - base, nid, flags)` and the two updates behind
it. -/
def addPiece (upto : ℕ) (nid : ℤ) (flags : MemblockFlags) (s : AddState) :
    Except Fault AddState := do
  let memory ← insertRegion s.memory s.i s.base (sub64 upto s.base) nid flags
  let start := (s.window.map Prod.fst).getD s.i
  return { s with memory, window := some (start, s.i + 1) }

/-- The loop of `add_range`. No turn leaves `i` where it was, and `i` stays below
the number of live entries, so the capacity bounds the turns. -/
def addLoop (rangeEnd : ℕ) (nid : ℤ) (flags : MemblockFlags) :
    ℕ → AddState → Except Fault AddState
  | 0, s => if s.i < s.memory.n then throw .unfinished else return s
  | turns + 1, s => do
      if ¬ s.i < s.memory.n then
        return s
      let region ← loadRegion s.memory.regions s.i
      let rBase := region.base
      let rEnd := region.regionEnd
      if rangeEnd ≤ rBase then
        return s
      else if rEnd ≤ s.base then
        addLoop rangeEnd nid flags turns { s with i := s.i + 1 }
      else
        let s ← if s.base < rBase then addPiece rBase nid flags s else pure s
        addLoop rangeEnd nid flags turns
          { s with i := s.i + 1, base := min rEnd rangeEnd }

/-- The loop of `add_range` and the check for an area left behind it. -/
def addGaps (rangeEnd : ℕ) (nid : ℤ) (flags : MemblockFlags) (turns : ℕ) (s : AddState) :
    Except Fault AddState := do
  let s ← addLoop rangeEnd nid flags turns s
  if s.base < rangeEnd then addPiece rangeEnd nid flags s else return s

def addRange (m : Memblock) (base size : ℕ) (nid : ℤ) (flags : MemblockFlags) :
    Except Fault (Memblock × ℤ) := do
  if size = 0 then
    return (m, SUCCESS)
  let rangeEnd := add64 base size
  if m.n = 0 then
    let regions ← storeRegion m.regions 0 { flags, base, size, nid }
    return ({ m with regions, n := 1, size }, SUCCESS)
  let s ← addGaps rangeEnd nid flags m.max ⟨0, base, none, m⟩
  match s.window with
  | none => return (s.memory, SUCCESS)
  | some (startRegion, endRegion) =>
      let m ← mergeRegions behind s.memory startRegion endRegion
      return (m, SUCCESS)

/-! ## Isolating a range -/

/-- The locals of `isolate_range` and its two results. -/
structure IsolateState where
  i : ℕ
  startRange : ℕ
  endRange : ℕ
  memory : Memblock

/-- Let region `i` begin at `cut` and insert what was before it. -/
def cutRegion (m : Memblock) (i cut : ℕ) (region : MemblockRegion) :
    Except Fault Memblock := do
  let before := sub64 cut region.base
  let regions ← storeRegion m.regions i
    { region with base := cut, size := sub64 region.size before }
  insertRegion { m with regions, size := sub64 m.size before } i
    region.base before region.nid region.flags

/-- The loop of `isolate_range`. A turn advances `i` or uses up one of the free
entries, so twice the capacity bounds the turns. -/
def isolateLoop (base rangeEnd : ℕ) : ℕ → IsolateState → Except Fault IsolateState
  | 0, s => if s.i < s.memory.n then throw .unfinished else return s
  | turns + 1, s => do
      if ¬ s.i < s.memory.n then
        return s
      let region ← loadRegion s.memory.regions s.i
      let rBase := region.base
      let rEnd := region.regionEnd
      if rangeEnd ≤ rBase then
        return s
      else if rEnd ≤ base then
        isolateLoop base rangeEnd turns { s with i := s.i + 1 }
      else if rBase < base then
        let memory ← cutRegion s.memory s.i base region
        isolateLoop base rangeEnd turns { s with i := s.i + 1, memory }
      else if rangeEnd < rEnd then
        -- `i--` and then `i++`: the next turn finds the part inside the range
        let memory ← cutRegion s.memory s.i rangeEnd region
        isolateLoop base rangeEnd turns { s with memory }
      else
        isolateLoop base rangeEnd turns
          { s with
            i := s.i + 1
            startRange := if s.endRange = 0 then s.i else s.startRange
            endRange := s.i + 1 }

/-- The results of `isolate_range`: its status, `*start_range` and `*end_range`. -/
structure IsolateResult where
  err : ℤ
  startRange : ℕ
  endRange : ℕ
  memory : Memblock

def isolateRange (m : Memblock) (base size : ℕ) : Except Fault IsolateResult := do
  if size = 0 then
    return ⟨SUCCESS, 0, 0, m⟩
  let rangeEnd := add64 base size
  if m.max < m.n + 2 then
    return ⟨-ENOSPC, 0, 0, m⟩
  let s ← isolateLoop base rangeEnd (2 * m.max) ⟨0, 0, 0, m⟩
  return ⟨SUCCESS, s.startRange, s.endRange, s.memory⟩

/-! ## The external interface -/

def memblockAdd (m : Memblock) (base size : ℕ) (nid : ℤ) (flags : MemblockFlags) :
    Except Fault (Memblock × ℤ) :=
  addRange behind m base size nid (flags &&& ~~~ MEMBLOCK_RESERVED)

/-- The loop of `memblock_remove`, which runs down from `end - 1`. -/
def removeLoop (startRange : ℕ) : ℕ → Memblock → Except Fault Memblock
  | 0, m => return m
  | left + 1, m => do
      let m ← removeRegion m (startRange + left)
      removeLoop startRange left m

def memblockRemove (m : Memblock) (base size : ℕ) : Except Fault (Memblock × ℤ) := do
  let iso ← isolateRange m base size
  if iso.err ≠ SUCCESS then
    return (iso.memory, iso.err)
  let m ← removeLoop iso.startRange (iso.endRange - iso.startRange) iso.memory
  return (m, SUCCESS)

/-- The loops over the isolated regions, with `end - i` turns left. -/
def updateLoop (f : MemblockRegion → MemblockRegion) :
    ℕ → ℕ → List MemblockRegion → Except Fault (List MemblockRegion)
  | 0, _, regions => return regions
  | turns + 1, i, regions => do
      let region ← loadRegion regions i
      let regions ← storeRegion regions i (f region)
      updateLoop f turns (i + 1) regions

/-- Isolate the range, change every region inside it, and merge. The two
functions below are this with their own change. -/
def updateRange (f : MemblockRegion → MemblockRegion) (m : Memblock) (base size : ℕ) :
    Except Fault (Memblock × ℤ) := do
  let iso ← isolateRange m base size
  if iso.err ≠ SUCCESS then
    return (iso.memory, iso.err)
  let regions ← updateLoop f (iso.endRange - iso.startRange) iso.startRange
    iso.memory.regions
  let m ← mergeRegions behind { iso.memory with regions } iso.startRange iso.endRange
  return (m, SUCCESS)

/-- The new flags of a region: `flags |= ...` or `flags &= ~...`. -/
def setclr (set : Bool) (flags : MemblockFlags) (r : MemblockRegion) : MemblockRegion :=
  { r with flags := if set then r.flags ||| flags else r.flags &&& ~~~ flags }

def memblockSetclrFlag (m : Memblock) (base size : ℕ) (set : Bool)
    (flags : MemblockFlags) : Except Fault (Memblock × ℤ) :=
  updateRange behind (setclr set flags) m base size

def memblockSetNode (m : Memblock) (base size : ℕ) (nid : ℤ) :
    Except Fault (Memblock × ℤ) :=
  updateRange behind (fun r => { r with nid }) m base size

def PAGE_SIZE : ℕ := 4096

/-- `__ALIGN_KERNEL(x, a)` on 64-bit words. -/
def alignKernel (x a : ℕ) : ℕ :=
  let mask := sub64 a 1
  add64 x mask &&& not64 mask

/-- `clamp(a, low, high)`. -/
def clamp (a low high : ℕ) : ℕ := min (max a low) high

/-- The loop of `find_in_range_node` over the regions from `i` on, with
`memory.n - i` turns left. -/
def findLoop (regions : List MemblockRegion) (size align start rangeEnd : ℕ) (nid : ℤ)
    (flags : MemblockFlags) : ℕ → ℕ → Except Fault ℕ
  | 0, _ => return 0
  | turns + 1, i => do
      let region ← loadRegion regions i
      if region.flags = flags ∧ ¬ (nid ≠ -1 ∧ nid ≠ region.nid) then
        let rBase := clamp region.base start rangeEnd
        let rEnd := clamp region.regionEnd start rangeEnd
        let base := alignKernel rBase align
        if base < rEnd ∧ size ≤ rEnd - base then
          return base
      findLoop regions size align start rangeEnd nid flags turns (i + 1)

def findInRangeNode (m : Memblock) (size align start rangeEnd : ℕ) (nid : ℤ)
    (flags : MemblockFlags) : Except Fault ℕ :=
  let start := max start PAGE_SIZE
  let rangeEnd := max start rangeEnd
  findLoop m.regions size align start rangeEnd nid flags m.n 0

/-- One pass of `memblock_alloc`: the block it would return, or `none` to fall
through to the test behind it. -/
def allocPass (m : Memblock) (size align start rangeEnd : ℕ) (nid : ℤ) :
    Except Fault (Memblock × Option ℕ) := do
  let paddr ← findInRangeNode m size align start rangeEnd nid MEMBLOCK_NONE
  if paddr ≠ 0 then
    let (m, err) ← memblockSetclrFlag behind m paddr size true MEMBLOCK_RESERVED
    if err = SUCCESS then
      return (m, some paddr)
    return (m, none)
  return (m, none)

/-- `goto again` is taken at most once, as it sets `nid` to -1. -/
def memblockAlloc (m : Memblock) (size align start rangeEnd : ℕ) (nid : ℤ)
    (exactNid : Bool) : Except Fault (Memblock × ℕ) := do
  let (m, found) ← allocPass behind m size align start rangeEnd nid
  match found with
  | some paddr => return (m, paddr)
  | none =>
      if nid ≠ -1 ∧ exactNid = false then
        let (m, found) ← allocPass behind m size align start rangeEnd (-1)
        return (m, found.getD 0)
      return (m, 0)

def memblockFree (m : Memblock) (base size : ℕ) : Except Fault Memblock := do
  let (m, _) ← memblockSetclrFlag behind m base size false MEMBLOCK_RESERVED
  return m

def memblockReserve (m : Memblock) (base size : ℕ) : Except Fault (Memblock × ℤ) :=
  memblockSetclrFlag behind m base size true MEMBLOCK_RESERVED

def memblockPhysMemSize (m : Memblock) : ℕ := m.size

/-! ## Calls -/

/-- A call of the interface with its arguments. -/
inductive Call
  | add (base size : UInt64) (nid : ℤ) (flags : MemblockFlags)
  | remove (base size : UInt64)
  | setclrFlag (base size : UInt64) (set : Bool) (flags : MemblockFlags)
  | setNode (base size : UInt64) (nid : ℤ)
  | reserve (base size : UInt64)
  | alloc (size align start rangeEnd : UInt64) (nid : ℤ) (exactNid : Bool)
  | free (base size : UInt64)
  deriving DecidableEq, Repr

/-- What a call returns. -/
inductive Reply
  | status (err : ℤ)
  | address (paddr : ℕ)
  | void
  deriving DecidableEq, Repr

/-- Make one call. -/
def step (m : Memblock) : Call → Except Fault (Memblock × Reply)
  | .add base size nid flags => do
      let (m, err) ← memblockAdd behind m base.toNat size.toNat nid flags
      return (m, .status err)
  | .remove base size => do
      let (m, err) ← memblockRemove m base.toNat size.toNat
      return (m, .status err)
  | .setclrFlag base size set flags => do
      let (m, err) ← memblockSetclrFlag behind m base.toNat size.toNat set flags
      return (m, .status err)
  | .setNode base size nid => do
      let (m, err) ← memblockSetNode behind m base.toNat size.toNat nid
      return (m, .status err)
  | .reserve base size => do
      let (m, err) ← memblockReserve behind m base.toNat size.toNat
      return (m, .status err)
  | .alloc size align start rangeEnd nid exactNid => do
      let (m, paddr) ← memblockAlloc behind m size.toNat align.toNat start.toNat
        rangeEnd.toNat nid exactNid
      return (m, .address paddr)
  | .free base size => do
      let m ← memblockFree behind m base.toNat size.toNat
      return (m, .void)

end Merge

end Cyanea.Memory
