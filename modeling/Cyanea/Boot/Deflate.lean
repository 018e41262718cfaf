/-
# The inflater of the boot loader

The model of `efi-boot/deflate.c` up to `deflate_buffer`. The functions share a
`struct deflate`, which is the state here; the destination is the list of the bytes
stored so far, so that its length is where `d->dest` stands, and `cap` is the size of the
buffer behind it, which the code is never told.

Undefined behaviour stops a call with a `Fault`. Counters that stay far below the range
of their C types are plain numbers; the bit accumulator, out of which bits can be
shifted, is reduced modulo `2 ^ 32`.
-/

import Cyanea.Math.Simulation
import Mathlib.Algebra.Group.Nat.Defs

namespace Cyanea.Boot

open Math.Simulation (Turn iterate)

/-- How a call fails to return. -/
inductive Fault
  /-- An element was touched that the array does not have. -/
  | outOfBounds
  /-- An element of `sorted_symbols` was read that nothing had been stored in. -/
  | unset
  /-- A 32-bit value was shifted by 32 or more. -/
  | shift
  /-- A byte was read from before the start of the destination. -/
  | beforeDest
  /-- A byte was stored at or behind the end of the destination. -/
  | overflow
  /-- A byte was read at or behind `in_end`. -/
  | pastEnd
  /-- A loop took more turns than its bound allows. -/
  | unfinished
  deriving DecidableEq, Repr

/-- `ERR_NONE`, `ERR_OVERFLOW`, `ERR_SYMBOL` and `ERR_UNDEFINED`. -/
inductive Err
  | NONE
  | OVERFLOW
  | SYMBOL
  | UNDEFINED
  deriving DecidableEq, Repr

def MAX_BITS : ℕ := 16

def MAX_SYMBOLS : ℕ := 288

def MAX_DISTANCE : ℕ := 32

/-- `struct tree`. An entry of `sorted_symbols` is `none` until it is stored. -/
structure Tree where
  bl_count : List ℕ
  sorted_symbols : List (Option ℕ)
  deriving DecidableEq, Repr

/-- `struct deflate`, with `in_ptr` as an offset from the start of the source. -/
structure Deflate where
  source : List UInt8
  in_ptr : ℕ
  dest : List UInt8
  error : Err
  bit_accum : ℕ
  nr_bits : ℕ
  dest_size : ℕ
  ll : Tree
  distance : Tree
  deriving DecidableEq, Repr

/-- `in_end`. -/
def Deflate.in_end (d : Deflate) : ℕ := d.source.length

/-- A function that works on the shared `struct deflate`. -/
abbrev Inflate := StateT Deflate (Except Fault)

/-! ## Memory -/

section Memory

variable {α : Type}

def load (xs : List α) (i : ℕ) : Except Fault α :=
  match xs[i]? with
  | some x => .ok x
  | none => .error .outOfBounds

def store (xs : List α) (i : ℕ) (x : α) : Except Fault (List α) :=
  if i < xs.length then .ok (xs.set i x) else .error .outOfBounds

end Memory

/-- `source[i]`. -/
def loadSource (source : List UInt8) (i : ℕ) : Except Fault UInt8 :=
  match source[i]? with
  | some b => .ok b
  | none => .error .pastEnd

/-- `get_unaligned_le16(source + i)`. -/
def getUnalignedLe16 (source : List UInt8) (i : ℕ) : Except Fault ℕ := do
  return (← loadSource source i).toNat + 2 ^ 8 * (← loadSource source (i + 1)).toNat

/-- `*d->dest++ = b`. -/
def storeDest (cap : ℕ) (b : UInt8) : Inflate Unit := do
  let d ← get
  if d.dest.length < cap then
    set { d with dest := d.dest ++ [b] }
  else
    throw .overflow

def raise (error : Err) : Inflate Unit :=
  modify fun d => { d with error }

/-- `d->error != ERR_NONE`. -/
def failed : Inflate Bool := do
  return (← get).error != .NONE

/-! ## Trees -/

/-- `tree->bl_count[lengths[it]]++`. -/
def countLength (lengths : List ℕ) (bl_count : List ℕ) (it : ℕ) : Except Fault (List ℕ) := do
  let l ← load lengths it
  store bl_count l ((← load bl_count l) + 1)

/-- The offsets at which the symbols of each length start, from `sum` on. -/
def offsets : List ℕ → ℕ → List ℕ
  | [], _ => []
  | c :: cs, sum => sum :: offsets cs (sum + c)

/-- `if (lengths[it] != 0) tree->sorted_symbols[offs[lengths[it]]++] = it`. -/
def sortSymbol (lengths : List ℕ) (s : List (Option ℕ) × List ℕ) (it : ℕ) :
    Except Fault (List (Option ℕ) × List ℕ) := do
  let l ← load lengths it
  if l ≠ 0 then
    let at_ ← load s.2 l
    return (← store s.1 at_ (some it), ← store s.2 l (at_ + 1))
  else
    return s

def huffmanTree (tree : Tree) (lengths : List ℕ) (nr_sym : ℕ) : Except Fault Tree := do
  let bl_count ← (List.range nr_sym).foldlM (countLength lengths) (List.replicate MAX_BITS 0)
  let bl_count := bl_count.set 0 0
  let (sorted_symbols, _) ← (List.range nr_sym).foldlM (sortSymbol lengths)
    (tree.sorted_symbols, offsets bl_count 0)
  return { bl_count, sorted_symbols }

/-- `for (it = 0; it < n; it++) tree->sorted_symbols[start + it] = symbol + it`. -/
def storeSymbols (sorted_symbols : List (Option ℕ)) (start n symbol : ℕ) :
    Except Fault (List (Option ℕ)) :=
  (List.range n).foldlM (fun xs it => store xs (start + it) (some (symbol + it)))
    sorted_symbols

def huffmanFixedTree (lt dt : Tree) : Except Fault (Tree × Tree) := do
  let bl_count := List.replicate MAX_BITS 0
  let sorted_symbols ← storeSymbols lt.sorted_symbols 0 24 256
  let sorted_symbols ← storeSymbols sorted_symbols 24 144 0
  let sorted_symbols ← storeSymbols sorted_symbols (24 + 144) 8 280
  let sorted_symbols ← storeSymbols sorted_symbols (24 + 144 + 8) 112 144
  let lt := { bl_count := ((bl_count.set 7 24).set 8 152).set 9 112, sorted_symbols }
  let sorted_symbols ← storeSymbols dt.sorted_symbols 0 32 0
  return (lt, { bl_count := bl_count.set 5 32, sorted_symbols })

/-! ## Bits -/

/-- A turn of the loop that fetches bytes until there are `nr_bits` bits. It leaves with
`false` at the end of the source. -/
def fetchTurn (nr_bits : ℕ) : Inflate (Turn Unit Bool) := do
  let d ← get
  if d.nr_bits < nr_bits then
    if d.in_ptr = d.in_end then
      raise .OVERFLOW
      return .leave false
    else
      let b ← loadSource d.source d.in_ptr
      if 32 ≤ d.nr_bits then
        throw .shift
      else
        set { d with
          bit_accum := (d.bit_accum ||| b.toNat <<< d.nr_bits) % 2 ^ 32
          in_ptr := d.in_ptr + 1
          nr_bits := d.nr_bits + 8 }
        return .again ()
  else
    return .leave true

/-- Every turn but the last adds eight bits, so `nr_bits` turns and the last are enough. -/
def getBits (nr_bits : ℕ) : Inflate ℕ := do
  if ← failed then
    return 0
  else if ← iterate .unfinished (fun _ => fetchTurn nr_bits) (nr_bits + 1) () then
    if 32 ≤ nr_bits then
      throw .shift
    else
      let d ← get
      set { d with bit_accum := d.bit_accum >>> nr_bits, nr_bits := d.nr_bits - nr_bits }
      return d.bit_accum &&& (1 <<< nr_bits - 1)
  else
    return 0

def getExtraBits (nr_bits base : ℕ) : Inflate ℕ := do
  let bits ← (if nr_bits ≠ 0 then getBits nr_bits else pure 0)
  return base + bits

/-- The loop of `decode_symbol` with `levels` levels left, from level `it` on. -/
def decodeFrom (tree : Tree) : ℕ → ℕ → ℕ → ℕ → Inflate ℕ
  | 0, _, _, _ => do
      raise .SYMBOL
      return 0
  | levels + 1, it, sum, offs => do
      let bit ← getBits 1
      if ← failed then
        return 0
      else
        let offs := 2 * offs + bit
        let leaves ← load tree.bl_count it
        if offs < leaves then
          match ← load tree.sorted_symbols (sum + offs) with
          | some symbol => return symbol
          | none => throw .unset
        else
          decodeFrom tree levels (it + 1) (sum + leaves) (offs - leaves)

def decodeSymbol (tree : Tree) : Inflate ℕ :=
  decodeFrom tree (MAX_BITS - 1) 1 0 0

/-- `decode_symbol(d, &d->ll)`. -/
def decodeLl : Inflate ℕ := do
  decodeSymbol (← get).ll

/-- `decode_symbol(d, &d->distance)`. -/
def decodeDistance : Inflate ℕ := do
  decodeSymbol (← get).distance

/-! ## Dynamic trees -/

def code_len_for_code_idx : List ℕ :=
  [16, 17, 18, 0, 8, 7, 9, 6, 10, 5, 11, 4, 12, 3, 13, 2, 14, 1, 15]

/-- `for (; it < hclen; it++) lengths[code_len_for_code_idx[it]] = get_bits(d, 3)`, with
`left` turns to go. -/
def readCodeLengths : ℕ → ℕ → List ℕ → Inflate (List ℕ)
  | 0, _, lengths => return lengths
  | left + 1, it, lengths => do
      let bits ← getBits 3
      let lengths ← store lengths (← load code_len_for_code_idx it) bits
      readCodeLengths left (it + 1) lengths

def SYM_CL_COPY_3_6 : ℕ := 16

def SYM_CL_REPEAT_3_10 : ℕ := 17

def SYN_CL_REPEAT_11_138 : ℕ := 18

/-- The code length that `symbol` stands for when `it` of them are known, and how many
times over. -/
def expandSymbol (lengths : List ℕ) (it symbol : ℕ) : Inflate (ℕ × ℕ) := do
  if symbol = SYM_CL_COPY_3_6 then
    if it = 0 then
      raise .SYMBOL
      return (0, 0)
    else
      let symbol ← load lengths (it - 1)
      return (symbol, ← getExtraBits 2 3)
  else if symbol = SYM_CL_REPEAT_3_10 then
    return (0, ← getExtraBits 3 3)
  else if symbol = SYN_CL_REPEAT_11_138 then
    return (0, ← getExtraBits 7 11)
  else
    return (symbol, 1)

/-- `while (length--) lengths[it++] = symbol`. -/
def storeLengths (symbol : ℕ) : ℕ → ℕ → List ℕ → Except Fault (List ℕ)
  | 0, _, lengths => return lengths
  | length + 1, it, lengths => do
      storeLengths symbol length (it + 1) (← store lengths it symbol)

/-- A turn of the loop over the code lengths of both alphabets, `n` in all. -/
def lengthTurn (n : ℕ) (s : ℕ × List ℕ) : Inflate (Turn (ℕ × List ℕ) (List ℕ)) := do
  let (it, lengths) := s
  if it < n then
    let symbol ← decodeLl
    if ← failed then
      return .leave lengths
    else
      let (symbol, length) ← expandSymbol lengths it symbol
      if ← failed then
        return .leave lengths
      else
        return .again (it + length, ← storeLengths symbol length it lengths)
  else
    return .leave lengths

def huffmanDynamicTree (turns : ℕ) : Inflate Unit := do
  let lengths := List.replicate (MAX_SYMBOLS + MAX_DISTANCE) 0
  let hlit ← getExtraBits 5 257
  let hdist ← getExtraBits 5 1
  let hclen ← getExtraBits 4 4
  if ← failed then
    return
  else
    let lengths ← readCodeLengths hclen 0 lengths
    if ← failed then
      return
    else
      let d ← get
      set { d with ll := ← huffmanTree d.ll lengths 19 }
      let lengths ← iterate .unfinished (lengthTurn (hlit + hdist)) turns (0, lengths)
      if ← failed then
        return
      else
        let d ← get
        let ll ← huffmanTree d.ll lengths hlit
        let distance ← huffmanTree d.distance (lengths.drop hlit) hdist
        set { d with ll, distance }

/-! ## Blocks -/

def length_bits : List ℕ :=
  [0, 0, 0, 0, 0, 0, 0, 0, 1, 1, 1, 1, 2, 2, 2, 2, 3, 3, 3, 3, 4, 4, 4, 4, 5, 5, 5, 5, 0, 127]

def length_base : List ℕ :=
  [3, 4, 5, 6, 7, 8, 9, 10, 11, 13, 15, 17, 19, 23, 27, 31, 35, 43, 51, 59, 67, 83, 99, 115,
    131, 163, 195, 227, 258, 0]

def dist_bits : List ℕ :=
  [0, 0, 0, 0, 1, 1, 2, 2, 3, 3, 4, 4, 5, 5, 6, 6, 7, 7, 8, 8, 9, 9, 10, 10, 11, 11, 12, 12,
    13, 13]

def dist_base : List ℕ :=
  [1, 2, 3, 4, 5, 7, 9, 13, 17, 25, 33, 49, 65, 97, 129, 193, 257, 385, 513, 769, 1025, 1537,
    2049, 3073, 4097, 6145, 8193, 12289, 16385, 24577]

def SYM_LL_EOB : ℕ := 256

def SYM_LL_LENGTH : ℕ := 257

/-- The extra bits of a length symbol, added to its base. -/
def getLength (symbol : ℕ) : Inflate ℕ := do
  getExtraBits (← load length_bits (symbol - SYM_LL_LENGTH))
    (← load length_base (symbol - SYM_LL_LENGTH))

/-- The extra bits of a distance symbol, added to its base. -/
def getOffset (distance : ℕ) : Inflate ℕ := do
  getExtraBits (← load dist_bits distance) (← load dist_base distance)

section Blocks

variable (cap : ℕ)

/-- `for (it = 0; it < length; it++) d->dest[it] = d->dest[it - offset]`, and
`d->dest += length`. -/
def copyMatch (offset : ℕ) : ℕ → Inflate Unit
  | 0 => return
  | length + 1 => do
      let d ← get
      if d.dest.length < offset then
        throw .beforeDest
      else
        storeDest cap (← load d.dest (d.dest.length - offset))
        copyMatch offset length

/-- A turn of the loop over the symbols of a block that began at `t_dest`. -/
def symbolTurn (t_dest : ℕ) : Inflate (Turn Unit Unit) := do
  let symbol ← decodeLl
  if ← failed then
    return .leave ()
  else if symbol = SYM_LL_EOB then
    modify fun d => { d with dest_size := d.dest_size + (d.dest.length - t_dest) }
    return .leave ()
  else if symbol < SYM_LL_EOB then
    storeDest cap (UInt8.ofNat symbol)
    return .again ()
  else
    let length ← getLength symbol
    let distance ← decodeDistance
    let offset ← getOffset distance
    if ← failed then
      return .leave ()
    else
      copyMatch cap offset length
      return .again ()

def deflateBlock (turns : ℕ) : Inflate Unit := do
  let t_dest := (← get).dest.length
  iterate .unfinished (fun _ => symbolTurn cap t_dest) turns ()

/-- `for (it = length; it > 0; it--) *d->dest++ = *d->in_ptr++`. -/
def copyStored : ℕ → Inflate Unit
  | 0 => return
  | it + 1 => do
      let d ← get
      let b ← loadSource d.source d.in_ptr
      set { d with in_ptr := d.in_ptr + 1 }
      storeDest cap b
      copyStored it

def deflateUncompressedBlock : Inflate Unit := do
  let d ← get
  if d.in_end - d.in_ptr < 4 then
    raise .OVERFLOW
  else
    let length ← getUnalignedLe16 d.source d.in_ptr
    let in_ptr := d.in_ptr + 4
    set { d with in_ptr }
    if d.in_end - in_ptr < length then
      raise .OVERFLOW
    else
      copyStored cap length
      modify fun d => { d with dest_size := d.dest_size + length, bit_accum := 0, nr_bits := 0 }

def BTYPE_NO_COMPRESSION : ℕ := 0

def BTYPE_COMPRESSED_FIXED : ℕ := 1

def BTYPE_COMPRESSED_DYNAMIC : ℕ := 2

/-- What `deflate_buffer` does with a block of each type. -/
def deflateBlockOfType (turns block_type : ℕ) : Inflate Unit := do
  if block_type = BTYPE_NO_COMPRESSION then
    deflateUncompressedBlock cap
  else if block_type = BTYPE_COMPRESSED_FIXED then
    let d ← get
    let (ll, distance) ← huffmanFixedTree d.ll d.distance
    set { d with ll, distance }
    deflateBlock cap turns
  else if block_type = BTYPE_COMPRESSED_DYNAMIC then
    huffmanDynamicTree turns
    if ← failed then
      return
    else
      deflateBlock cap turns
  else
    raise .UNDEFINED

/-- A turn of the loop over the blocks. -/
def bufferTurn (turns : ℕ) : Inflate (Turn Unit Unit) := do
  let block_final ← getBits 1
  let block_type ← getBits 2
  if ← failed then
    return .leave ()
  else
    deflateBlockOfType cap turns block_type
    if block_final = 0 ∧ (← get).error = .NONE then
      return .again ()
    else
      return .leave ()

end Blocks

/-- The `struct deflate` that `deflate_buffer` starts with; the trees on its stack hold
nothing yet. -/
def initial (source : List UInt8) : Deflate where
  source
  in_ptr := 0
  dest := []
  error := .NONE
  bit_accum := 0
  nr_bits := 0
  dest_size := 0
  ll := ⟨List.replicate MAX_BITS 0, List.replicate MAX_SYMBOLS none⟩
  distance := ⟨List.replicate MAX_BITS 0, List.replicate MAX_SYMBOLS none⟩

/-- More turns than a loop over the source takes when every turn uses up a bit. -/
def turnBound (source : List UInt8) : ℕ := 8 * source.length + 1

/-- What `deflate_buffer` leaves behind: its result, `*dest_len`, and the `struct deflate`
with the bytes it has stored. -/
structure Inflated where
  error : Err
  dest_len : ℕ
  d : Deflate
  deriving DecidableEq, Repr

def deflateBuffer (cap dest_len : ℕ) (source : List UInt8) : Except Fault Inflated := do
  let turns := turnBound source
  let (_, d) ← iterate .unfinished (fun _ => bufferTurn cap turns) turns () (initial source)
  return ⟨d.error, if d.error = .NONE then d.dest_size else dest_len, d⟩

end Cyanea.Boot
