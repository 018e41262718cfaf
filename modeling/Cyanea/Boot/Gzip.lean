/-
# The gzip image of the kernel

The model of `update_crc32` and `decompress_gzip` in `efi-boot/deflate.c`, and of the size
that `__x86_efi_entry` gives to the destination. Pointers into the source are offsets. The
destination has `cap` bytes; `*dest_len` is a value of its own, since the code takes the
one it is passed for nothing.
-/

import Cyanea.Boot.Deflate
import Cyanea.Errno

namespace Cyanea.Boot

def crctab32 : List (BitVec 32) :=
  [0x00000000, 0x1DB71064, 0x3B6E20C8, 0x26D930AC, 0x76DC4190, 0x6B6B51F4, 0x4DB26158,
    0x5005713C, 0xEDB88320, 0xF00F9344, 0xD6D6A3E8, 0xCB61B38C, 0x9B64C2B0, 0x86D3D2D4,
    0xA00AE278, 0xBDBDF21C]

/-- `crctab32[crc & 0x0F] ^ (crc >> 4)`. -/
def crcNibble (crc : BitVec 32) : Except Fault (BitVec 32) := do
  return (← load crctab32 (crc &&& 0x0F).toNat) ^^^ (crc >>> 4)

def updateCrc32 (buffer : List UInt8) (size : ℕ) : Except Fault (BitVec 32) := do
  if size = 0 then
    return 0
  else
    let crc ← (List.range size).foldlM (fun crc n => do
      crcNibble (← crcNibble (crc ^^^ BitVec.ofNat 32 (← load buffer n).toNat))) 0xFFFFFFFF
    return crc ^^^ 0xFFFFFFFF

def F_HCRC : ℕ := 1 <<< 1

def F_EXTRA : ℕ := 1 <<< 2

def F_NAME : ℕ := 1 <<< 3

def F_COMMENT : ℕ := 1 <<< 4

/-- `get_unaligned_le32(source + i)`. -/
def getUnalignedLe32 (source : List UInt8) (i : ℕ) : Except Fault ℕ := do
  return (← getUnalignedLe16 source i) + 2 ^ 16 * (← getUnalignedLe16 source (i + 2))

section Header

variable (source : List UInt8) (flag : ℕ)

/-- Where `start` is behind the extra field; `none` where it is past the end. -/
def skipExtra (start : ℕ) : Except Fault (Option ℕ) := do
  if flag &&& F_EXTRA ≠ 0 then
    let start := start + ((← getUnalignedLe16 source start) + 2)
    if source.length < start then
      return none
    else
      return some start
  else
    return some start

/-- `do { if (start == end) return -EINVAL; } while (*start++)`, with at most `n` turns. -/
def skipString : ℕ → ℕ → Except Fault (Option ℕ)
  | 0, _ => throw .unfinished
  | n + 1, start => do
      if start = source.length then
        return none
      else
        if (← loadSource source start) ≠ 0 then
          skipString n (start + 1)
        else
          return some (start + 1)

/-- Where `start` is behind the string that the bit `mask` of the flags announces. -/
def skipField (mask start : ℕ) : Except Fault (Option ℕ) := do
  if flag &&& mask ≠ 0 then
    skipString source (source.length + 1) start
  else
    return some start

/-- Where `start` is behind the header check, when that holds. -/
def skipHcrc (start : ℕ) : Except Fault (Option ℕ) := do
  if flag &&& F_HCRC ≠ 0 then
    if source.length < start + 2 then
      return none
    else
      let crc16 := (← updateCrc32 source start).toNat &&& 0xFFFF
      if crc16 ≠ (← getUnalignedLe16 source start) then
        return none
      else
        return some (start + 2)
  else
    return some start

/-- The tests that `decompress_gzip` starts with. -/
def invalid : Bool :=
  source.length < 18 || source.getD 0 0 ≠ 0x1F || source.getD 1 0 ≠ 0x8B ||
    source.getD 2 0 ≠ 0x8 || (source.getD 3 0).toNat &&& 0xE0 ≠ 0

end Header

/-- `start` when the deflate data begins, and `none` for every `return -EINVAL` before. -/
def skipHeader (source : List UInt8) : Except Fault (Option ℕ) := do
  if invalid source then
    return none
  else
    let flag := (source.getD 3 0).toNat
    let some start ← skipExtra source flag 10 | return none
    let some start ← skipField source flag F_NAME start | return none
    let some start ← skipField source flag F_COMMENT start | return none
    let some start ← skipHcrc source flag start | return none
    if source.length < start + 8 then
      return none
    else
      return some start

/-- What `decompress_gzip` leaves behind: its result, `*dest_len`, and the bytes stored. -/
structure Decompressed where
  result : ℤ
  dest_len : ℕ
  dest : List UInt8
  deriving DecidableEq, Repr

def decompressGzip (cap dest_len : ℕ) (source : List UInt8) : Except Fault Decompressed := do
  let some start ← skipHeader source | return ⟨-EINVAL, dest_len, []⟩
  let inflated ← deflateBuffer cap dest_len
    ((source.drop start).take (source.length - start - 8))
  if inflated.error ≠ .NONE then
    return ⟨-EINVAL, inflated.dest_len, inflated.d.dest⟩
  else if (← updateCrc32 inflated.d.dest inflated.dest_len).toNat ≠
      (← getUnalignedLe32 source (source.length - 8)) then
    return ⟨-EINVAL, inflated.dest_len, inflated.d.dest⟩
  else
    return ⟨SUCCESS, inflated.dest_len, inflated.d.dest⟩

def MIN_KERNEL_ALIGN : ℕ := 2 ^ 21

/-- `ROUND_UP(x, MIN_KERNEL_ALIGN)` of a `u32`. -/
def roundUp (x : ℕ) : ℕ :=
  ((x + (MIN_KERNEL_ALIGN - 1)) % 2 ^ 32) &&& (2 ^ 32 - 1 - (MIN_KERNEL_ALIGN - 1))

/-- `ukernel_size` in `__x86_efi_entry`, from the last four bytes of the image. -/
def ukernelSize (source : List UInt8) : Except Fault ℕ := do
  return roundUp (← getUnalignedLe32 source (source.length - 4))

end Cyanea.Boot
