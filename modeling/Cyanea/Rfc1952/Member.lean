/-
# The gzip format

RFC 1952: a member is a header with optional fields, a deflate stream, and a trailer with
the CRC-32 and the length of the data the stream stands for. Numbers are stored with their
least significant byte first.
-/

import Cyanea.Math.Crc
import Cyanea.Rfc1951.Grammar

namespace Cyanea.Rfc1952

open Math Math.Bits Rfc1951

/-- The polynomial of CRC-32, lowest power first. -/
def polynomial : BitVec 32 := 0xEDB88320

def crc32 (data : List UInt8) : BitVec 32 := Crc.check polynomial data

/-- The number that some bytes store. -/
def number (bytes : List UInt8) : ℕ := toNat (ofBytes bytes)

/-- An optional field: there as `P` says if the bit `i` of the flags is set, and otherwise
empty. -/
def Optional (flags : UInt8) (i : ℕ) (P : List UInt8 → Prop) (field : List UInt8) : Prop :=
  if flags.toNat.testBit i = true then P field else field = []

/-- The extra field: its length in two bytes, and its data. -/
def Extra (field : List UInt8) : Prop :=
  ∃ xlen data : List UInt8, field = xlen ++ data ∧ xlen.length = 2 ∧ number xlen = data.length

/-- A name or a comment. -/
def ZeroTerminated (field : List UInt8) : Prop :=
  ∃ text : List UInt8, field = text ++ [0] ∧ 0 ∉ text

/-- The header check: the low half of the CRC-32 of what stands before it. -/
def Hcrc (before field : List UInt8) : Prop :=
  field.length = 2 ∧ number field = (crc32 before).toNat % 2 ^ 16

/-- A member header (section 2.3). -/
def Header (header : List UInt8) : Prop :=
  ∃ (flags : UInt8) (fixed extra name comment hcrc : List UInt8),
    header = [0x1f, 0x8b, 8, flags] ++ fixed ++ extra ++ name ++ comment ++ hcrc ∧
    flags.toNat < 2 ^ 5 ∧ fixed.length = 6 ∧ Optional flags 2 Extra extra ∧
    Optional flags 3 ZeroTerminated name ∧ Optional flags 4 ZeroTerminated comment ∧
    Optional flags 1
      (Hcrc ([0x1f, 0x8b, 8, flags] ++ fixed ++ extra ++ name ++ comment)) hcrc

/-- A byte string with a member header in front and a trailer of two numbers behind. -/
def Framed (source body crc isize : List UInt8) : Prop :=
  ∃ header, Header header ∧ source = header ++ (body ++ (crc ++ isize)) ∧ crc.length = 4 ∧
    isize.length = 4

/-- A byte string that is one member and stands for `data`. The deflate stream ends in the
last byte before the trailer. -/
def Member (source data : List UInt8) : Prop :=
  ∃ body crc isize, Framed source body crc isize ∧
    (∃ rest, Stream body data rest ∧ rest.length < 8) ∧
    number crc = (crc32 data).toNat ∧ number isize = data.length % 2 ^ 32

end Cyanea.Rfc1952
