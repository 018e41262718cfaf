/-
# The deflate format

RFC 1951 as a grammar over bits. A byte string is the list of its bits, least significant
first in each byte; numbers are packed with their least significant bit first, codewords
with their most significant bit first. Each relation takes the output so far and the bits
to come, and gives the output after its part of the stream and the bits that are left.
-/

import Cyanea.Math.PrefixCode

namespace Cyanea.Rfc1951

open Math.Bits Math.PrefixCode

/-- The longest codeword of the format. -/
def maxBits : ℕ := 15

/-- The symbol that ends a block. -/
def endOfBlock : ℕ := 256

/-- The literal codes of a block with fixed codes (section 3.2.6). -/
def fixedLiteral : List ℕ :=
  List.replicate 144 8 ++ List.replicate 112 9 ++ List.replicate 24 7 ++ List.replicate 8 8

/-- The distance codes of a block with fixed codes. -/
def fixedDistance : List ℕ := List.replicate 32 5

/-- Extra bits and smallest length of the length symbols, from 257 on (section 3.2.5). -/
def lengthCodes : List (ℕ × ℕ) :=
  [(0, 3), (0, 4), (0, 5), (0, 6), (0, 7), (0, 8), (0, 9), (0, 10), (1, 11), (1, 13), (1, 15),
    (1, 17), (2, 19), (2, 23), (2, 27), (2, 31), (3, 35), (3, 43), (3, 51), (3, 59), (4, 67),
    (4, 83), (4, 99), (4, 115), (5, 131), (5, 163), (5, 195), (5, 227), (0, 258)]

/-- Extra bits and smallest distance of the distance symbols. -/
def distanceCodes : List (ℕ × ℕ) :=
  [(0, 1), (0, 2), (0, 3), (0, 4), (1, 5), (1, 7), (2, 9), (2, 13), (3, 17), (3, 25), (4, 33),
    (4, 49), (5, 65), (5, 97), (6, 129), (6, 193), (7, 257), (7, 385), (8, 513), (8, 769),
    (9, 1025), (9, 1537), (10, 2049), (10, 3073), (11, 4097), (11, 6145), (12, 8193),
    (12, 12289), (13, 16385), (13, 24577)]

/-- The order in which the lengths of the code length code are sent (section 3.2.7). -/
def codeLengthOrder : List ℕ :=
  [16, 17, 18, 0, 8, 7, 9, 6, 10, 5, 11, 4, 12, 3, 13, 2, 14, 1, 15]

/-- The code length code when these lengths were sent; the ones not sent are zero. -/
def codeLengthCode (sent : List ℕ) : List ℕ :=
  (List.range codeLengthOrder.length).map fun s => sent.getD (codeLengthOrder.idxOf s) 0

/-- Append `length` bytes, each the one `distance` bytes back; the string that is copied
may run into the copy. -/
def copyBack (distance : ℕ) : ℕ → List UInt8 → List UInt8
  | 0, out => out
  | length + 1, out =>
      copyBack distance length (out ++ [out.getD (out.length - distance) 0])

/-- The lengths of `n` codewords, `lens` of them known, sent by a code length code. -/
inductive CodeLengths (code : List ℕ) (n : ℕ) :
    List ℕ → List Bool → List ℕ → List Bool → Prop
  | done {lens bits} (hn : lens.length = n) : CodeLengths code n lens bits lens bits
  | one {lens w bits lens' rest s} (hw : Assigns code s w) (hs : s < 16)
      (hn : lens.length + 1 ≤ n) (htail : CodeLengths code n (lens ++ [s]) bits lens' rest) :
      CodeLengths code n lens (w ++ bits) lens' rest
  | copy {lens w e bits lens' rest l} (hw : Assigns code 16 w)
      (hl : lens.getLast? = some l) (he : e.length = 2)
      (hn : lens.length + (3 + Math.Bits.toNat e) ≤ n)
      (htail : CodeLengths code n (lens ++ List.replicate (3 + Math.Bits.toNat e) l) bits lens' rest) :
      CodeLengths code n lens (w ++ (e ++ bits)) lens' rest
  | zeros {lens w e bits lens' rest} (hw : Assigns code 17 w) (he : e.length = 3)
      (hn : lens.length + (3 + Math.Bits.toNat e) ≤ n)
      (htail : CodeLengths code n (lens ++ List.replicate (3 + Math.Bits.toNat e) 0) bits lens' rest) :
      CodeLengths code n lens (w ++ (e ++ bits)) lens' rest
  | manyZeros {lens w e bits lens' rest} (hw : Assigns code 18 w) (he : e.length = 7)
      (hn : lens.length + (11 + Math.Bits.toNat e) ≤ n)
      (htail : CodeLengths code n (lens ++ List.replicate (11 + Math.Bits.toNat e) 0) bits lens' rest) :
      CodeLengths code n lens (w ++ (e ++ bits)) lens' rest

/-- The codes of a block that sends its own (section 3.2.7). -/
inductive Codes : List Bool → List ℕ → List ℕ → List Bool → Prop
  | intro {a b c : List Bool} {fields : List (List Bool)} {bits rest : List Bool}
      {lens : List ℕ} (ha : a.length = 5) (hb : b.length = 5) (hc : c.length = 4)
      (hlit : Math.Bits.toNat a + 257 ≤ 286)
      (hfields : fields.length = Math.Bits.toNat c + 4) (hthree : ∀ f ∈ fields, f.length = 3)
      (hcode : ¬ OverSubscribed (codeLengthCode (fields.map Math.Bits.toNat)) maxBits)
      (hlens : CodeLengths (codeLengthCode (fields.map Math.Bits.toNat))
        ((Math.Bits.toNat a + 257) + (Math.Bits.toNat b + 1)) [] bits lens rest)
      (hliteral : ¬ OverSubscribed (lens.take (Math.Bits.toNat a + 257)) maxBits)
      (hdistance : ¬ OverSubscribed (lens.drop (Math.Bits.toNat a + 257)) maxBits) :
      Codes (a ++ (b ++ (c ++ (fields.flatten ++ bits))))
        (lens.take (Math.Bits.toNat a + 257)) (lens.drop (Math.Bits.toNat a + 257)) rest

/-- The symbols of a compressed block, up to the one that ends it (section 3.2.3). -/
inductive Symbols (literal distance : List ℕ) :
    List UInt8 → List Bool → List UInt8 → List Bool → Prop
  | stop {out w bits} (hw : Assigns literal endOfBlock w) :
      Symbols literal distance out (w ++ bits) out bits
  | literal {out w bits out' rest s} (hw : Assigns literal s w) (hs : s < endOfBlock)
      (htail : Symbols literal distance (out ++ [UInt8.ofNat s]) bits out' rest) :
      Symbols literal distance out (w ++ bits) out' rest
  | copy {out w e w' e' bits out' rest s t len dist} (hw : Assigns literal (257 + s) w)
      (hlen : lengthCodes[s]? = some (e.length, len)) (hw' : Assigns distance t w')
      (hdist : distanceCodes[t]? = some (e'.length, dist))
      (hback : dist + Math.Bits.toNat e' ≤ out.length)
      (htail : Symbols literal distance (copyBack (dist + Math.Bits.toNat e') (len + Math.Bits.toNat e) out)
        bits out' rest) :
      Symbols literal distance out (w ++ (e ++ (w' ++ (e' ++ bits)))) out' rest

/-- A block behind the bit that says whether it is the last one. A stored block starts at
the next byte boundary, which is known from the number of bits left. -/
inductive Block : List UInt8 → List Bool → List UInt8 → List Bool → Prop
  | stored {out pad rest} {data : List UInt8} (hpad : pad.length < 8)
      (halign : rest.length % 8 = 0) (hdata : data.length < 2 ^ 16) :
      Block out (ofNat 2 0 ++ (pad ++ (ofNat 16 data.length ++
        (ofNat 16 (2 ^ 16 - 1 - data.length) ++ (ofBytes data ++ rest))))) (out ++ data) rest
  | fixed {out bits out' rest} (h : Symbols fixedLiteral fixedDistance out bits out' rest) :
      Block out (ofNat 2 1 ++ bits) out' rest
  | dynamic {out bits literal distance mid out' rest} (hc : Codes bits literal distance mid)
      (h : Symbols literal distance out mid out' rest) :
      Block out (ofNat 2 2 ++ bits) out' rest

/-- A sequence of blocks up to the last one. -/
inductive Blocks : List UInt8 → List Bool → List UInt8 → List Bool → Prop
  | last {out bits out' rest} (h : Block out bits out' rest) :
      Blocks out (true :: bits) out' rest
  | more {out bits out' mid out'' rest} (h : Block out bits out' mid)
      (htail : Blocks out' mid out'' rest) : Blocks out (false :: bits) out'' rest

/-- The bytes begin with a stream that decodes to `out`; the bits `rest` behind it are not
part of it. -/
def Stream (source : List UInt8) (out : List UInt8) (rest : List Bool) : Prop :=
  Blocks [] (ofBytes source) out rest

end Cyanea.Rfc1951
