/-
# Reading deflate bits without insisting on every rule

A reader that follows RFC 1951 but only takes note where a stream breaks one of the rules
in `Rule`. It refuses its input where a stream is cut short, where no codeword matches,
where the block type is the reserved one and where there is no code length to repeat; and
it is lost where a broken rule leaves nothing to go on with. The grammar describes the
readings that end well and break no rule.
-/

import Cyanea.Math.Simulation
import Cyanea.Rfc1951.Grammar
import Mathlib.Data.List.Infix

namespace Cyanea.Rfc1951

open Math.Bits Math.PrefixCode
open Math.Simulation (Reader Result Turn run_bind)

/-- What a stream can break without the reader refusing it. -/
inductive Rule
  /-- At most 286 literal and length codes are sent. -/
  | literalCodes
  /-- `NLEN` is the complement of `LEN`. -/
  | complement
  /-- No set of code lengths asks for too many codewords. -/
  | subscription
  /-- A repeated code length does not run past the last one. -/
  | runLength
  /-- The length symbols 286 and 287 do not occur. -/
  | lengthSymbol
  /-- The distance symbols 30 and 31 do not occur. -/
  | distanceSymbol
  /-- A distance does not reach back behind the first byte of output. -/
  | distance
  deriving DecidableEq, Repr

/-- Where a reading stands: the bits to come, the output, and the rules broken so far. -/
structure Reading where
  bits : List Bool
  out : List UInt8
  broken : List Rule
  deriving DecidableEq, Repr

/-- Readings use up bits, append output and add to the rules broken. -/
instance : Preorder Reading where
  le r r' := r'.bits <:+ r.bits ∧ r.out <+: r'.out ∧ r.broken <+: r'.broken
  le_refl r := ⟨List.suffix_rfl, List.prefix_rfl, List.prefix_rfl⟩
  le_trans _ _ _ h h' := ⟨h'.1.trans h.1, h.2.1.trans h'.2.1, h.2.2.trans h'.2.2⟩

theorem Reading.out_le {r r' : Reading} (h : r ≤ r') : r.out.length ≤ r'.out.length :=
  h.2.1.length_le

theorem Reading.bits_le {r r' : Reading} (h : r ≤ r') : r'.bits.length ≤ r.bits.length :=
  h.1.length_le

variable {β : Type}

/-- How much there is left to read. -/
def Reading.left (r : Reading) : ℕ := r.bits.length

/-! ## Steps -/

/-- A number of `k` bits. -/
def number (k : ℕ) : Reader Reading ℕ :=
  ⟨fun r =>
    if k ≤ r.bits.length then .ok (toNat (r.bits.take k)) { r with bits := r.bits.drop k }
    else .rejected r, by
    intro r
    split
    · exact ⟨List.drop_suffix _ _, List.prefix_rfl, List.prefix_rfl⟩
    · exact le_rfl⟩

/-- A number of `k` bits above a base. -/
def above (base k : ℕ) : Reader Reading ℕ := do
  return base + (← number k)

/-- A symbol of the code with these codeword lengths. -/
def symbol (lens : List ℕ) : Reader Reading ℕ :=
  ⟨fun r =>
    match decode lens maxBits r.bits with
    | some (s, bits) => .ok s { r with bits }
    | none => .rejected r, by
    intro r
    cases h : decode lens maxBits r.bits with
    | some p =>
        obtain ⟨w, -, -, hw⟩ := decode_eq_some_iff.1 h
        exact ⟨⟨w, hw.symm⟩, List.prefix_rfl, List.prefix_rfl⟩
    | none => exact le_rfl⟩

/-- Skip to the next byte boundary. -/
def align : Reader Reading Unit :=
  ⟨fun r => .ok () { r with bits := r.bits.drop (r.bits.length % 8) },
    fun _ => ⟨List.drop_suffix _ _, List.prefix_rfl, List.prefix_rfl⟩⟩

/-- `k` bytes. -/
def bytes : ℕ → Reader Reading (List UInt8)
  | 0 => pure []
  | k + 1 => do
      let b ← number 8
      return UInt8.ofNat b :: (← bytes k)

/-- Append bytes to the output. -/
def emit (data : List UInt8) : Reader Reading Unit :=
  ⟨fun r => .ok () { r with out := r.out ++ data },
    fun _ => ⟨List.suffix_rfl, List.prefix_append _ _, List.prefix_rfl⟩⟩

theorem prefix_copyBack (distance length : ℕ) (out : List UInt8) :
    out <+: copyBack distance length out := by
  induction length generalizing out with
  | zero => exact List.prefix_rfl
  | succ length ih => exact (List.prefix_append _ _).trans (ih _)

/-- A rule that is broken unless `p` holds. -/
def require (rule : Rule) (p : Prop) [Decidable p] : Reader Reading Unit :=
  ⟨fun r => .ok () (if p then r else { r with broken := r.broken ++ [rule] }), by
    intro r
    show r ≤ if p then r else _
    split
    · exact le_rfl
    · exact ⟨List.suffix_rfl, List.prefix_rfl, List.prefix_append _ _⟩⟩

theorem run_require (rule : Rule) (p : Prop) [Decidable p] (bits : List Bool)
    (out : List UInt8) (broken : List Rule) :
    (require rule p).run ⟨bits, out, broken⟩ =
      .ok () ⟨bits, out, if p then broken else broken ++ [rule]⟩ := by
  show Result.ok () (if p then _ else _) = _
  split <;> rfl

/-- A rule is broken and there is no going on. -/
def lose (rule : Rule) : Reader Reading β :=
  ⟨fun r => .lost { r with broken := r.broken ++ [rule] },
    fun _ => ⟨List.suffix_rfl, List.prefix_rfl, List.prefix_append _ _⟩⟩

/-- Copy bytes from the output, which has to reach back that far. -/
def copy (distance length : ℕ) : Reader Reading Unit :=
  ⟨fun r =>
    if distance ≤ r.out.length then .ok () { r with out := copyBack distance length r.out }
    else .lost { r with broken := r.broken ++ [.distance] }, by
    intro r
    split
    · exact ⟨List.suffix_rfl, prefix_copyBack _ _ _, List.prefix_rfl⟩
    · exact ⟨List.suffix_rfl, List.prefix_rfl, List.prefix_append _ _⟩⟩

/-- Length symbol 286 asks for more extra bits than a number can have: a reading is lost
once 40 of them are there, and otherwise refused for the bits that are missing. -/
def tooManyBits : Reader Reading β :=
  ⟨fun r =>
    if 40 ≤ r.bits.length then .lost { r with broken := r.broken ++ [.lengthSymbol] }
    else .rejected r, by
    intro r
    split
    · exact ⟨List.suffix_rfl, List.prefix_rfl, List.prefix_append _ _⟩
    · exact le_rfl⟩

theorem number_append {k : ℕ} {e : List Bool} (he : e.length = k) (bits : List Bool)
    (out : List UInt8) (broken : List Rule) :
    (number k).run ⟨e ++ bits, out, broken⟩ = .ok (toNat e) ⟨bits, out, broken⟩ := by
  refine (if_pos (by simp [he])).trans ?_
  rw [List.take_left' he, List.drop_left' he]

theorem number_rejected {k : ℕ} {r : Reading} (h : r.bits.length < k) :
    (number k).run r = .rejected r :=
  if_neg (not_le.2 h)

theorem symbol_append {lens : List ℕ} {s : ℕ} {w : List Bool} (hw : Assigns lens s w)
    (hlen : w.length ≤ maxBits) (bits : List Bool) (out : List UInt8) (broken : List Rule) :
    (symbol lens).run ⟨w ++ bits, out, broken⟩ = .ok s ⟨bits, out, broken⟩ := by
  have h : decode lens maxBits (w ++ bits) = some (s, bits) :=
    decode_eq_some_iff.2 ⟨w, hlen, hw, rfl⟩
  simp only [symbol, h]

theorem bytes_ofBytes (k : ℕ) (data out : List UInt8) (broken : List Rule)
    (rest : List Bool) (hk : data.length = k) :
    (bytes k).run ⟨ofBytes data ++ rest, out, broken⟩ = .ok data ⟨rest, out, broken⟩ := by
  induction k generalizing data with
  | zero =>
      rw [List.length_eq_zero_iff.1 hk]
      rfl
  | succ k ih =>
      obtain ⟨b, data, rfl⟩ := List.exists_cons_of_length_eq_add_one hk
      rw [bytes, run_bind, ofBytes_cons, List.append_assoc, number_append (by simp)]
      show Result.bind ((bytes k).run _) _ = _
      rw [ih data (by simpa using hk)]
      simp [Result.bind, Nat.mod_eq_of_lt b.toNat_lt]

theorem bytes_rejected (k : ℕ) (data out : List UInt8) (broken : List Rule)
    (hk : data.length < k) :
    ∃ bits, (bytes k).run ⟨ofBytes data, out, broken⟩ = .rejected ⟨bits, out, broken⟩ := by
  induction k generalizing data with
  | zero => exact absurd hk (Nat.not_lt_zero _)
  | succ k ih =>
      rw [bytes, run_bind]
      cases data with
      | nil => exact ⟨[], by rw [number_rejected (by simp)]; rfl⟩
      | cons b data =>
          obtain ⟨bits, hbits⟩ := ih data (by simpa using hk)
          refine ⟨bits, ?_⟩
          rw [ofBytes_cons, number_append (by simp)]
          show Result.bind ((bytes k).run _) _ = _
          rw [hbits]
          rfl

/-! ## Codes -/

/-- The code length that a symbol stands for and how often, after the lengths `lens`. -/
def repeated (lens : List ℕ) (s : ℕ) : Reader Reading (ℕ × ℕ) :=
  if s = 16 then
    match lens.getLast? with
    | some l => do return (l, ← above 3 2)
    | none => .reject
  else if s = 17 then do
    return (0, ← above 3 3)
  else if s = 18 then do
    return (0, ← above 11 7)
  else
    return (s, 1)

/-- The room there is for code lengths, those that run past the last one included. -/
def maxLengths : ℕ := 320

def lengthTurn (code : List ℕ) (n : ℕ) (lens : List ℕ) :
    Reader Reading (Turn (List ℕ) (List ℕ)) := do
  if lens.length < n then
    let s ← symbol code
    let (l, k) ← repeated lens s
    require .runLength (lens.length + k ≤ n)
    if lens.length + k ≤ maxLengths then
      return .again (lens ++ List.replicate k l)
    else
      lose .runLength
  else
    return .leave lens

/-- `k` numbers of three bits. -/
def threeBits : ℕ → Reader Reading (List ℕ)
  | 0 => pure []
  | k + 1 => do
      let l ← number 3
      return l :: (← threeBits k)

/-- The codes of a block that sends its own: literals and lengths, and distances. -/
def codes : Reader Reading (List ℕ × List ℕ) := do
  let hlit ← above 257 5
  let hdist ← above 1 5
  let hclen ← above 4 4
  require .literalCodes (hlit ≤ 286)
  let sent ← threeBits hclen
  let code := codeLengthCode sent
  require .subscription (¬ OverSubscribed code maxBits)
  let lens ← Reader.iterateWithin Reading.left
    (lengthTurn code (hlit + hdist)) []
  let literal := lens.take hlit
  let distance := (lens.drop hlit).take hdist
  require .subscription (¬ OverSubscribed literal maxBits)
  require .subscription (¬ OverSubscribed distance maxBits)
  return (literal, distance)

/-! ## Blocks -/

/-- The length that a length symbol, counted from 257, stands for. -/
def lengthOf (s : ℕ) : Reader Reading ℕ :=
  match lengthCodes[s]? with
  | some (k, len) => above len k
  | none => if s = 29 then tooManyBits else lose .lengthSymbol

/-- The distance that a distance symbol stands for. -/
def distanceOf (t : ℕ) : Reader Reading ℕ :=
  match distanceCodes[t]? with
  | some (k, dist) => above dist k
  | none => lose .distanceSymbol

def symbolTurn (literal dist : List ℕ) : Reader Reading (Turn Unit Unit) := do
  let s ← symbol literal
  if s = endOfBlock then
    return .leave ()
  else if s < endOfBlock then
    emit [UInt8.ofNat s]
    return .again ()
  else
    let length ← lengthOf (s - 257)
    let t ← symbol dist
    let distance ← distanceOf t
    copy distance length
    return .again ()

def symbols (literal dist : List ℕ) : Reader Reading Unit :=
  Reader.iterateWithin Reading.left (fun _ => symbolTurn literal dist) ()

/-- A stored block: `LEN`, `NLEN` and the bytes themselves. -/
def stored : Reader Reading Unit := do
  align
  let len ← number 16
  let nlen ← number 16
  require .complement (nlen = 2 ^ 16 - 1 - len)
  let data ← bytes len
  emit data

/-- A block of one of the types. -/
def block : ℕ → Reader Reading Unit
  | 0 => stored
  | 1 => symbols fixedLiteral fixedDistance
  | 2 => do
      let (literal, dist) ← codes
      symbols literal dist
  | _ => .reject

def blockTurn : Reader Reading (Turn Unit Unit) := do
  let final ← number 1
  let type ← number 2
  block type
  if final = 0 then
    return .again ()
  else
    return .leave ()

def blocks : Reader Reading Unit :=
  Reader.iterateWithin Reading.left (fun _ => blockTurn) ()

/-- The reading of a byte string from its first bit on. -/
def read (source : List UInt8) : Result Reading Unit :=
  blocks.run ⟨ofBytes source, [], []⟩

end Cyanea.Rfc1951
