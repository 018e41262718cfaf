/-
# Formatted output

The model of `uklib/io_buffer/vsnprintf.c`. The formatters never look at what
`__iob_write` returns, so each is the list of the strings that it writes. An overflow of an
`int` and a write outside of `t_str` have no result. The scanner reads its format as what
is left of it, and takes its arguments off the front of a list; it is the list of the calls
that it makes.
-/

import Cyanea.Word
import Cyanea.Text
import Cyanea.IoBuffer.Buffer

namespace Cyanea.IoBuffer

/-- Zero modifier. -/
def FL_ZERO : ℕ := 1 <<< 0

/-- Minus modifier. -/
def FL_MINUS : ℕ := 1 <<< 1

/-- Plus modifier. -/
def FL_PLUS : ℕ := 1 <<< 2

/-- Space modifier. -/
def FL_SPACE : ℕ := 1 <<< 3

/-- `'#'` modifier. -/
def FL_HASH : ℕ := 1 <<< 4

/-- Number is signed. -/
def FL_SIGNED : ℕ := 1 <<< 5

/-- Upper case digits. -/
def FL_UPPER : ℕ := 1 <<< 6

def RANK_CHAR : ℤ := -2

def RANK_SHORT : ℤ := -1

def RANK_INT : ℤ := 0

def RANK_LONG : ℤ := 1

def RANK_LLONG : ℤ := 2

/-- `sizeof(void *)`. -/
def sizeofPointer : ℕ := 8

/-- `flags & flag`. -/
abbrev Has (flags flag : ℕ) : Prop := flags &&& flag ≠ 0

/-- The value of an `int` expression, if it is one. -/
def toInt (z : ℤ) : Option ℤ := if -2 ^ 31 ≤ z ∧ z < 2 ^ 31 then some z else none

/-! ## The formatters -/

/-- `put_padding`. -/
def putPadding (condition : Prop) [Decidable condition] (c : UInt8) (width nchar : ℤ) :
    List (List UInt8) :=
  if condition ∧ nchar < width then List.replicate (width - nchar).toNat [c] else []

/-- `digits(flags)[i]`. -/
def digits (flags i : ℕ) : UInt8 :=
  if i < 10 then code '0' + UInt8.ofNat i
  else (if Has flags FL_UPPER then code 'A' else code 'a') + UInt8.ofNat (i - 10)

/-- The loop that counts the digits of `t_value`, for a base that has digits. -/
def countDigits (base t_value : ℕ) : ℕ :=
  if _h : 1 < base ∧ t_value / base ≠ 0 then countDigits base (t_value / base) + 1 else 1
  termination_by t_value
  decreasing_by exact Nat.div_lt_self (by by_contra h0; simp_all) _h.1

/-- The loop that puts the last `t_ndigit` digits in front of `t_str`. -/
def putDigits (flags base : ℕ) : (t_ndigit : ℕ) → (value : ℕ) → (t_str : List UInt8) →
    List UInt8
  | 0, _, t_str => t_str
  | t_ndigit + 1, value, t_str =>
      putDigits flags base t_ndigit (value / base) (digits flags (value % base) :: t_str)

/-- `format_int`. -/
def formatInt (value flags base : ℕ) (width precision : ℤ) : Option (List (List UInt8)) :=
  let minus := Has flags FL_SIGNED ∧ 2 ^ 63 ≤ value
  let value := if minus then sub64 0 value else value
  let ndigits : ℤ := max (countDigits base value) precision
  let nchar := ndigits +
    (if minus ∨ Has flags FL_PLUS ∨ Has flags FL_SPACE then 1 else 0) +
    (if Has flags FL_HASH then if base = 16 then 2 else if base = 8 then 1 else 0 else 0)
  if ndigits ≤ 64 then
    some
      (putPadding (¬ Has flags FL_MINUS ∧ ¬ Has flags FL_ZERO) (code ' ') width nchar ++
      (if minus then [[code '-']]
        else if Has flags FL_PLUS then [[code '+']]
        else if Has flags FL_SPACE then [[code ' ']]
        else []) ++
      (if Has flags FL_HASH then
        if base = 16 then [[code '0'], [if Has flags FL_UPPER then code 'X' else code 'x']]
        else if base = 8 then [[code '0']]
        else []
      else []) ++
      putPadding (¬ Has flags FL_MINUS ∧ Has flags FL_ZERO) (code '0') width nchar ++
      [putDigits flags base ndigits.toNat value []] ++
      putPadding (Has flags FL_MINUS) (code ' ') width nchar)
  else
    none

/-- `format_str`, of a string of `count` characters. -/
def formatStr (str : List UInt8) (count : ℤ) (flags : ℕ) (width precision : ℤ) :
    List (List UInt8) :=
  let count := if precision ≠ -1 ∧ precision < count then precision else count
  putPadding (¬ Has flags FL_MINUS) (code ' ') width count ++
    [str.take count.toNat] ++ putPadding (Has flags FL_MINUS) (code ' ') width count

/-- An argument, as it is passed: the bits of an integer, a pointer, or a pointer to a
string. -/
inductive Arg
  | int (value : ℤ)
  | long (bits : ℕ)
  | longLong (bits : ℕ)
  | pointer (addr : ℕ)
  | string (str : Option CString)
  deriving DecidableEq

/-- The value that `ap_format_int` makes of an argument that has the type for its rank. -/
def apValue (flags : ℕ) (rank : ℤ) (arg : Arg) : Option ℕ :=
  match arg with
  | .int value =>
      if rank = RANK_CHAR then some (value % 2 ^ 8).toNat
      else if rank = RANK_SHORT then some (value % 2 ^ 16).toNat
      else if rank = RANK_INT then
        some (if Has flags FL_SIGNED then (value % 2 ^ 64).toNat else (value % 2 ^ 32).toNat)
      else none
  | .long bits => if rank = RANK_LONG then some bits else none
  | .longLong bits => if rank = RANK_LLONG then some bits else none
  | _ => none

/-- `ap_format_int`, with the argument that it takes. -/
def apFormatInt (base flags : ℕ) (width precision rank : ℤ) (arg : Arg) :
    Option (List (List UInt8)) := do
  formatInt (← apValue flags rank arg) flags base width precision

/-! ## The scanner -/

/-- A call that the scanner makes. -/
inductive Call
  | io_buffer_put_char (c : UInt8)
  | format_int (value flags base : ℕ) (width precision : ℤ)
  | ap_format_int (base flags : ℕ) (width precision rank : ℤ) (arg : Arg)
  | format_str (str : List UInt8) (count : ℤ) (flags : ℕ) (width precision : ℤ)
  deriving DecidableEq

/-- What a call writes. -/
def Call.writes : Call → Option (List (List UInt8))
  | .io_buffer_put_char c => some [[c]]
  | .format_int value flags base width precision => formatInt value flags base width precision
  | .ap_format_int base flags width precision rank arg =>
      apFormatInt base flags width precision rank arg
  | .format_str str count flags width precision =>
      some (formatStr str count flags width precision)

inductive State
  | ST_NORMAL
  | ST_FLAGS
  | ST_WIDTH
  | ST_PRECISION
  | ST_MODIFIERS
  deriving DecidableEq, Repr

/-- The variables of the scanner, with the arguments that are left and the calls that have
been made. -/
structure Scanner where
  state : State
  flags : ℕ
  width : ℤ
  precision : ℤ
  rank : ℤ
  ap : List Arg
  calls : List Call

/-- How a turn ends: with the loop going on, at the next character or behind it, or with a
return. -/
inductive Scanned
  | more (s : Scanner)
  | skip (s : Scanner)
  | fail (err : ℤ) (s : Scanner)

/-- A call is made, and the directive is done. -/
def Scanner.call (s : Scanner) (ap : List Arg) (call : Call) : Option Scanned :=
  some (.more { s with state := .ST_NORMAL, ap, calls := s.calls ++ [call] })

/-- `ap_format_int(io, base, flags, width, precision, rank, &ap)`, for an argument of the
type that it takes. -/
def Scanner.integer (s : Scanner) (base flags : ℕ) : Option Scanned :=
  match s.ap with
  | arg :: ap =>
      if (apValue flags s.rank arg).isSome then
        s.call ap (.ap_format_int base flags s.width s.precision s.rank arg)
      else
        none
  | [] => none

/-- `format_int(io, va_arg(ap, void *), 16, flags, width, sizeof(void *) >> 2)`. -/
def Scanner.pointer (s : Scanner) (flags : ℕ) : Option Scanned :=
  match s.ap with
  | .pointer addr :: ap =>
      s.call ap (.format_int addr flags 16 s.width ((sizeofPointer >>> 2 : ℕ) : ℤ))
  | _ => none

/-- `(null)`. -/
def null : CString := ⟨"(null)".toList.map code, by decide⟩

/-- The `switch` over the conversion. -/
def Scanner.conversion (ch : UInt8) (s : Scanner) : Option Scanned :=
  if ch = code 'P' then s.pointer (s.flags ||| FL_UPPER ||| FL_HASH)
  else if ch = code 'p' then s.pointer (s.flags ||| FL_HASH)
  else if ch = code 'd' ∨ ch = code 'i' then s.integer 10 (s.flags ||| FL_SIGNED)
  else if ch = code 'u' then s.integer 10 s.flags
  else if ch = code 'o' then s.integer 8 s.flags
  else if ch = code 'X' then s.integer 16 (s.flags ||| FL_UPPER)
  else if ch = code 'x' then s.integer 16 s.flags
  else if ch = code 'c' then
    match s.ap with
    | .int value :: ap =>
        s.call ap (.format_str [UInt8.ofNat (value % 2 ^ 8).toNat] 1 s.flags s.width s.precision)
    | _ => none
  else if ch = code 's' then
    match s.ap with
    | .string str :: ap =>
        let str := (str.getD null).chars
        s.call ap (.format_str str str.length s.flags s.width s.precision)
    | _ => none
  else
    some (.fail (-1) s)

/-- `case ST_MODIFIERS`. -/
def Scanner.modifiers (ch : UInt8) (s : Scanner) : Option Scanned :=
  if ch = code 'h' ∧ RANK_CHAR < s.rank then
    some (.more { s with rank := s.rank - 1 })
  else if ch = code 'l' ∧ s.rank < RANK_LLONG then
    some (.more { s with rank := s.rank + 1 })
  else
    s.conversion ch

/-- `ch - '0'`, for a digit. -/
def digit (ch : UInt8) : ℤ := ((ch - code '0').toNat : ℤ)

/-- `case ST_PRECISION`. -/
def Scanner.precisionChar (ch : UInt8) (s : Scanner) : Option Scanned :=
  if isdigit ch then do
    return .more { s with precision := ← toInt (s.precision * 10 + digit ch) }
  else if ch = code '*' ∧ s.precision = 0 then
    match s.ap with
    | .int value :: ap =>
        some (.more
          { s with
            state := .ST_MODIFIERS
            precision := if value < 0 then -1 else value
            ap })
    | _ => none
  else
    { s with state := .ST_MODIFIERS }.modifiers ch

/-- `case ST_WIDTH`, with the character behind `ch`. -/
def Scanner.widthChar (ch next : UInt8) (s : Scanner) : Option Scanned :=
  if isdigit ch then do
    return .more { s with width := ← toInt (s.width * 10 + digit ch) }
  else if ch = code '*' ∧ s.width = 0 then
    match s.ap with
    | .int value :: ap => do
        let state := if next ≠ code '.' then .ST_MODIFIERS else s.state
        if value < 0 then
          return .more { s with state, width := ← toInt (-value), flags := s.flags ||| FL_MINUS, ap }
        else
          return .more { s with state, width := value, ap }
    | _ => none
  else if ch = code '.' then
    some (.more { s with precision := 0, state := .ST_PRECISION })
  else
    { s with state := .ST_MODIFIERS }.modifiers ch

/-- `case ST_FLAGS`. -/
def Scanner.flagsChar (ch next : UInt8) (s : Scanner) : Option Scanned :=
  if ch = code '-' then some (.more { s with flags := s.flags ||| FL_MINUS })
  else if ch = code '+' then some (.more { s with flags := s.flags ||| FL_PLUS })
  else if ch = code ' ' then some (.more { s with flags := s.flags ||| FL_SPACE })
  else if ch = code '#' then some (.more { s with flags := s.flags ||| FL_HASH })
  else if ch = code '0' then some (.more { s with flags := s.flags ||| FL_ZERO })
  else { s with state := .ST_WIDTH }.widthChar ch next

/-- `io_buffer_put_char(io, ch)`. -/
def Scanner.put (ch : UInt8) (s : Scanner) : Scanner :=
  { s with calls := s.calls ++ [.io_buffer_put_char ch] }

/-- `case ST_NORMAL`. -/
def Scanner.normalChar (ch next : UInt8) (s : Scanner) : Scanned :=
  if ch = code '%' then
    if next ≠ code '%' then
      .more
        { s with
          state := .ST_FLAGS
          flags := 0
          rank := RANK_INT
          width := 0
          precision := -1 }
    else
      -- Ignore next '%'.
      .skip (s.put ch)
  else
    .more (s.put ch)

/-- The `switch` over the state. -/
def Scanner.turn (ch next : UInt8) (s : Scanner) : Option Scanned :=
  match s.state with
  | .ST_NORMAL => some (s.normalChar ch next)
  | .ST_FLAGS => s.flagsChar ch next
  | .ST_WIDTH => s.widthChar ch next
  | .ST_PRECISION => s.precisionChar ch
  | .ST_MODIFIERS => s.modifiers ch

/-- The loop, over what is left of the format. -/
def Scanner.scan : (format : List UInt8) → Scanner → Option Scanned
  | [], s => some (.more s)
  | ch :: format, s =>
      if ch = 0 then
        some (.more s)
      else
        match s.turn ch (format.headD 0) with
        | some (.more s) => scan format s
        | some (.skip s) => scan format.tail s
        | result => result
  termination_by format => format.length

/-- `iob_vsnprintf`: what is returned, the calls that were made, and the arguments that are
left. -/
def iobVsnprintf (format : List UInt8) (ap : List Arg) : Option (ℤ × List Call × List Arg) :=
  match Scanner.scan format ⟨.ST_NORMAL, 0, 0, 0, 0, ap, []⟩ with
  | some (.more s) | some (.skip s) => some (SUCCESS, s.calls, s.ap)
  | some (.fail err s) => some (err, s.calls, s.ap)
  | none => none

end Cyanea.IoBuffer
