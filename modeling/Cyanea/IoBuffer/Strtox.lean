/-
# Reading numbers

The model of `uklib/io_buffer/strtox.c`, and of `strtoull` and `strtoll` in
`uklib/strtox.c`, which read from a string through a buffer of 32 bytes. The loop over the
digits goes on as long as there are digits, so its turns are counted in the model; the two
functions allow one turn more than there are characters.
-/

import Cyanea.Word
import Cyanea.Text
import Cyanea.IoBuffer.Read

namespace Cyanea.IoBuffer

def ULLONG_MAX : ℕ := 2 ^ 64 - 1

/-- `digit_value`, as the `int` that it is assigned to. -/
def digitValue (ch : UInt8) : ℤ :=
  if isdigit ch then ((ch - code '0').toNat : ℤ)
  else if isxdigit ch then
    if isupper ch then ((ch - code 'A').toNat : ℤ) + 10 else ((ch - code 'a').toNat : ℤ) + 10
  else -1

/-! ## The functions -/

/-- What a conversion comes to: an error, or its result. -/
abbrev Converted := Except ℤ ℕ

section Functions

variable (hooks : Hooks)

/-- The loop over the digits. -/
def strtoullLoop (base : ℕ) : (turns : ℕ) → (result : ℕ) → World → Option (Converted × World)
  | 0, _, _ => none
  | turns + 1, result, w => do
      match ← iobRead hooks 1 w with
      | ([], w) => return (.ok result, w)
      | (c :: _, w) =>
          let tmp := digitValue c
          if 0 ≤ tmp ∧ tmp < base then
            if result &&& ((ULLONG_MAX <<< 60) % 2 ^ 64) ≠ 0 ∧
                (ULLONG_MAX - tmp.toNat) / base < result then
              return (.error (-ERANGE), (iobUngetc c w).2)
            else
              strtoullLoop base turns ((result * base + tmp.toNat) % 2 ^ 64) w
          else
            return (.ok result, (iobUngetc c w).2)

/-- What is read in front of the digits: the base that they have. -/
def strtoullPrefix (base : ℕ) (w : World) : Option (ℕ × World) :=
  if base = 0 then do
    match ← iobRead hooks 1 w with
    | ([], w) => return (base, w)
    | (c :: _, w) =>
        if c = code '0' then
          match ← iobRead hooks 1 w with
          | ([], w) => return (8, w)
          | (c :: _, w) =>
              if c = code 'x' ∨ c = code 'X' then return (16, w)
              else return (8, (iobUngetc c w).2)
        else
          return (10, (iobUngetc c w).2)
  else if base = 16 then do
    match ← iobRead hooks 2 w with
    | (c₀ :: c₁ :: _, w) =>
        if c₀ ≠ code '0' ∨ (c₁ ≠ code 'x' ∧ c₁ ≠ code 'X') then
          return (base, (iobUngetc c₀ (iobUngetc c₁ w).2).2)
        else
          return (base, w)
    | ([c₀], w) => return (base, (iobUngetc c₀ w).2)
    | ([], w) => return (base, w)
  else
    some (base, w)

/-- `iob_strtoull`. -/
def iobStrtoull (turns base : ℕ) (w : World) : Option (Converted × World) := do
  let (base, w) ← strtoullPrefix hooks base w
  strtoullLoop hooks base turns 0 w

/-- `iob_strtoll`, with its result as the bits of a `long long`; there is no result where
nothing is read, which leaves `*result_ret` as it is. -/
def iobStrtoll (turns base : ℕ) (w : World) : Option (Option Converted × World) := do
  match ← iobRead hooks 1 w with
  | ([], w) => return (none, w)
  | (c :: _, w) =>
      if c = code '-' then
        match ← iobStrtoull hooks turns base w with
        | (.error err, w) => return (some (.error err), w)
        | (.ok result, w) =>
            -- the value of `(long long)(-result)` is positive
            if sub64 0 result ≠ 0 ∧ sub64 0 result < 2 ^ 63 then
              return (some (.error (-ERANGE)), w)
            else
              return (some (.ok (sub64 0 result)), w)
      else
        let w := if c ≠ code '+' then (iobUngetc c w).2 else w
        match ← iobStrtoull hooks turns base w with
        | (.error err, w) => return (some (.error err), w)
        | (.ok result, w) =>
            if 2 ^ 63 ≤ result then
              return (some (.error (-ERANGE)), w)
            else
              return (some (.ok result), w)

end Functions

/-! ## Reading from a string -/

/-- `iob_read` of `uklib/strtox.c`: as much of the string as there is. -/
def strtoxHooks (str : List UInt8) : Hooks where
  source := fun i => str.getD i 0
  ready _ taken := str.length - taken

/-- The buffer of `strtoull` and `strtoll`; everything that is not set is zero. -/
def strtoxIo (inptr : ℕ) : Io := ⟨._IONBF, 0, 0, fun _ => 0, 32, inptr, 0⟩

/-- `strtoull`. -/
def strtoull (str : CString) (inptr base : ℕ) : Option Converted := do
  return (← iobStrtoull (strtoxHooks str.chars) (str.chars.length + 1) base
    (.fresh (strtoxIo inptr))).1

/-- `strtoll`. -/
def strtoll (str : CString) (inptr base : ℕ) : Option (Option Converted) := do
  return (← iobStrtoll (strtoxHooks str.chars) (str.chars.length + 1) base
    (.fresh (strtoxIo inptr))).1

end Cyanea.IoBuffer
