/-
# Strings

Characters are bytes, and a string is the list of those in front of its terminator. The
classes of characters are those of the table `ctypes` in `uklib/ctype.c`.
-/

import Mathlib.Data.Nat.Notation

namespace Cyanea

/-- The code of a character. -/
def code (c : Char) : UInt8 := UInt8.ofNat c.toNat

/-- A string without its terminator. -/
structure CString where
  chars : List UInt8
  noNul : 0 ∉ chars
  deriving DecidableEq

/-- `isdigit(ch)`: the entries with `digit`. -/
def isdigit (ch : UInt8) : Prop := code '0' ≤ ch ∧ ch ≤ code '9'

instance (ch : UInt8) : Decidable (isdigit ch) := inferInstanceAs (Decidable (_ ∧ _))

/-- `isxdigit(ch)`: the entries with `xdigit`. -/
def isxdigit (ch : UInt8) : Prop :=
  isdigit ch ∨ (code 'A' ≤ ch ∧ ch ≤ code 'F') ∨ (code 'a' ≤ ch ∧ ch ≤ code 'f')

instance (ch : UInt8) : Decidable (isxdigit ch) := inferInstanceAs (Decidable (_ ∨ _))

/-- `isupper(ch)`: the entries with `upper`. -/
def isupper (ch : UInt8) : Prop :=
  (code 'A' ≤ ch ∧ ch ≤ code 'Z') ∨ (0xc0 ≤ ch ∧ ch ≤ 0xd6) ∨ (0xd8 ≤ ch ∧ ch ≤ 0xde)

instance (ch : UInt8) : Decidable (isupper ch) := inferInstanceAs (Decidable (_ ∨ _))

end Cyanea
