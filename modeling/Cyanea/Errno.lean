/-
# Error numbers

The numbers of `uapi/asm-generic/errno.h`. A function that fails returns the negated number.
-/

import Mathlib.Data.Int.Notation

namespace Cyanea

def SUCCESS : ℤ := 0

/-- Invalid argument. -/
def EINVAL : ℤ := 1

/-- Results not representable. -/
def ERANGE : ℤ := 2

/-- No space available. -/
def ENOSPC : ℤ := 3

/-- Entry exists. -/
def EEXIST : ℤ := 4

/-- Entry does not exist. -/
def ENOENT : ℤ := 5

/-- No such device. -/
def ENODEV : ℤ := 6

/-- Out of memory. -/
def ENOMEM : ℤ := 7

end Cyanea
