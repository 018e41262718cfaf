/-
# The font of the framebuffer console

The table of `drivers/framebuffer/font.h`: the printable characters, from the blank on. A row
of a glyph is a byte, whose highest bit is the leftmost pixel.
-/

import Mathlib.Data.Nat.Notation

namespace Cyanea.Framebuffer

def CHAR_WIDTH : ℕ := 8

def CHAR_HEIGHT : ℕ := 8

/-- `__font_arr`. -/
def fontArr : List (List ℕ) := [
  [0x00, 0x00, 0x00, 0x00, 0x00, 0x00, 0x00, 0x00],
  [0x18, 0x18, 0x18, 0x18, 0x18, 0x00, 0x18, 0x00],
  [0x6C, 0x6C, 0x24, 0x00, 0x00, 0x00, 0x00, 0x00],
  [0x6C, 0x6C, 0xFE, 0x6C, 0xFE, 0x6C, 0x6C, 0x00],
  [0x18, 0x3E, 0x60, 0x3C, 0x06, 0x7C, 0x18, 0x00],
  [0x00, 0xC6, 0xCC, 0x18, 0x30, 0x66, 0xC6, 0x00],
  [0x38, 0x6C, 0x38, 0x76, 0xDC, 0xCC, 0x76, 0x00],
  [0x30, 0x30, 0x60, 0x00, 0x00, 0x00, 0x00, 0x00],
  [0x0C, 0x18, 0x30, 0x30, 0x30, 0x18, 0x0C, 0x00],
  [0x30, 0x18, 0x0C, 0x0C, 0x0C, 0x18, 0x30, 0x00],
  [0x00, 0x66, 0x3C, 0xFF, 0x3C, 0x66, 0x00, 0x00],
  [0x00, 0x18, 0x18, 0x7E, 0x18, 0x18, 0x00, 0x00],
  [0x00, 0x00, 0x00, 0x00, 0x18, 0x18, 0x30, 0x00],
  [0x00, 0x00, 0x00, 0x7E, 0x00, 0x00, 0x00, 0x00],
  [0x00, 0x00, 0x00, 0x00, 0x18, 0x18, 0x00, 0x00],
  [0x06, 0x0C, 0x18, 0x30, 0x60, 0xC0, 0x80, 0x00],
  [0x3C, 0x66, 0x6E, 0x76, 0x66, 0x66, 0x3C, 0x00],
  [0x18, 0x38, 0x18, 0x18, 0x18, 0x18, 0x7E, 0x00],
  [0x3C, 0x66, 0x0C, 0x18, 0x30, 0x66, 0x7E, 0x00],
  [0x3C, 0x66, 0x0C, 0x18, 0x0C, 0x66, 0x3C, 0x00],
  [0x0C, 0x1C, 0x3C, 0x6C, 0x7E, 0x0C, 0x0C, 0x00],
  [0x7E, 0x60, 0x7C, 0x06, 0x06, 0x66, 0x3C, 0x00],
  [0x3C, 0x66, 0x60, 0x7C, 0x66, 0x66, 0x3C, 0x00],
  [0x7E, 0x66, 0x0C, 0x18, 0x30, 0x30, 0x30, 0x00],
  [0x3C, 0x66, 0x66, 0x3C, 0x66, 0x66, 0x3C, 0x00],
  [0x3C, 0x66, 0x66, 0x3E, 0x06, 0x66, 0x3C, 0x00],
  [0x00, 0x18, 0x18, 0x00, 0x00, 0x18, 0x18, 0x00],
  [0x00, 0x18, 0x18, 0x00, 0x18, 0x18, 0x30, 0x00],
  [0x0C, 0x18, 0x30, 0x60, 0x30, 0x18, 0x0C, 0x00],
  [0x00, 0x00, 0x7E, 0x00, 0x00, 0x7E, 0x00, 0x00],
  [0x30, 0x18, 0x0C, 0x06, 0x0C, 0x18, 0x30, 0x00],
  [0x3C, 0x66, 0x0C, 0x18, 0x18, 0x00, 0x18, 0x00],
  [0x3C, 0x66, 0x6E, 0x6E, 0x6E, 0x60, 0x3E, 0x00],
  [0x18, 0x3C, 0x66, 0x66, 0x7E, 0x66, 0x66, 0x00],
  [0x7C, 0x66, 0x66, 0x7C, 0x66, 0x66, 0x7C, 0x00],
  [0x3C, 0x66, 0x60, 0x60, 0x60, 0x66, 0x3C, 0x00],
  [0x7C, 0x66, 0x66, 0x66, 0x66, 0x66, 0x7C, 0x00],
  [0x7E, 0x60, 0x60, 0x7C, 0x60, 0x60, 0x7E, 0x00],
  [0x7E, 0x60, 0x60, 0x7C, 0x60, 0x60, 0x60, 0x00],
  [0x3C, 0x66, 0x60, 0x60, 0x6E, 0x66, 0x3E, 0x00],
  [0x66, 0x66, 0x66, 0x7E, 0x66, 0x66, 0x66, 0x00],
  [0x7E, 0x18, 0x18, 0x18, 0x18, 0x18, 0x7E, 0x00],
  [0x7E, 0x06, 0x06, 0x06, 0x06, 0x66, 0x3C, 0x00],
  [0x66, 0x6C, 0x78, 0x70, 0x78, 0x6C, 0x66, 0x00],
  [0x60, 0x60, 0x60, 0x60, 0x60, 0x60, 0x7E, 0x00],
  [0x63, 0x77, 0x7F, 0x7F, 0x6B, 0x63, 0x63, 0x00],
  [0x66, 0x76, 0x7E, 0x7E, 0x6E, 0x66, 0x66, 0x00],
  [0x3C, 0x66, 0x66, 0x66, 0x66, 0x66, 0x3C, 0x00],
  [0x7C, 0x66, 0x66, 0x7C, 0x60, 0x60, 0x60, 0x00],
  [0x3C, 0x66, 0x66, 0x66, 0x6E, 0x6C, 0x36, 0x00],
  [0x7C, 0x66, 0x66, 0x7C, 0x78, 0x6C, 0x66, 0x00],
  [0x3E, 0x60, 0x60, 0x3C, 0x06, 0x06, 0x7C, 0x00],
  [0x7E, 0x18, 0x18, 0x18, 0x18, 0x18, 0x18, 0x00],
  [0x66, 0x66, 0x66, 0x66, 0x66, 0x66, 0x3C, 0x00],
  [0x66, 0x66, 0x66, 0x66, 0x66, 0x3C, 0x18, 0x00],
  [0x63, 0x63, 0x63, 0x6B, 0x6B, 0x7F, 0x36, 0x00],
  [0x66, 0x66, 0x3C, 0x18, 0x3C, 0x66, 0x66, 0x00],
  [0x66, 0x66, 0x3C, 0x18, 0x18, 0x18, 0x18, 0x00],
  [0x7E, 0x06, 0x0C, 0x18, 0x30, 0x60, 0x7E, 0x00],
  [0x3C, 0x30, 0x30, 0x30, 0x30, 0x30, 0x3C, 0x00],
  [0xC0, 0x60, 0x30, 0x18, 0x0C, 0x06, 0x02, 0x00],
  [0x3C, 0x0C, 0x0C, 0x0C, 0x0C, 0x0C, 0x3C, 0x00],
  [0x18, 0x3C, 0x66, 0x00, 0x00, 0x00, 0x00, 0x00],
  [0x00, 0x00, 0x00, 0x00, 0x00, 0x00, 0x00, 0xFF],
  [0x30, 0x18, 0x0C, 0x00, 0x00, 0x00, 0x00, 0x00],
  [0x00, 0x00, 0x3C, 0x06, 0x3E, 0x66, 0x3E, 0x00],
  [0x60, 0x60, 0x7C, 0x66, 0x66, 0x66, 0x7C, 0x00],
  [0x00, 0x00, 0x3E, 0x60, 0x60, 0x60, 0x3E, 0x00],
  [0x06, 0x06, 0x3E, 0x66, 0x66, 0x66, 0x3E, 0x00],
  [0x00, 0x00, 0x3C, 0x66, 0x7E, 0x60, 0x3C, 0x00],
  [0x0E, 0x18, 0x3E, 0x18, 0x18, 0x18, 0x18, 0x00],
  [0x00, 0x00, 0x3E, 0x66, 0x66, 0x3E, 0x06, 0x7C],
  [0x60, 0x60, 0x7C, 0x66, 0x66, 0x66, 0x66, 0x00],
  [0x18, 0x00, 0x38, 0x18, 0x18, 0x18, 0x3C, 0x00],
  [0x06, 0x00, 0x0E, 0x06, 0x06, 0x06, 0x06, 0x3C],
  [0x60, 0x60, 0x66, 0x6C, 0x78, 0x6C, 0x66, 0x00],
  [0x38, 0x18, 0x18, 0x18, 0x18, 0x18, 0x3C, 0x00],
  [0x00, 0x00, 0x7E, 0x6B, 0x6B, 0x6B, 0x6B, 0x00],
  [0x00, 0x00, 0x7C, 0x66, 0x66, 0x66, 0x66, 0x00],
  [0x00, 0x00, 0x3C, 0x66, 0x66, 0x66, 0x3C, 0x00],
  [0x00, 0x00, 0x7C, 0x66, 0x66, 0x7C, 0x60, 0x60],
  [0x00, 0x00, 0x3E, 0x66, 0x66, 0x3E, 0x06, 0x06],
  [0x00, 0x00, 0x6E, 0x76, 0x60, 0x60, 0x60, 0x00],
  [0x00, 0x00, 0x3E, 0x60, 0x3C, 0x06, 0x7C, 0x00],
  [0x18, 0x18, 0x7E, 0x18, 0x18, 0x18, 0x0E, 0x00],
  [0x00, 0x00, 0x66, 0x66, 0x66, 0x66, 0x3E, 0x00],
  [0x00, 0x00, 0x66, 0x66, 0x66, 0x3C, 0x18, 0x00],
  [0x00, 0x00, 0x63, 0x63, 0x6B, 0x6B, 0x36, 0x00],
  [0x00, 0x00, 0x66, 0x3C, 0x18, 0x3C, 0x66, 0x00],
  [0x00, 0x00, 0x66, 0x66, 0x3E, 0x06, 0x3C, 0x00],
  [0x00, 0x00, 0x7E, 0x0C, 0x18, 0x30, 0x7E, 0x00],
  [0x0E, 0x18, 0x18, 0x30, 0x18, 0x18, 0x0E, 0x00],
  [0x18, 0x18, 0x18, 0x18, 0x18, 0x18, 0x18, 0x00],
  [0x70, 0x18, 0x18, 0x0C, 0x18, 0x18, 0x70, 0x00],
  [0x6C, 0x6C, 0x00, 0x00, 0x00, 0x00, 0x00, 0x00]]

/-- `__font_char_pixel` of a character that the table has. -/
def fontCharPixel (ch : UInt8) (r c : ℕ) : Bool :=
  ((fontArr.getD (ch.toNat - 0x20) []).getD r 0 &&& 1 <<< (7 - c)) != 0

/-- The characters of the font. -/
def Printable (ch : UInt8) : Prop := 0x20 ≤ ch ∧ ch ≤ 0x7e

instance (ch : UInt8) : Decidable (Printable ch) := inferInstanceAs (Decidable (_ ∧ _))

end Cyanea.Framebuffer
