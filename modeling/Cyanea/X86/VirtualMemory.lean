/-
# Memory behind a translation

Bytes and numbers are read and written at virtual addresses, through any translation of addresses.
An access stops at the first address that is not translated. Where a translation shows a block, a
write replaces the bytes of the block and nothing else, and reading gets back what was written.
-/

import Mathlib.Algebra.Group.Nat.Defs
import Mathlib.Data.Nat.Notation
import Mathlib.Logic.Function.Basic

namespace Cyanea.X86

/-- An address is not translated. -/
inductive PageFault
  | pageFault (address : ℕ)
  deriving DecidableEq, Repr

section Access

variable (tr : ℕ → Option ℕ)

/-- The byte at an address. -/
def loadByte (mem : ℕ → UInt8) (address : ℕ) : Except PageFault UInt8 :=
  match tr address with
  | some p => .ok (mem p)
  | none => .error (.pageFault address)

/-- A byte is written at an address. -/
def storeByte (mem : ℕ → UInt8) (address : ℕ) (byte : UInt8) : Except PageFault (ℕ → UInt8) :=
  match tr address with
  | some p => .ok (Function.update mem p byte)
  | none => .error (.pageFault address)

/-- The number in `n` bytes, the lowest byte first. -/
def loadLe (mem : ℕ → UInt8) (address : ℕ) : (n : ℕ) → Except PageFault ℕ
  | 0 => .ok 0
  | n + 1 => do
      let low ← loadByte tr mem address
      let high ← loadLe mem (address + 1) n
      return low.toNat + 256 * high

/-- A number is written in `n` bytes, the lowest byte first. -/
def storeLe (address : ℕ) : (n value : ℕ) → (ℕ → UInt8) → Except PageFault (ℕ → UInt8)
  | 0, _, mem => .ok mem
  | n + 1, value, mem => do
      let mem ← storeByte tr mem address (UInt8.ofNat value)
      storeLe (address + 1) n (value / 256) mem

/-- `while (n--) *q++ = *p++;` -/
def copyBytes (dest src : ℕ) : (n : ℕ) → (ℕ → UInt8) → Except PageFault (ℕ → UInt8)
  | 0, mem => .ok mem
  | n + 1, mem => do
      let byte ← loadByte tr mem src
      let mem ← storeByte tr mem dest byte
      copyBytes (dest + 1) (src + 1) n mem

/-- The block of `n` bytes at `p` is what the addresses from `address` on show. -/
def Shows (address p n : ℕ) : Prop := ∀ i < n, tr (address + i) = some (p + i)

end Access

/-- `n` bytes are replaced from `p` on. -/
def blit (mem : ℕ → UInt8) (p n : ℕ) (bytes : ℕ → UInt8) (a : ℕ) : UInt8 :=
  if p ≤ a ∧ a < p + n then bytes (a - p) else mem a

/-- The `i`-th byte of a number. -/
def leByte (value i : ℕ) : UInt8 := UInt8.ofNat (value / 256 ^ i)

section Blit

variable {mem : ℕ → UInt8} {p n a : ℕ} {bytes : ℕ → UInt8}

theorem blit_inside {i : ℕ} (hi : i < n) : blit mem p n bytes (p + i) = bytes i := by
  rw [blit, if_pos ⟨Nat.le_add_right p i, Nat.add_lt_add_left hi p⟩, Nat.add_sub_cancel_left]

theorem blit_outside (ha : ¬ (p ≤ a ∧ a < p + n)) : blit mem p n bytes a = mem a := if_neg ha

theorem blit_zero : blit mem p 0 bytes = mem := by
  funext a
  exact blit_outside fun ha => by omega

theorem blit_congr {bytes' : ℕ → UInt8} (h : ∀ i < n, bytes i = bytes' i) :
    blit mem p n bytes = blit mem p n bytes' := by
  funext a
  rw [blit, blit]
  exact ite_congr rfl (fun ha => h _ (by omega)) fun _ => rfl

/-- The first byte is replaced before the others. -/
theorem blit_succ : blit (Function.update mem p (bytes 0)) (p + 1) n (fun i => bytes (i + 1)) =
    blit mem p (n + 1) bytes := by
  funext a
  rw [blit, blit]
  by_cases hfirst : a = p
  · rw [if_neg (by omega), if_pos (by omega), hfirst, Function.update_self, Nat.sub_self]
  · rw [Function.update_of_ne hfirst]
    refine ite_congr (propext (by omega)) (fun ha => ?_) fun _ => rfl
    rw [show a - (p + 1) + 1 = a - p by omega]

end Blit

section Shown

variable {tr : ℕ → Option ℕ} {mem : ℕ → UInt8} {address p n : ℕ}

theorem Shows.tail (h : Shows tr address p (n + 1)) : Shows tr (address + 1) (p + 1) n :=
  fun i hi => by
    rw [Nat.add_assoc, Nat.add_assoc, Nat.add_comm 1 i]
    exact h (i + 1) (by omega)

theorem Shows.head (h : Shows tr address p (n + 1)) : tr address = some p := h 0 n.succ_pos

/-- A part of what is shown is shown. -/
theorem Shows.part (h : Shows tr address p n) {i m : ℕ} (hi : i + m ≤ n) :
    Shows tr (address + i) (p + i) m := fun j hj => by
  rw [Nat.add_assoc, Nat.add_assoc]
  exact h (i + j) (by omega)

theorem loadByte_eq (h : tr address = some p) : loadByte tr mem address = .ok (mem p) := by
  rw [loadByte, h]

theorem storeByte_eq (h : tr address = some p) (byte : UInt8) :
    storeByte tr mem address byte = .ok (Function.update mem p byte) := by
  rw [storeByte, h]

theorem storeLe_eq (h : Shows tr address p n) (value : ℕ) :
    storeLe tr address n value mem = .ok (blit mem p n (leByte value)) := by
  induction n generalizing address p value mem with
  | zero => rw [storeLe, blit_zero]
  | succ n ih =>
      have hbytes : (fun i => leByte value (i + 1)) = leByte (value / 256) := by
        funext i
        rw [leByte, leByte, Nat.pow_succ', Nat.div_div_eq_div_mul]
      have hfirst : UInt8.ofNat value = leByte value 0 := by
        rw [leByte, Nat.pow_zero, Nat.div_one]
      rw [storeLe, storeByte_eq h.head, hfirst, ← blit_succ, hbytes]
      exact ih h.tail _

theorem loadLe_eq_of_bytes (h : Shows tr address p n) {value : ℕ}
    (hbytes : ∀ i < n, mem (p + i) = leByte value i) :
    loadLe tr mem address n = .ok (value % 256 ^ n) := by
  induction n generalizing address p value with
  | zero => rw [loadLe, Nat.pow_zero, Nat.mod_one]
  | succ n ih =>
      have hfirst : mem p = UInt8.ofNat value := by
        rw [show p = p + 0 from rfl, hbytes 0 n.succ_pos, leByte, Nat.pow_zero, Nat.div_one]
      have hrest : ∀ i < n, mem (p + 1 + i) = leByte (value / 256) i := by
        intro i hi
        rw [Nat.add_assoc, Nat.add_comm 1 i, hbytes (i + 1) (by omega), leByte, leByte,
          Nat.pow_succ', Nat.div_div_eq_div_mul]
      rw [loadLe, loadByte_eq h.head, hfirst, ih h.tail hrest, Nat.pow_succ', Nat.mod_mul]
      show Except.ok _ = _
      rw [UInt8.toNat_ofNat']

/-- What lies elsewhere is copied as it is. -/
theorem copyBytes_eq {dest src q : ℕ} (hdest : Shows tr dest p n) (hsrc : Shows tr src q n)
    (hapart : ∀ a, p ≤ a → a < p + n → ¬ (q ≤ a ∧ a < q + n)) :
    copyBytes tr dest src n mem = .ok (blit mem p n fun i => mem (q + i)) := by
  induction n generalizing dest src p q mem with
  | zero => rw [copyBytes, blit_zero]
  | succ n ih =>
      have hrest : copyBytes tr (dest + 1) (src + 1) n (Function.update mem p (mem q)) =
          .ok (blit (Function.update mem p (mem q)) (p + 1) n
            fun i => Function.update mem p (mem q) (q + 1 + i)) :=
        ih hdest.tail hsrc.tail fun a hlo hhi hsource =>
          hapart a (by omega) (by omega) ⟨by omega, by omega⟩
      have hkept : ∀ i < n, Function.update mem p (mem q) (q + 1 + i) = mem (q + (i + 1)) := by
        intro i hi
        rw [Nat.add_assoc, Nat.add_comm 1 i]
        exact Function.update_of_ne (fun heq => hapart p (Nat.le_refl p) (by omega) (by omega)) _ _
      rw [copyBytes, loadByte_eq hsrc.head]
      show (storeByte tr mem dest (mem q) >>= fun mem => copyBytes tr (dest + 1) (src + 1) n mem) = _
      rw [storeByte_eq hdest.head]
      show copyBytes tr (dest + 1) (src + 1) n (Function.update mem p (mem q)) = _
      rw [hrest, blit_congr hkept]
      exact congrArg Except.ok (@blit_succ mem p n fun i => mem (q + i))

end Shown

end Cyanea.X86
