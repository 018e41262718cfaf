/-
# Kernel addresses

The kernel sees memory through two windows. The upper one begins at `__START_KERNEL_map`
and shows the kernel image, wherever it has been loaded; below it, from `PAGE_OFFSET` on,
the direct mapping shows the memory from its beginning.
-/

import Cyanea.Mm.Pgtable

namespace Cyanea.Mm

def START_KERNEL_map : ℕ := 0xFFFFFFFF80000000

def PAGE_OFFSET : ℕ := 0xFFFFFF8000000000

/-- `__phys_addr_kernel(x)`. -/
def physAddrKernel (x : ℕ) : ℕ := sub64 x START_KERNEL_map

/-- `__phys_addr`, which is `__pa(x)`. -/
def physAddr (phys_base x : ℕ) : ℕ :=
  let y := physAddrKernel x
  add64 y (if y < x then phys_base else sub64 START_KERNEL_map PAGE_OFFSET)

/-- `__va(x)`. -/
def va (x : ℕ) : ℕ := add64 x PAGE_OFFSET

/-- How much memory the direct mapping can show. -/
def DIRECT_SIZE : ℕ := START_KERNEL_map - PAGE_OFFSET

/-- The addresses of the direct mapping. -/
def InDirectMap (x : ℕ) : Prop := PAGE_OFFSET ≤ x ∧ x < START_KERNEL_map

instance (x : ℕ) : Decidable (InDirectMap x) := inferInstanceAs (Decidable (_ ∧ _))

theorem DIRECT_SIZE_eq : DIRECT_SIZE = 2 ^ 39 - 2 ^ 31 := by decide

theorem START_KERNEL_map_eq : START_KERNEL_map = 2 ^ 64 - 2 ^ 31 := by decide

theorem PAGE_OFFSET_eq : PAGE_OFFSET = 2 ^ 64 - 2 ^ 39 := by decide

section Addresses

variable {phys_base x p : ℕ}

theorem va_eq (hp : p < 2 ^ 39) : va p = PAGE_OFFSET + p := by
  rw [va, PAGE_OFFSET_eq, add64]
  omega

/-- From 512 GiB on addresses wrap around. -/
theorem va_wraps (hp : 2 ^ 39 ≤ p) (hlt : p < 2 ^ 64) : va p = p - 2 ^ 39 := by
  rw [va, PAGE_OFFSET_eq, add64]
  omega

theorem physAddr_direct (hx : InDirectMap x) : physAddr phys_base x = x - PAGE_OFFSET := by
  have hlow := hx.1
  have hhigh := hx.2
  rw [PAGE_OFFSET_eq] at hlow
  rw [START_KERNEL_map_eq] at hhigh
  rw [physAddr, physAddrKernel, START_KERNEL_map_eq, PAGE_OFFSET_eq]
  have hy : sub64 x (2 ^ 64 - 2 ^ 31) = x + 2 ^ 31 := by
    rw [sub64]
    omega
  rw [hy, if_neg (by omega), show sub64 (2 ^ 64 - 2 ^ 31) (2 ^ 64 - 2 ^ 39) = 2 ^ 39 - 2 ^ 31 by
    decide, add64]
  omega

theorem physAddr_kernel (hx : START_KERNEL_map ≤ x) (hlt : x < 2 ^ 64) :
    physAddr phys_base x = (x - START_KERNEL_map + phys_base) % 2 ^ 64 := by
  rw [START_KERNEL_map_eq] at hx ⊢
  rw [physAddr, physAddrKernel, START_KERNEL_map_eq, sub64_eq hx hlt]
  rw [if_pos (by omega)]
  rfl

theorem inDirectMap_va (hp : p < DIRECT_SIZE) : InDirectMap (va p) := by
  rw [DIRECT_SIZE_eq] at hp
  rw [InDirectMap, va_eq (by omega), PAGE_OFFSET_eq, START_KERNEL_map_eq]
  omega

theorem physAddr_va (hp : p < DIRECT_SIZE) : physAddr phys_base (va p) = p := by
  rw [physAddr_direct (inDirectMap_va hp), va_eq (by rw [DIRECT_SIZE_eq] at hp; omega)]
  exact Nat.add_sub_cancel_left _ _

theorem va_physAddr (hx : InDirectMap x) : va (physAddr phys_base x) = x := by
  rw [physAddr_direct hx]
  obtain ⟨hlow, hhigh⟩ := hx
  rw [PAGE_OFFSET_eq] at hlow
  rw [START_KERNEL_map_eq] at hhigh
  rw [va_eq (by rw [PAGE_OFFSET_eq]; omega), PAGE_OFFSET_eq]
  omega

end Addresses

end Cyanea.Mm
