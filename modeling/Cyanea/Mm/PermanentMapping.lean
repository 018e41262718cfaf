/-
# Permanent mappings

`set_fixmap` fills the entry of one of the permanent slots, those below the slots of the
bitmap. Their pages are the highest 2 MiB of the address space, which
`level1_fixmap_pgt[1]` translates.
-/

import Cyanea.Mm.Fixmap

namespace Cyanea.Mm

open X86

def FIX_TOP : ℕ := 0
def FIX_IO_APIC_BASE_0 : ℕ := 3

/-- `set_fixmap`. -/
def setPermanentFixmap (s : Fixmap) (idx phys_addr prot : ℕ) : Except Fault Fixmap :=
  if FIX_TOP < idx ∧ idx < FIX_BITMAP_END then
    .ok (s.setPte 1 (pteIndex (fixToVirt idx)) (fixmapPte phys_addr prot))
  else .error (.outOfRange idx)

/-- The translation of an address by `level1_fixmap_pgt[1]`, which serves the highest 2 MiB. -/
def Fixmap.translatePermanent (s : Fixmap) (va : ℕ) : Option ℕ :=
  if va / 2 ^ 21 = 2 ^ 43 - 1 then X86.translate (fun _ => s.level1_fixmap_pgt 1) 0 0 va
  else none

/-- The `n` bytes from an address on. -/
def bytesAt (a n : ℕ) : List ℕ := (List.range n).map (a + ·)

/-- The bytes that an access of `n` bytes at a virtual address reaches. -/
def Fixmap.physBytes (s : Fixmap) (va n : ℕ) : Option (List ℕ) :=
  (List.range n).mapM fun i => s.translatePermanent (add64 va i)

section Permanent

variable {s : Fixmap} {idx phys prot offset n : ℕ}

theorem fixToVirt_permanent (hidx : idx < 512) :
    fixToVirt idx = 2 ^ 64 - 2 ^ 12 - 2 ^ 12 * idx := by
  rw [fixToVirt, show FIX_TOP_ADDR = 2 ^ 64 - 2 ^ 12 from rfl, show PAGE_SHIFT = 12 from rfl,
    Nat.shiftLeft_eq, sub64_eq (by omega) (by omega)]
  omega

theorem index_permanent (hidx : idx < 512) (hoffset : offset < 2 ^ 12) :
    index 0 (fixToVirt idx + offset) = 511 - idx := by
  rw [fixToVirt_permanent hidx, index, pageShift]
  omega

variable (s phys prot) in
theorem setPermanentFixmap_eq (hpos : 0 < idx) (hidx : idx < 512) :
    setPermanentFixmap s idx phys prot = .ok (s.setPte 1 (511 - idx) (fixmapPte phys prot)) := by
  have hindex : index 0 (fixToVirt idx + 0) = 511 - idx := index_permanent hidx (by decide)
  have hrange : FIX_TOP < idx ∧ idx < FIX_BITMAP_END := ⟨hpos, hidx⟩
  rw [Nat.add_zero, ← pteIndex_eq] at hindex
  rw [setPermanentFixmap, if_pos hrange, hindex]

variable (s phys prot) in
theorem setPermanentFixmap_outOfRange (hidx : ¬ idx < 512) :
    setPermanentFixmap s idx phys prot = .error (.outOfRange idx) :=
  if_neg fun h => hidx h.2

/-- Only the page of the address is used. -/
theorem fixmapPte_page (hphys : phys < 2 ^ 64) :
    fixmapPte phys prot = fixmapPte (2 ^ 12 * (phys / 2 ^ 12)) prot := by
  have hpage : 2 ^ 12 * (phys / 2 ^ 12) < 2 ^ 64 := by omega
  rw [fixmapPte, fixmapPte, and_PAGE_MASK hphys, and_PAGE_MASK hpage,
    Nat.mul_div_cancel_left _ (by decide)]

theorem translatePermanent_setPte (hmaps : Maps prot) (hidx : idx < 512) (hphys : phys < 2 ^ 52)
    (hoffset : offset < 2 ^ 12) :
    (s.setPte 1 (511 - idx) (fixmapPte phys prot)).translatePermanent (fixToVirt idx + offset) =
      some (2 ^ 12 * (phys / 2 ^ 12) + offset) := by
  have hvirt := fixToVirt_permanent hidx
  have htable : (fixToVirt idx + offset) / 2 ^ 21 = 2 ^ 43 - 1 := by omega
  have hlow : (fixToVirt idx + offset) % 2 ^ 12 = offset := by omega
  have hentry : entry 0 ((s.setPte 1 (511 - idx) (fixmapPte phys prot)).level1_fixmap_pgt 1
      (index 0 (fixToVirt idx + offset))) = .page (2 ^ 12 * (phys / 2 ^ 12)) := by
    rw [index_permanent hidx hoffset, Fixmap.setPte]
    dsimp only
    rw [Function.update_self, Function.update_self, fixmapPte_page (by omega)]
    exact entry_fixmapPte hmaps (Nat.dvd_mul_right _ _) (by omega)
  rw [Fixmap.translatePermanent, if_pos htable,
    translate_leaf (fun _ => (s.setPte 1 (511 - idx) (fixmapPte phys prot)).level1_fixmap_pgt 1) 0
      hentry, hlow]

theorem mapM_eq_some_map {α β : Type} {f : α → Option β} {g : α → β} {l : List α}
    (h : ∀ a ∈ l, f a = some (g a)) : l.mapM f = some (l.map g) := by
  induction l with
  | nil => rfl
  | cons a l ih =>
      rw [List.mapM_cons, h a List.mem_cons_self, ih fun b hb => h b (List.mem_cons_of_mem _ hb)]
      rfl

/-- An access inside of the page of a slot reaches the bytes of the page that it maps. -/
theorem physBytes_setPte (s : Fixmap) (offset n : ℕ) (hmaps : Maps prot) (hidx : idx < 512)
    (hphys : phys < 2 ^ 52) (hoffset : offset + n ≤ 2 ^ 12) :
    (s.setPte 1 (511 - idx) (fixmapPte phys prot)).physBytes (fixToVirt idx + offset) n =
      some (bytesAt (2 ^ 12 * (phys / 2 ^ 12) + offset) n) := by
  have hvirt := fixToVirt_permanent hidx
  have hbyte : ∀ i ∈ List.range n,
      (s.setPte 1 (511 - idx) (fixmapPte phys prot)).translatePermanent
        (add64 (fixToVirt idx + offset) i) =
      some (2 ^ 12 * (phys / 2 ^ 12) + offset + i) := by
    intro i hi
    have hlt := List.mem_range.mp hi
    rw [add64_eq (by omega), Nat.add_assoc, Nat.add_assoc]
    exact translatePermanent_setPte hmaps hidx hphys (by omega)
  rw [Fixmap.physBytes, bytesAt]
  exact mapM_eq_some_map hbyte

end Permanent

end Cyanea.Mm
