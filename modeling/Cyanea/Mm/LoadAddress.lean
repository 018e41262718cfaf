/-
# Which load addresses work

The tables of `__startup_64` show the image twice: where it is linked, and where it has been
loaded. Both mappings are right exactly if the image has been loaded at a large page, and ends
below the addresses that the processor does not translate. The check of the load address is
given the shift of a large page for its size, and accepts every page.
-/

import Cyanea.Mm.Relocation

namespace Cyanea.Mm

open X86

namespace Kernel

variable {k : Kernel} {load x b level q i : ℕ} {s s' : EarlyTables} {f g : Forest}
  {touched : Set ℕ}

/-- The image is translated where it is linked and where it has been loaded. -/
structure ImageMapped (k : Kernel) (load : ℕ) (s : EarlyTables) : Prop where
  linked : ∀ o < k.kernelEnd - k.text, k.walk s (k.text + o) = some (load + o)
  ident : ∀ o < k.kernelEnd - k.text, k.walk s (load + o) = some (load + o)

/-- Unless it halts, `__startup_64` maps the image at both places. -/
def MapsImage (k : Kernel) (load : ℕ) (s : EarlyTables) : Prop :=
  ∀ s', k.startup64 load s = some s' → k.ImageMapped load s'

/-! ## The image where it is linked -/

theorem Built.keeps (h : k.Built load s f) (h' : k.Built load s' g) (hext : f.Extends touched g)
    {p : ℕ × ℕ} (hplace : f.place b = some p) (hpresent : (s.mem b i).testBit 0 = true) :
    s'.mem b i = s.mem b i := by
  rw [← h.mem] at hpresent ⊢
  rw [← h'.mem, hext.keeps hplace hpresent]

/-- Where the tables of the image are. -/
theorem KernelMapped.places (h : k.KernelMapped load s) (hs : k.Built load s f) :
    f.place (k.frame load (k.earlyPage 0)) = some (2, 511) ∧
      f.place (k.frame load k.level2_kernel_pgt) = some (1, 512 * 511 + 510) := by
  have hpool := f.child hs.root (show 511 < 512 by decide) (by rw [hs.mem, h.top])
  exact ⟨hpool, f.child hpool (show 510 < 512 by decide) (by rw [hs.mem, h.pud])⟩

theorem leaf_kernel (hat : k.LoadedAt load) {j : ℕ} (hj : j < k.largePages) :
    Leaf load 1 (load + j * 2 ^ 21 ||| PAGE_KERNEL_LARGE_EXEC) :=
  leaf_large (largePage_dvd hat j) ((largePage_address hat hj).2.trans (by decide))
    (fun haligned => largePage_dvd_large haligned j) (by decide) (by decide) (by decide)

/-- The image stays mapped when tables are added. -/
theorem KernelMapped.extends (h : k.KernelMapped load s) (hat : k.LoadedAt load)
    (hs : k.Built load s f) (hs' : k.Built load s' g) (hext : f.Extends touched g) :
    k.KernelMapped load s' := by
  obtain ⟨hpool, hkernel⟩ := h.places hs
  refine ⟨?_, ?_, fun j hj => ?_⟩
  · rw [hs.keeps hs' hext hs.root (of_entry_table h.top).1, h.top]
  · rw [hs.keeps hs' hext hpool (of_entry_table h.pud).1, h.pud]
  · rw [hs.keeps hs' hext hkernel, h.entries j hj]
    rw [h.entries j hj]
    exact (leaf_kernel hat hj).present

/-- An empty entry of page 0 of the pool stays empty when tables are added elsewhere. -/
theorem KernelMapped.pool_empty (h : k.KernelMapped load s) (h' : k.KernelMapped load s')
    (hs : k.Built load s f) (hs' : k.Built load s' g) (hext : f.Extends touched g)
    (huntouched : ∀ a ∈ touched, block 3 a ≠ 511) (hi : i < 512)
    (hempty : s.mem (k.frame load (k.earlyPage 0)) i = 0) :
    s'.mem (k.frame load (k.earlyPage 0)) i = 0 := by
  -- an address that the entry translates
  obtain ⟨x, hblock, hindex₃, hindex₂⟩ : ∃ x, block 3 x = 511 ∧ index 3 x = 511 ∧ index 2 x = i := by
    refine ⟨511 * 2 ^ 39 + i * 2 ^ 30, ?_⟩
    rw [block, index, index, show pageShift 3 = 39 from rfl, show pageShift 2 = 30 from rfl]
    omega
  have hvacant : Vacant f.mem 2 3 (k.frame load k.early_top_pgt) x := by
    refine ⟨by decide, .inr ⟨_, by rw [hindex₃, hs.mem, h.top], vacant_of_absent (Nat.le_refl 2) ?_⟩⟩
    rw [hindex₂, hs.mem, hempty, Nat.zero_testBit]
  have hstill := hext.vacant (hs.over_root x)
    (fun a ha heq => huntouched a ha ((block_mono (by decide) heq).trans hblock)) hvacant
  obtain ⟨-, habsent | ⟨next, hentry, hnext⟩⟩ := hstill
  · rw [hindex₃, hs'.mem] at habsent
    exact absurd ((of_entry_table h'.top).1.symm.trans habsent) (by decide)
  · rw [hindex₃, hs'.mem, h'.top] at hentry
    obtain rfl := Entry.table.inj hentry
    have habsent := hnext.absent
    rw [hindex₂, hs'.mem] at habsent
    exact hs'.zero_of_absent (h'.places hs').1 hi habsent

/-- An address of the image is translated by the entry of its large page. -/
theorem KernelMapped.translate_eq (h : k.KernelMapped load s) (hfrom : k.text ≤ x)
    (hto : x < k.kernelEnd) : ∃ j < k.largePages, x = k.text + j * 2 ^ 21 + x % 2 ^ 21 ∧
      X86.translate s.mem 3 (k.frame load k.early_top_pgt) x =
        X86.translate s.mem 1 (k.frame load k.level2_kernel_pgt) x ∧
      s.mem (k.frame load k.level2_kernel_pgt) (index 1 x) =
        load + j * 2 ^ 21 ||| PAGE_KERNEL_LARGE_EXEC := by
  obtain ⟨htext, hlt, hend, haligned⟩ := k.image_bounds
  have hindex₃ : index 3 x = 511 := by
    rw [index, show pageShift 3 = 39 from rfl]
    omega
  have hindex₂ : index 2 x = 510 := by
    rw [index, show pageShift 2 = 30 from rfl]
    omega
  have hindex₁ : index 1 x = (x - k.text) / 2 ^ 21 + pmdIndex k.text := by
    rw [pmdIndex_text, START_KERNEL_map_eq, index, show pageShift 1 = 21 from rfl]
    omega
  have hj : (x - k.text) / 2 ^ 21 < k.largePages := by
    rw [largePages_eq]
    omega
  refine ⟨(x - k.text) / 2 ^ 21, hj, by omega, ?_, ?_⟩
  · rw [X86.translate, hindex₃, h.top]
    dsimp only
    rw [X86.translate, hindex₂, h.pud]
  · rw [hindex₁, h.entries _ hj]

/-- From a large page on, the image is translated to where it has been loaded. -/
theorem KernelMapped.translate (h : k.KernelMapped load s) (hat : k.LoadedAt load)
    (haligned : PMD_SIZE ∣ load) (hfrom : k.text ≤ x) (hto : x < k.kernelEnd) :
    X86.translate s.mem 3 (k.frame load k.early_top_pgt) x = some (k.frame load x) := by
  obtain ⟨j, hj, hx, heq, hmem⟩ := h.translate_eq hfrom hto
  have hpage := entry_large_page (largePage_dvd_large haligned j)
    ((largePage_address hat hj).2.trans (by decide)) (show Flags PAGE_KERNEL_LARGE_EXEC by decide)
    (by decide) (by decide)
  rw [heq, translate_page (hmem.symm ▸ hpage), show pageShift 1 = 21 from rfl, frame]
  congr 1
  omega

/-- An entry of a middle level maps a page only if it is as large as the entry's span. -/
theorem entry_page_dvd {e p : ℕ} (hpos : 0 < level) (h : entry level e = .page p) :
    2 ^ pageShift level ∣ p := by
  rw [entry, if_neg hpos.ne'] at h
  split_ifs at h
  exact Entry.page.inj h ▸ Nat.dvd_mul_left _ _

/-- Otherwise not even its first byte is. -/
theorem KernelMapped.aligned (h : k.KernelMapped load s) (hat : k.LoadedAt load)
    (hfirst : X86.translate s.mem 3 (k.frame load k.early_top_pgt) k.text = some load) :
    PMD_SIZE ∣ load := by
  obtain ⟨-, hlt, -, hmod⟩ := k.image_bounds
  obtain ⟨j, hj, hx, heq, hmem⟩ := h.translate_eq (Nat.le_refl k.text) hlt
  rw [heq] at hfirst
  have hleaf := leaf_kernel hat hj
  rw [← hmem] at hleaf
  cases hentry : entry 1 (s.mem (k.frame load k.level2_kernel_pgt) (index 1 k.text)) with
  | absent =>
      rw [X86.translate, hentry] at hfirst
      cases hfirst
  | table c => exact absurd hentry (hleaf.terminal c)
  | page p =>
      rw [translate_page hentry, show pageShift 1 = 21 from rfl, hmod] at hfirst
      rw [PMD_SIZE_eq, ← Option.some.inj hfirst]
      exact entry_page_dvd (by decide) hentry

/-! ## What `__startup_64` leaves -/

/-- Both mappings of the image have been built. A page of the pool behind page 0 is a table of
the mapping where the image has been loaded. -/
structure Started (k : Kernel) (load : ℕ) (s : EarlyTables) (f : Forest) : Prop where
  building : k.Building load s f
  kernel : k.KernelMapped load s
  ident : PMD_SIZE ∣ load → ∀ o < k.kernelEnd - k.text,
    X86.translate s.mem 3 (k.frame load k.early_top_pgt) (load + o) = some (load + o)
  pool_empty : ∀ i < 510, s.mem (k.frame load (k.earlyPage 0)) i = 0
  pool : ∀ {j level q}, 0 < j → j < EARLY_FREE_PAGES →
    f.place (k.frame load (k.earlyPage j)) = some (level, q) → ∃ a < 2 ^ 47, block (level + 1) a = q

theorem Loaded.started (h : k.Loaded load s) (hat : k.LoadedAt load)
    (hrun : k.startup64 load s = some s') : ∃ f, k.Started load s' f := by
  rw [startup64_eq, ripRel_eq hat (k.statics_subset List.mem_cons_self)] at hrun
  obtain ⟨-, hrun⟩ := Option.ite_none_left_eq_some.mp hrun
  obtain ⟨f, hf⟩ := h.linked hat
  generalize k.kernelTables load s = s₀ at hf hrun
  have hlow : ∀ {j a}, j < k.largePages → block 1 a = block 1 (load + j * 2 ^ 21) →
      block 3 a ≠ 511 := by
    intro j a hj ha
    have hlt := (largePage_address hat hj).2
    rw [block_mono (by decide) ha, block, show pageShift 3 = 39 from rfl]
    omega
  obtain ⟨g, hg⟩ := hf.building.mapIdent hat hf.next_eq
    (fun j hj => (hf.vacant _ (hlow hj rfl)).mono (by decide)) (Nat.le_refl k.largePages)
  obtain rfl := Option.some.inj hrun
  have hkernel := hf.kernel.extends hat hf.building.toBuilt hg.building.toBuilt hg.grows
  refine ⟨g, hg.building, hkernel, ?_, ?_, ?_⟩
  · intro haligned o ho
    have hcanonical := hat.canonical
    have hj : o / 2 ^ 21 < k.largePages := by
      rw [largePages_eq]
      omega
    refine hg.maps haligned _ hj _ (by omega) ?_
    rw [PMD_SIZE_eq] at haligned
    rw [block, block, show pageShift 1 = 21 from rfl]
    omega
  · intro i hi
    exact hf.kernel.pool_empty hkernel hf.building.toBuilt hg.building.toBuilt hg.grows
      (fun a ha => ha.elim fun j hj => hlow hj.1 hj.2) (hi.trans (by decide)) (hf.pool_empty i hi)
  · intro j level q hpos hlt hplace
    obtain hplace | ⟨a, ⟨j', hj', ha⟩, hblock⟩ := hg.fresh.touches hplace
    · rw [hf.building.free (hf.next_eq.le.trans hpos) hlt] at hplace
      cases hplace
    · refine ⟨load + j' * 2 ^ 21, (largePage_address hat hj').2, ?_⟩
      rw [← hblock, block_mono (Nat.le_add_left 1 level) ha]

/-! ## Which load addresses work -/

theorem and_eq_zero_of_dvd {a m : ℕ} (hdvd : 2 ^ 12 ∣ a) (hm : m < 2 ^ 12) : a &&& m = 0 := by
  rw [← Nat.mod_eq_of_lt (Nat.and_lt_two_pow a hm), Nat.and_mod_two_pow, Nat.mod_eq_zero_of_dvd hdvd,
    Nat.zero_and]

/-- The check passes every page. -/
theorem startup64_some (k : Kernel) (hpage : PAGE_SIZE ∣ load) (s : EarlyTables) :
    k.startup64 load s = some (k.mapIdent (k.ripRel load k.early_top_pgt) load k.largePages
      (k.kernelTables load s)) := by
  obtain ⟨-, hlt, hend, haligned⟩ := k.image_bounds
  have hdvd : 2 ^ 12 ∣ sub64 load (physAddrKernel k.text) := by
    rw [show PAGE_SIZE = 4096 from rfl] at hpage
    rw [physAddrKernel, START_KERNEL_map_eq, sub64, sub64]
    omega
  rw [startup64_eq, if_neg (not_not.mpr (and_eq_zero_of_dvd hdvd (by decide)))]

theorem Built.walk_eq (h : k.Built load s f) (hat : k.LoadedAt load) (x : ℕ) :
    k.walk s x = X86.walk s.mem (k.frame load k.early_top_pgt) x := by
  obtain ⟨hfrom, hto⟩ := k.inside k.early_top_pgt (k.statics_subset List.mem_cons_self)
  have hsize : PAGE_SIZE = 4096 := rfl
  rw [Kernel.walk, h.phys_base, physAddr_eq hat hfrom (by omega)]

/-- Where the image has been loaded at a page of physical memory, the tables map it at both
places exactly if that is a large page and the processor translates the addresses. -/
theorem mapsImage_iff (h : k.Loaded load s) (hpage : PAGE_SIZE ∣ load)
    (hphysical : load + (k.kernelEnd - k.text) ≤ 2 ^ 52) :
    k.MapsImage load s ↔ PMD_SIZE ∣ load ∧ load + (k.kernelEnd - k.text) ≤ 2 ^ 47 := by
  obtain ⟨htext, hlt, hend, -⟩ := k.image_bounds
  constructor
  · intro hmaps
    have hrun := startup64_some k hpage s
    have himage := hmaps _ hrun
    have hlast := himage.ident (k.kernelEnd - k.text - 1) (by omega)
    rw [Kernel.walk, X86.walk] at hlast
    obtain ⟨hcanonical, -⟩ := Option.ite_none_right_eq_some.mp hlast
    have hat : k.LoadedAt load := ⟨hpage, by obtain hlow | hhigh := hcanonical <;> omega⟩
    obtain ⟨f, hf⟩ := h.started hat hrun
    have hfirst := himage.linked 0 (by omega)
    rw [hf.building.walk_eq hat, X86.walk] at hfirst
    exact ⟨hf.kernel.aligned hat (Option.ite_none_right_eq_some.mp hfirst).2, hat.canonical⟩
  · rintro ⟨haligned, hcanonical⟩ s' hrun
    have hat : k.LoadedAt load := ⟨hpage, hcanonical⟩
    obtain ⟨f, hf⟩ := h.started hat hrun
    refine ⟨fun o ho => ?_, fun o ho => ?_⟩
    · rw [hf.building.walk_eq hat, X86.walk, if_pos (.inr (by omega)),
        hf.kernel.translate hat haligned (by omega) (by omega), frame, Nat.add_sub_cancel_left]
    · rw [hf.building.walk_eq hat, X86.walk, if_pos (.inl (by omega)), hf.ident haligned o ho]

/-- An image of 1 MiB, linked 4 MiB behind `__START_KERNEL_map`. -/
def smallKernel : Kernel where
  text := 0xFFFFFFFF80400000
  kernelEnd := 0xFFFFFFFF80500000
  early_top_pgt := 0xFFFFFFFF80401000
  level2_kernel_pgt := 0xFFFFFFFF80402000
  level2_fixmap_pgt := 0xFFFFFFFF80403000
  level1_fixmap_pgt := 0xFFFFFFFF80404000
  early_pages := 0xFFFFFFFF80410000
  text_map := by decide
  end_map := by decide
  text_aligned := by decide
  inside := by decide +kernel
  aligned := by decide +kernel
  distinct := by decide +kernel

/-- Tables without an entry. -/
def blankTables : EarlyTables := ⟨fun _ _ => 0, 0, 0⟩

theorem loaded_blankTables (k : Kernel) (load : ℕ) : k.Loaded load blankTables :=
  ⟨rfl, fun _ _ _ => rfl⟩

theorem mapsImage_smallKernel : smallKernel.MapsImage 0x1000000 blankTables :=
  (mapsImage_iff (loaded_blankTables _ _) (by decide) (by decide)).mpr (by decide)

/-- One page behind a large page the image cannot be mapped, and the check does not notice. -/
theorem not_mapsImage_smallKernel : ¬ smallKernel.MapsImage 0x1001000 blankTables := by
  intro hmaps
  have hat : smallKernel.LoadedAt 0x1001000 := ⟨by decide, by decide⟩
  have hrun := startup64_some smallKernel hat.aligned blankTables
  obtain ⟨f, hf⟩ := (loaded_blankTables _ _).started hat hrun
  have hfirst := (hmaps _ hrun).linked 0 (by decide)
  rw [hf.building.walk_eq hat, X86.walk] at hfirst
  have haligned := hf.kernel.aligned hat (Option.ite_none_right_eq_some.mp hfirst).2
  revert haligned
  decide

end Kernel

end Cyanea.Mm
