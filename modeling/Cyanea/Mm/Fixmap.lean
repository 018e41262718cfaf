/-
# What one call does to the fixmap

`__ioremap` records a span in a free run of slots and fills the entries of its slots,
`iounmap` forgets the span and clears them. A range whose pages are in consecutive
entries translates if its protection makes an entry present and leaves the address
alone, as those of `ioremap` and `memremap` do.
-/

import Cyanea.Math.Spans
import Cyanea.Mm.Ioremap

namespace Cyanea.Mm

open X86 Cyanea.Math.Spans

/-! ## Slots and addresses -/

/-- The page of entry `i`. -/
def pageOf (i : ℕ) : ℕ := 2 ^ 64 - 2 ^ 22 + 2 ^ 12 * i

theorem fixToVirt_entry {i : ℕ} (hi : i < 512) : fixToVirt (1023 - i) = pageOf i := by
  rw [fixToVirt, show FIX_TOP_ADDR = 2 ^ 64 - 2 ^ 12 from rfl, show PAGE_SHIFT = 12 from rfl,
    Nat.shiftLeft_eq, sub64_eq (by omega) (by omega), pageOf]
  omega

theorem virtToFix_entry {i offset : ℕ} (hi : i < 512) (hoffset : offset < 2 ^ 12) :
    virtToFix (pageOf i + offset) = 1023 - i := by
  have hpage : (pageOf i + offset) &&& PAGE_MASK = pageOf i := by
    rw [pageOf, and_PAGE_MASK (by omega)]
    omega
  rw [virtToFix, hpage, show FIX_TOP_ADDR = 2 ^ 64 - 2 ^ 12 from rfl,
    show PAGE_SHIFT = 12 from rfl, pageOf, sub64_eq (by omega) (by omega),
    Nat.shiftRight_eq_div_pow]
  omega

theorem index_pageOf {i offset : ℕ} (hi : i < 512) (hoffset : offset < 2 ^ 12) :
    index 0 (pageOf i + offset) = i := by
  rw [index, pageShift, pageOf]
  omega

/-! ## Entries -/

/-- Entries `first` to `first + count` hold `f 0`, `f 1` and so on. -/
def Fixmap.fill (s : Fixmap) (first count : ℕ) (f : ℕ → ℕ) : Fixmap :=
  { s with
    level1_fixmap_pgt := Function.update s.level1_fixmap_pgt 0 fun j =>
      if first ≤ j ∧ j < first + count then f (j - first) else s.level1_fixmap_pgt 0 j }

variable {s : Fixmap} {first count i prot phys size : ℕ} {f : ℕ → ℕ}

@[simp]
theorem Fixmap.fill_mapping : (s.fill first count f).mapping = s.mapping := rfl

theorem Fixmap.fill_inside {j : ℕ} (hj : j < count) :
    (s.fill first count f).level1_fixmap_pgt 0 (first + j) = f j := by
  simp [fill, hj]

theorem Fixmap.fill_outside {j : ℕ} (hj : j < first ∨ first + count ≤ j) :
    (s.fill first count f).level1_fixmap_pgt 0 j = s.level1_fixmap_pgt 0 j := by
  have hnot : ¬ (first ≤ j ∧ j < first + count) := by omega
  simp [fill, hnot]

theorem Fixmap.fill_nothing : s.fill first 0 f = s := by
  have hnot : ∀ j, ¬ (first ≤ j ∧ j < first + 0) := fun j => by omega
  simp only [fill, if_neg (hnot _)]
  rw [Function.update_eq_self]

theorem Fixmap.fill_succ :
    (s.setPte 0 first (f 0)).fill (first + 1) count (fun j => f (j + 1)) =
      s.fill first (count + 1) f := by
  simp only [fill, setPte, Function.update_self, Function.update_idem]
  congr 2
  funext j
  rcases Nat.lt_trichotomy j first with hless | rfl | hmore
  · have hnot : ¬ (first + 1 ≤ j ∧ j < first + 1 + count) := by omega
    have hnot' : ¬ (first ≤ j ∧ j < first + (count + 1)) := by omega
    rw [if_neg hnot, if_neg hnot', Function.update_of_ne hless.ne]
  · simp
  · have hsub : j - (first + 1) + 1 = j - first := by omega
    have hiff : (first + 1 ≤ j ∧ j < first + 1 + count) ↔
        (first ≤ j ∧ j < first + (count + 1)) := by omega
    simp only [hiff, hsub, Function.update_of_ne hmore.ne']

theorem setFixmap_entry (hi : i < 512) :
    setFixmap s (1023 - i) phys prot = .ok (s.setPte 0 i (fixmapPte phys prot)) := by
  have hrange : FIX_BITMAP_END ≤ 1023 - i ∧ 1023 - i ≤ FIX_BITMAP_BEGIN :=
    ⟨show 512 ≤ 1023 - i by omega, show 1023 - i ≤ 1023 by omega⟩
  have hindex : pteIndex (pageOf i) = i := by
    rw [pteIndex_eq]
    exact index_pageOf hi (show 0 < 2 ^ 12 by decide)
  rw [setFixmap, if_pos hrange, fixToVirt_entry hi, hindex]

theorem mapLoop_eq (s : Fixmap) (prot : ℕ) (hslots : first + count ≤ 512)
    (hphys : phys + 2 ^ 12 * count ≤ 2 ^ 52) :
    mapLoop prot count (1023 - first) phys s =
      .ok (s.fill first count fun j => fixmapPte (phys + 2 ^ 12 * j) prot) := by
  induction count generalizing first phys s with
  | zero => rw [mapLoop, Fixmap.fill_nothing]
  | succ count ih =>
      have hnext : add64 phys PAGE_SIZE = phys + 2 ^ 12 :=
        add64_eq (show phys + 2 ^ 12 < 2 ^ 64 by omega)
      have hstep : ∀ j, phys + 2 ^ 12 + 2 ^ 12 * j = phys + 2 ^ 12 * (j + 1) := fun j => by omega
      rw [mapLoop, setFixmap_entry (by omega), hnext, Nat.sub_sub]
      refine (ih _ (by omega) (by omega)).trans ?_
      simp only [hstep]
      exact congrArg Except.ok
        (Fixmap.fill_succ (f := fun j => fixmapPte (phys + 2 ^ 12 * j) prot))

/-- Without a protection the entry is cleared. -/
theorem fixmapPte_zero (phys : ℕ) : fixmapPte phys 0 = 0 := by
  rw [fixmapPte, Nat.zero_and]
  rfl

theorem unmapLoop_eq (hslots : first + count ≤ 512) :
    unmapLoop count (1023 - first) s = .ok (s.fill first count fun _ => 0) := by
  induction count generalizing first s with
  | zero => rw [unmapLoop, Fixmap.fill_nothing]
  | succ count ih =>
      rw [unmapLoop, setFixmap_entry (by omega), fixmapPte_zero, Nat.sub_sub]
      refine (ih (by omega)).trans ?_
      rw [← Fixmap.fill_succ (f := fun _ => 0)]

/-! ## Finding a free range -/

/-- The lengths that `mapping` records. -/
def Fixmap.record (s : Fixmap) : Record := fun i =>
  if i < 512 ∧ s.mapping i ≠ -1 then some (s.mapping i).toNat else none

theorem Fixmap.record_congr {s' : Fixmap} (h : s.mapping = s'.mapping) :
    s.record = s'.record := by
  funext j
  simp only [record, h]

theorem Fixmap.record_store (pgt : ℕ → ℕ → ℕ) (count : ℕ) (hi : i < 512) :
    Fixmap.record ⟨Function.update s.mapping i count, pgt⟩ =
      Function.update s.record i (some count) := by
  funext j
  by_cases hj : j = i
  · subst hj
    have hne : (count : ℤ) ≠ -1 := by omega
    simp [record, hi, hne]
  · simp [record, hj]

theorem Fixmap.record_forget (pgt : ℕ → ℕ → ℕ) :
    Fixmap.record ⟨Function.update s.mapping i (-1), pgt⟩ = Function.update s.record i none := by
  funext j
  by_cases hj : j = i
  · subst hj
    simp [record]
  · simp [record, hj]

/-- A length that is recorded is what `mapping` holds. -/
theorem Fixmap.mapping_of_record (h : s.record i = some count) (hpos : 0 < count) :
    i < 512 ∧ s.mapping i = count := by
  rw [record] at h
  split at h
  · rename_i hcond
    have hcount := Option.some.inj h
    omega
  · exact absurd h nofun

/-- The scan finds a free range if there is one, and none that begins behind another. -/
theorem freeRangeLoop_eq (hlaid : Laid 512 s.record) {a : ℕ}
    (hrun : FreeRun 512 s.record a count) {turns n start : ℕ}
    (hscan : Scanned s.record n i start) (hn : n ≤ count) (hstart : start ≤ a)
    (hturns : 513 - i ≤ turns) (hi : i ≤ 512) :
    ∃ first, freeRangeLoop s count turns n i start = .ok (some first) ∧
      FreeRun 512 s.record first count ∧ first ≤ a := by
  have hwithin := hrun.within
  induction turns generalizing n i start with
  | zero => omega
  | succ turns ih =>
      have heq := hscan.add_eq
      by_cases hlt : n < count
      · have hload : s.load i = .ok (s.mapping i) := if_pos (show i < 512 by omega)
        have hguard : ¬ TOTAL_FIX_BITMAPS < i := show ¬ 512 < i by omega
        rw [freeRangeLoop, if_pos hlt, if_neg hguard, hload]
        change ∃ first, (if s.mapping i ≠ -1 then _ else _) = _ ∧ _
        by_cases hfree : s.mapping i = -1
        · have hnone : s.record i = none := by simp [Fixmap.record, hfree]
          rw [if_neg (not_not.mpr hfree)]
          exact ih (hscan.free hnone) (by omega) hstart (by omega) (by omega)
        · have hsome : s.record i = some (s.mapping i).toNat :=
            if_pos ⟨by omega, hfree⟩
          have hjump := hscan.jump_le hlaid hrun hlt hstart hsome
          have hpos := hlaid.pos hsome
          rw [if_pos hfree]
          exact ih (hscan.jump hlaid hsome) (by omega) hjump (by omega) (by omega)
      · obtain rfl : n = count := by omega
        rw [freeRangeLoop, if_neg hlt]
        exact ⟨start, rfl, hscan.freeRun hi, hstart⟩

/-- The range that is found is the lowest one. -/
theorem findFreeRange_lowest (hlaid : Laid 512 s.record) (hcount : 0 < count)
    (hrun : ∃ a, FreeRun 512 s.record a count) :
    ∃ first, FreeRun 512 s.record first count ∧
      (∀ a, FreeRun 512 s.record a count → first ≤ a) ∧
      findFreeRange s count = .ok (some (1023 - first),
        { s with mapping := Function.update s.mapping first count }) := by
  have hfound (a : ℕ) (hrun : FreeRun 512 s.record a count) := freeRangeLoop_eq hlaid hrun
    scanned_zero (Nat.zero_le _) (Nat.zero_le _) (show 513 - 0 ≤ 514 by decide) (by decide)
  obtain ⟨a, hrun⟩ := hrun
  obtain ⟨first, hloop, hfree, -⟩ := hfound a hrun
  have hwithin := hfree.within
  have hstore : s.store first count =
      .ok { s with mapping := Function.update s.mapping first count } :=
    if_pos (show first < 512 by omega)
  refine ⟨first, hfree, fun a hrun => ?_, ?_⟩
  · obtain ⟨first', hloop', -, hle⟩ := hfound a hrun
    obtain rfl := Option.some.inj (Except.ok.inj (hloop.symm.trans hloop'))
    exact hle
  · rw [findFreeRange, show TOTAL_FIX_BITMAPS + 2 = 514 from rfl, hloop]
    change (do let s ← s.store first count; pure (some (FIX_BITMAP_BEGIN - first), s)) = _
    rw [hstore]
    rfl

/-! ## Mapping and unmapping -/

/-- The pages that the bytes from `phys` to `phys + size` lie in. -/
def pageCount (phys size : ℕ) : ℕ :=
  if size = 0 then 0 else (phys + size + (2 ^ 12 - 1)) / 2 ^ 12 - phys / 2 ^ 12

theorem pageCount_pos (phys : ℕ) (hsize : size ≠ 0) : 0 < pageCount phys size := by
  rw [pageCount, if_neg hsize]
  omega

/-- The pages of a mapping are in the entries from `first` on. -/
def Fixmap.mapped (s : Fixmap) (first phys size prot : ℕ) : Fixmap :=
  Fixmap.fill { s with mapping := Function.update s.mapping first (pageCount phys size) }
    first (pageCount phys size) fun j => fixmapPte (2 ^ 12 * (phys / 2 ^ 12 + j)) prot

theorem Fixmap.mapped_inside (s : Fixmap) (first prot : ℕ) {j : ℕ} (hj : j < pageCount phys size) :
    (s.mapped first phys size prot).level1_fixmap_pgt 0 (first + j) =
      fixmapPte (2 ^ 12 * (phys / 2 ^ 12 + j)) prot := by
  rw [mapped]
  exact fill_inside hj

theorem Fixmap.mapped_outside {j : ℕ} (hj : j < first ∨ first + pageCount phys size ≤ j) :
    (s.mapped first phys size prot).level1_fixmap_pgt 0 j = s.level1_fixmap_pgt 0 j := by
  rw [mapped, fill_outside hj]

theorem Fixmap.record_mapped (s : Fixmap) (phys size prot : ℕ) (hfirst : first < 512) :
    (s.mapped first phys size prot).record =
      Function.update s.record first (some (pageCount phys size)) :=
  record_store _ _ hfirst

/-- The span from `first` on is forgotten and its entries are empty. -/
def Fixmap.cleared (s : Fixmap) (first count : ℕ) : Fixmap :=
  { s.fill first count fun _ => 0 with mapping := Function.update s.mapping first (-1) }

theorem Fixmap.cleared_outside {j : ℕ} (hj : j < first ∨ first + count ≤ j) :
    (s.cleared first count).level1_fixmap_pgt 0 j = s.level1_fixmap_pgt 0 j :=
  fill_outside (f := fun _ => 0) hj

theorem Fixmap.record_cleared :
    (s.cleared first count).record = Function.update s.record first none :=
  record_forget _

/-- A range goes to the lowest free run that it fits in. -/
theorem ioremapProt_lowest (prot : ℕ) (hlaid : Laid 512 s.record) (hsize : size ≠ 0)
    (hphys : phys + size ≤ 2 ^ 52)
    (hrun : ∃ a, FreeRun 512 s.record a (pageCount phys size)) :
    ∃ first, FreeRun 512 s.record first (pageCount phys size) ∧
      (∀ a, FreeRun 512 s.record a (pageCount phys size) → first ≤ a) ∧
      ioremapProt s phys size prot =
        .ok (pageOf first + phys % 2 ^ 12, s.mapped first phys size prot) := by
  have hpos := pageCount_pos phys hsize
  obtain ⟨first, hfree, hlowest, hfind⟩ := findFreeRange_lowest hlaid hpos hrun
  have hwithin := hfree.within
  have hcount : pageCount phys size = (phys + size + (2 ^ 12 - 1)) / 2 ^ 12 - phys / 2 ^ 12 :=
    if_neg hsize
  have hpages : (sub64 (pageAlign (add64 phys size)) (phys &&& PAGE_MASK) >>> PAGE_SHIFT) %
      2 ^ 32 = pageCount phys size := by
    rw [add64_eq (by omega), pageAlign_eq (by omega), and_PAGE_MASK (by omega),
      sub64_eq (by omega) (by omega), show PAGE_SHIFT = 12 from rfl, Nat.shiftRight_eq_div_pow,
      hcount]
    omega
  have hfew : ¬ TOTAL_FIX_BITMAPS < pageCount phys size :=
    show ¬ 512 < pageCount phys size by omega
  have hend : (phys &&& PAGE_MASK) + 2 ^ 12 * pageCount phys size ≤ 2 ^ 52 := by
    rw [and_PAGE_MASK (by omega), hcount]
    omega
  have hloop := mapLoop_eq
    { s with mapping := Function.update s.mapping first (pageCount phys size) }
    prot hwithin hend
  have hvirt : add64 (fixToVirt (1023 - first)) (offsetInPage phys) =
      pageOf first + phys % 2 ^ 12 := by
    rw [fixToVirt_entry (by omega), offsetInPage_eq, pageOf, add64_eq (by omega)]
  have hstep : ∀ j, 2 ^ 12 * (phys / 2 ^ 12) + 2 ^ 12 * j = 2 ^ 12 * (phys / 2 ^ 12 + j) :=
    fun j => (Nat.mul_add _ _ _).symm
  refine ⟨first, hfree, hlowest, ?_⟩
  simp only [ioremapProt, if_neg hsize, hpages, if_neg hfew]
  rw [hfind]
  change (do
    let s ← mapLoop prot (pageCount phys size) (1023 - first) (phys &&& PAGE_MASK) _
    pure (add64 (fixToVirt (1023 - first)) (offsetInPage phys), s)) = _
  rw [hloop, hvirt, and_PAGE_MASK (by omega)]
  simp only [hstep]
  rfl

theorem ioremapProt_eq (prot : ℕ) (hlaid : Laid 512 s.record) (hsize : size ≠ 0)
    (hphys : phys + size ≤ 2 ^ 52)
    (hrun : ∃ a, FreeRun 512 s.record a (pageCount phys size)) :
    ∃ first, FreeRun 512 s.record first (pageCount phys size) ∧
      ioremapProt s phys size prot =
        .ok (pageOf first + phys % 2 ^ 12, s.mapped first phys size prot) := by
  obtain ⟨first, hfree, -, hmap⟩ := ioremapProt_lowest prot hlaid hsize hphys hrun
  exact ⟨first, hfree, hmap⟩

/-- How many of the pages are left when their number is cut to 32 bits. -/
def narrowed (phys size : ℕ) : ℕ := pageCount phys size % 2 ^ 32

theorem narrowed_eq (h : pageCount phys size < 2 ^ 32) :
    narrowed phys size = pageCount phys size :=
  Nat.mod_eq_of_lt h

/-- A mapping is unmapped, unless its address lies behind the beginning of the last page:
that one `iounmap` takes for an address of another table and leaves as it is. -/
theorem iounmap_span (hi : i < 512) (hsize : size ≠ 0) (hslots : i + narrowed phys size ≤ 512)
    (hphys : phys + size ≤ 2 ^ 52) (hmapping : s.mapping i = narrowed phys size) :
    iounmap s (pageOf i + phys % 2 ^ 12) size =
      if i = 511 ∧ phys % 2 ^ 12 ≠ 0 then .ok s
      else .ok (s.cleared i (narrowed phys size)) := by
  have hoff : phys % 2 ^ 12 < 2 ^ 12 := Nat.mod_lt _ (by decide)
  have hzero : pageOf i + phys % 2 ^ 12 ≠ 0 := by
    rw [pageOf]
    omega
  have hwindow : (pageOf i + phys % 2 ^ 12 < fixToVirt FIX_BITMAP_BEGIN ∨
      fixToVirt FIX_BITMAP_END < pageOf i + phys % 2 ^ 12) ↔ i = 511 ∧ phys % 2 ^ 12 ≠ 0 := by
    have hbegin : fixToVirt FIX_BITMAP_BEGIN = pageOf 0 := by
      rw [show FIX_BITMAP_BEGIN = 1023 - 0 from rfl, fixToVirt_entry (by decide)]
    have hend : fixToVirt FIX_BITMAP_END = pageOf 511 := by
      rw [show FIX_BITMAP_END = 1023 - 511 from rfl, fixToVirt_entry (by decide)]
    rw [hbegin, hend, pageOf, pageOf, pageOf]
    omega
  rw [iounmap, if_neg hzero]
  refine if_congr hwindow rfl ?_
  have hcount : narrowed phys size =
      ((phys + size + (2 ^ 12 - 1)) / 2 ^ 12 - phys / 2 ^ 12) % 2 ^ 32 := by
    rw [narrowed, pageCount, if_neg hsize]
  have hoffset : offsetInPage (pageOf i + phys % 2 ^ 12) = phys % 2 ^ 12 := by
    rw [offsetInPage_eq, pageOf]
    omega
  have hpages : (pageAlign (add64 (phys % 2 ^ 12) size) >>> PAGE_SHIFT) % 2 ^ 32 =
      narrowed phys size := by
    rw [add64_eq (by omega), pageAlign_eq (by omega), show PAGE_SHIFT = 12 from rfl,
      Nat.shiftRight_eq_div_pow]
    omega
  have hentry : FIX_BITMAP_BEGIN - (1023 - i) = i := show 1023 - (1023 - i) = i by omega
  have hload : s.load i = .ok (s.mapping i) := if_pos hi
  have hsame : ¬ s.mapping i % 2 ^ 32 ≠ (narrowed phys size : ℤ) := by
    rw [hmapping]
    omega
  have hstore : ∀ s' : Fixmap, s'.store i (-1) =
      .ok { s' with mapping := Function.update s'.mapping i (-1) } := fun _ => if_pos hi
  rw [virtToFix_entry hi hoff, hoffset]
  simp only [hentry, hpages, hload]
  change (if s.mapping i % 2 ^ 32 ≠ (narrowed phys size : ℤ) then _ else _) = _
  rw [if_neg hsame, unmapLoop_eq hslots]
  exact hstore _

theorem iounmap_eq (hi : i < 512) (hsize : size ≠ 0) (hslots : i + pageCount phys size ≤ 512)
    (hphys : phys + size ≤ 2 ^ 52) (hmapping : s.mapping i = pageCount phys size) :
    iounmap s (pageOf i + phys % 2 ^ 12) size = .ok s ∨
      iounmap s (pageOf i + phys % 2 ^ 12) size =
        .ok (s.cleared i (pageCount phys size)) := by
  have hnarrow : narrowed phys size = pageCount phys size := narrowed_eq (by omega)
  rw [← hnarrow] at hslots hmapping ⊢
  rw [iounmap_span hi hsize hslots hphys hmapping]
  split
  · exact .inl rfl
  · exact .inr rfl

/-! ## Protections -/

/-- The protection makes an entry present and leaves the address alone. -/
def Maps (prot : ℕ) : Prop :=
  (prot &&& supported_pte_mask).testBit 0 = true ∧ Flags (prot &&& supported_pte_mask)

instance (prot : ℕ) : Decidable (Maps prot) := inferInstanceAs (Decidable (_ ∧ _))

theorem maps_PAGE_KERNEL : Maps PAGE_KERNEL := by decide

theorem maps_PAGE_KERNEL_NOCACHE (modes : CachemodeToPte) : Maps (PAGE_KERNEL_NOCACHE modes) := by
  have hall : ∀ i : Fin 8, Maps (PAGE_KERNEL ||| idxPat2pte i) := by decide
  exact hall (modes .UC)

theorem entry_fixmapPte {page : ℕ} (hmaps : Maps prot) (hdvd : 2 ^ 12 ∣ page)
    (hpage : page < 2 ^ 52) : entry 0 (fixmapPte page prot) = .page page := by
  obtain ⟨hpresent, hflags⟩ := hmaps
  have hmask : page &&& PAGE_MASK = page := by
    rw [and_PAGE_MASK (by omega), Nat.mul_div_cancel' hdvd]
  have hne : prot &&& supported_pte_mask ≠ 0 := by
    intro hzero
    rw [hzero] at hpresent
    exact absurd hpresent (by decide)
  rw [fixmapPte, hmask]
  change entry 0 (if prot &&& supported_pte_mask ≠ 0 then _ else _) = _
  rw [if_pos hne]
  exact entry_leaf hdvd hpage hflags hpresent

/-- Every byte of a range translates if its pages are in the entries from `first` on. -/
theorem translate_range (hmaps : Maps prot) (hslots : first + pageCount phys size ≤ 512)
    (hphys : phys + size ≤ 2 ^ 52)
    (hptes : ∀ j < pageCount phys size, s.level1_fixmap_pgt 0 (first + j) =
      fixmapPte (2 ^ 12 * (phys / 2 ^ 12 + j)) prot) {k : ℕ} (hk : k < size) :
    s.translate (pageOf first + phys % 2 ^ 12 + k) = some (phys + k) := by
  have hcount : pageCount phys size = (phys + size + (2 ^ 12 - 1)) / 2 ^ 12 - phys / 2 ^ 12 :=
    if_neg (by omega)
  -- the byte is in the page that is `j` pages behind the first one
  obtain ⟨j, hj⟩ : ∃ j, j = (phys % 2 ^ 12 + k) / 2 ^ 12 := ⟨_, rfl⟩
  have hjlt : j < pageCount phys size := by omega
  have hva : pageOf first + phys % 2 ^ 12 + k =
      pageOf (first + j) + (phys % 2 ^ 12 + k) % 2 ^ 12 := by
    rw [pageOf, pageOf]
    omega
  have hoff : (phys % 2 ^ 12 + k) % 2 ^ 12 < 2 ^ 12 := Nat.mod_lt _ (by decide)
  have htable : (pageOf (first + j) + (phys % 2 ^ 12 + k) % 2 ^ 12) / 2 ^ 21 = 2 ^ 43 - 2 := by
    rw [pageOf]
    omega
  have hentry : entry 0 (s.level1_fixmap_pgt 0
      (index 0 (pageOf (first + j) + (phys % 2 ^ 12 + k) % 2 ^ 12))) =
      .page (2 ^ 12 * (phys / 2 ^ 12 + j)) := by
    rw [index_pageOf (by omega) hoff, hptes j hjlt]
    exact entry_fixmapPte hmaps (Nat.dvd_mul_right _ _) (by omega)
  rw [hva, Fixmap.translate, if_pos htable,
    translate_leaf (fun _ => s.level1_fixmap_pgt 0) 0 hentry]
  refine congrArg some ?_
  rw [pageOf]
  omega

/-- Where there is room, `memremap` returns a mapping that translates, and unmapping it
returns. The mapping ends below the tables of the permanent entries. -/
theorem memremap_free (hlaid : Laid 512 s.record) (hsize : size ≠ 0)
    (hphys : phys + size ≤ 2 ^ 52)
    (hrun : ∃ a, FreeRun 512 s.record a (pageCount phys size)) :
    ∃ virt mapped unmapped, memremap s phys size = .ok (virt, mapped) ∧ virt ≠ 0 ∧
      (∀ k < size, mapped.translate (virt + k) = some (phys + k)) ∧
      iounmap mapped virt size = .ok unmapped ∧ virt + size ≤ 2 ^ 64 - 2 ^ 21 := by
  obtain ⟨first, hfree, hmap⟩ := ioremapProt_eq PAGE_KERNEL hlaid hsize hphys hrun
  have hwithin := hfree.within
  have hpos := pageCount_pos phys hsize
  have hcount : pageCount phys size = (phys + size + (2 ^ 12 - 1)) / 2 ^ 12 - phys / 2 ^ 12 :=
    if_neg hsize
  have hmapping : (s.mapped first phys size PAGE_KERNEL).mapping first = pageCount phys size :=
    Function.update_self first _ s.mapping
  have htranslate : ∀ k < size, (s.mapped first phys size PAGE_KERNEL).translate
      (pageOf first + phys % 2 ^ 12 + k) = some (phys + k) := fun k hk =>
    translate_range maps_PAGE_KERNEL hwithin hphys (fun j hj => s.mapped_inside _ _ hj) hk
  have hvirt : pageOf first + phys % 2 ^ 12 ≠ 0 := by
    rw [pageOf]
    omega
  have hend : pageOf first + phys % 2 ^ 12 + size ≤ 2 ^ 64 - 2 ^ 21 := by
    rw [pageOf]
    omega
  rcases iounmap_eq (by omega) hsize hwithin hphys hmapping with hunmap | hunmap
  · exact ⟨_, _, _, hmap, hvirt, htranslate, hunmap, hend⟩
  · exact ⟨_, _, _, hmap, hvirt, htranslate, hunmap, hend⟩

theorem Fixmap.record_start : Fixmap.start.record = fun _ => none := by
  funext i
  exact if_neg fun h => h.2 rfl

/-- At boot every range of at most 512 pages has room. -/
theorem freeRun_start (hcount : count ≤ 512) : FreeRun 512 Fixmap.start.record 0 count := by
  refine ⟨by omega, ?_⟩
  rintro slot - - ⟨first, len, hrec, -⟩
  rw [Fixmap.record_start] at hrec
  exact absurd hrec nofun

theorem laid_start : Laid 512 Fixmap.start.record := by
  rw [Fixmap.record_start]
  exact laid_nil

end Cyanea.Mm
