/-
# Mapping the kernel where it is linked and where it is

`__startup_64` first puts the static tables together, which need no search: they hold the
image at the address where it is linked. Then it maps the image once more, at the address
where it has been loaded, and takes tables from the pool as it goes. The image is smaller
than 1 GiB, so that the second mapping takes four pages of the pool at most.
-/

import Cyanea.Mm.KernelMapping

namespace Cyanea.Mm

open X86

namespace Kernel

variable {k : Kernel} {load : ℕ} {s : EarlyTables} {f : Forest} {b level low i a : ℕ}
  {touched : Set ℕ}

/-! ## Descending with the pool -/

/-- What `tableOf` has done: the entry points to a table, in which the address is still vacant
if it was; and at most one page was taken, and none if there was a table already. -/
structure Descends (k : Kernel) (load : ℕ) (s : EarlyTables) (f : Forest) (b level low a : ℕ)
    (touched : Set ℕ) (r : ℕ × EarlyTables) (g : Forest) : Prop where
  building : k.Building load r.2 g
  grows : f.Extends touched g
  fresh : f.Fresh touched g
  reaches : g.Over r.1 level a
  entry_eq : entry (level + 1) (r.2.mem b (index (level + 1) a)) = .table r.1
  vacant : Vacant r.2.mem low level r.1 a
  next_le : r.2.next_page ≤ s.next_page + 1
  unchanged : (s.mem b (index (level + 1) a)).testBit 0 = true → r.2 = s

theorem Built.zero_of_absent (h : k.Built load s f) {n : ℕ} (hplace : f.place b = some (level, n))
    (hi : i < 512) (habsent : (s.mem b i).testBit 0 = false) : s.mem b i = 0 := by
  obtain hzero | ⟨hpresent, -⟩ := h.used hplace hi
  · exact hzero
  · rw [habsent] at hpresent
    cases hpresent

theorem Building.tableOf (h : k.Building load s f) (hat : k.LoadedAt load) (hpos : 0 < level)
    (hover : f.Over b (level + 1) a) (hvacant : Vacant s.mem low (level + 1) b a)
    (hle : low ≤ level) (hpage : s.next_page < EARLY_FREE_PAGES) (htouched : a ∈ touched) :
    ∃ g, Descends k load s f b level low a touched
      (k.tableOf load b (index (level + 1) a) s) g := by
  have hindex := index_lt (level + 1) a
  by_cases hpresent : (s.mem b (index (level + 1) a)).testBit 0 = true
  · obtain ⟨l, c, hl, -, hentry, hrest⟩ := hvacant.table hpresent
    obtain rfl := Nat.succ.inj hl
    have hne : s.mem b (index (level + 1) a) ≠ 0 := by
      intro hzero
      rw [hzero, Nat.zero_testBit] at hpresent
      cases hpresent
    have hc : s.mem b (index (level + 1) a) &&& PG_PFN_MASK = c := by
      rw [and_PG_PFN_MASK]
      exact (of_entry_table hentry).2.2.symm
    have hchild : f.Over c level a := hover.child (by rw [h.mem, hentry])
    rw [Kernel.tableOf, if_pos hne, hc]
    exact ⟨f, h, .refl _ f, .refl _ f, hchild, hentry, hrest, Nat.le_succ _, fun _ => rfl⟩
  · have habsent := Bool.not_eq_true _ ▸ hpresent
    have hzero := h.zero_of_absent hover hindex habsent
    have hmem := earlyPage_mem (k := k) hpage
    have hnew := h.free (Nat.le_refl _) hpage
    have hblock := block_eq (f.level_le hover) a
    obtain ⟨g, hg, hext, hplace, hothers⟩ := h.taken.link hat hmem
      (fun hle _ heq => absurd (earlyPage_inj heq) (Nat.ne_of_lt hle)) hover hindex
      (fun hl => absurd hl hpos.ne') hnew hzero ⟨a, htouched, hblock⟩
    have hother : k.frame load (k.earlyPage s.next_page) ≠ b := (Forest.ne_of_placed hnew hover).symm
    rw [Kernel.tableOf, if_neg (not_not.mpr hzero), getFreePage, ripRel_eq hat hmem]
    refine ⟨g, hg, hext, .of_new hplace hothers ⟨a, htouched, hblock⟩, ?_, ?_, ?_, Nat.le_refl _,
      fun hpresent' => absurd hpresent' hpresent⟩
    · rwa [Forest.Over, hblock]
    · dsimp only
      rw [EarlyTables.store_self, entry_frame hat hmem]
    · refine vacant_of_absent hle ?_
      dsimp only
      rw [EarlyTables.store_of_ne fun heq => hother heq.1]
      show (s.mem _ _).testBit 0 = false
      rw [h.blank hmem hnew, Nat.zero_testBit]

/-! ## Mapping a large page at its own address -/

/-- What `ident_map` has done: the large page is translated to itself, and pages were taken only
if a table was missing. -/
structure IdentMapped (k : Kernel) (load : ℕ) (s : EarlyTables) (f : Forest) (a : ℕ)
    (s' : EarlyTables) (g : Forest) : Prop where
  building : k.Building load s' g
  grows : f.Extends {x | block 1 x = block 1 a} g
  fresh : f.Fresh {x | block 1 x = block 1 a} g
  table : ∃ c, tableAt s'.mem 1 3 (k.frame load k.early_top_pgt) a = some c
  maps : PMD_SIZE ∣ load → ∀ x, x < 2 ^ 47 → block 1 x = block 1 a →
    translate s'.mem 3 (k.frame load k.early_top_pgt) x = some x
  next_le : s'.next_page ≤ s.next_page + 2
  next_eq : ¬ Vacant s.mem 2 3 (k.frame load k.early_top_pgt) a → s'.next_page = s.next_page

theorem Descends.table {r : ℕ × EarlyTables} {g : Forest} {t : ℕ}
    (h : Descends k load s f b level low a touched r g) (ht : t = level) :
    tableAt r.2.mem t (level + 1) b a = some r.1 := by
  rw [ht, tableAt_of_table (Nat.le_refl _) h.entry_eq, tableAt_self]

/-- The offset of an address in its large page. -/
theorem add_mod_of_block {x : ℕ} (hx : x < 2 ^ 47) (ha : a < 2 ^ 47) (hdvd : 2 ^ 21 ∣ a)
    (hblock : block 1 x = block 1 a) : a + x % 2 ^ pageShift 1 = x := by
  rw [block, block, show pageShift 1 = 21 from rfl] at hblock
  rw [show pageShift 1 = 21 from rfl]
  omega

theorem Building.identMap (h : k.Building load s f) (hat : k.LoadedAt load)
    (ha : a < 2 ^ 47) (hdvd : 2 ^ 12 ∣ a) (hload : PMD_SIZE ∣ load → 2 ^ 21 ∣ a)
    (hpage : s.next_page + 2 ≤ EARLY_FREE_PAGES)
    (hvacant : Vacant s.mem 1 3 (k.frame load k.early_top_pgt) a) :
    ∃ g, IdentMapped k load s f a (k.identMap (k.frame load k.early_top_pgt) a load s) g := by
  have hself : a ∈ {x | block 1 x = block 1 a} := rfl
  obtain ⟨g₁, hg₁⟩ := h.tableOf hat (by decide) (h.over_root a) hvacant (by decide)
    (show s.next_page < EARLY_FREE_PAGES by omega) hself
  rw [Kernel.identMap, pgdIndex_eq, pudIndex_eq, pmdIndex_eq]
  generalize k.tableOf load (k.frame load k.early_top_pgt) (index 3 a) s = r₁ at hg₁ ⊢
  obtain ⟨c₁, s₁⟩ := r₁
  have hnext₁ : s₁.next_page ≤ s.next_page + 1 := hg₁.next_le
  obtain ⟨g₂, hg₂⟩ := hg₁.building.tableOf hat (by decide) hg₁.reaches hg₁.vacant (by decide)
    (show s₁.next_page < EARLY_FREE_PAGES by omega) hself
  dsimp only
  generalize k.tableOf load c₁ (index 2 a) s₁ = r₂ at hg₂ ⊢
  obtain ⟨c₂, s₂⟩ := r₂
  dsimp only
  have hnext₂ : s₂.next_page ≤ s₁.next_page + 1 := hg₂.next_le
  have hblock := block_eq (g₂.level_le hg₂.reaches) a
  have hindex := index_lt 1 a
  -- the entry of the page itself
  have hzero : s₂.mem c₂ (index 1 a) = 0 :=
    hg₂.building.zero_of_absent hg₂.reaches hindex hg₂.vacant.absent
  have hleaf : Leaf load 1 (a ||| PAGE_KERNEL_LARGE_EXEC_NO_GLOBAL) :=
    leaf_large hdvd (ha.trans (by decide)) hload (by decide) (by decide) (by decide)
  obtain ⟨g₃, hg₃, hext₃, hplace₃⟩ := hg₂.building.page
    {x | block 1 x = block 1 a} hg₂.reaches hzero hleaf
    (fun {y} hy => ⟨y, hy.trans hblock.symm, rfl⟩)
  -- both tables are still on the walk
  have htable₂ : tableAt g₂.mem 1 3 (k.frame load k.early_top_pgt) a = some c₂ := by
    have hentry : entry 3 (g₂.mem (k.frame load k.early_top_pgt) (index 3 a)) = .table c₁ := by
      rw [hg₂.grows.keeps hg₁.building.root, hg₁.building.mem]
      · exact hg₁.entry_eq
      · rw [hg₁.building.mem]
        exact (of_entry_table hg₁.entry_eq).1
    rw [tableAt_of_table (by decide) hentry, hg₂.building.mem]
    exact hg₂.table rfl
  have htable₃ := hext₃.tableAt (hg₂.building.over_root a) htable₂
  rw [hg₃.mem] at htable₃
  refine ⟨g₃, hg₃, (hg₁.grows.trans hg₂.grows).trans hext₃,
    (hg₁.fresh.trans hg₂.fresh).trans ⟨fun hd => .inl (hplace₃ ▸ hd)⟩, ⟨c₂, htable₃⟩, ?_, ?_, ?_⟩
  · intro haligned x hx hxa
    have hxtable := tableAt_congr (by decide) (block_mono (by decide) hxa.symm) htable₃
    have hentry := entry_large_page (hload haligned) (ha.trans (by decide))
      (show Flags PAGE_KERNEL_LARGE_EXEC_NO_GLOBAL by decide) (by decide) (by decide)
    have hpage : entry 1 ((s₂.store c₂ (index 1 a)
        (a ||| PAGE_KERNEL_LARGE_EXEC_NO_GLOBAL)).mem c₂ (index 1 x)) = .page a := by
      rw [index_of_block_eq (Nat.le_refl 1) (by decide) hxa, EarlyTables.store_self, hentry]
    rw [translate_of_tableAt hxtable, translate_page hpage, add_mod_of_block hx ha
      (hload haligned) hxa]
  · show s₂.next_page ≤ s.next_page + 2
    omega
  · intro hpresent
    show s₂.next_page = s.next_page
    have hfirst : (s.mem (k.frame load k.early_top_pgt) (index 3 a)).testBit 0 = true := by
      by_contra habsent
      exact hpresent (vacant_of_absent (by decide) (Bool.not_eq_true _ ▸ habsent))
    obtain rfl : s₁ = s := hg₁.unchanged hfirst
    have hsecond : (s₁.mem c₁ (index 2 a)).testBit 0 = true := by
      by_contra habsent
      exact hpresent (vacant_of_tableAt (hg₁.table rfl)
        (vacant_of_absent (by decide) (Bool.not_eq_true _ ▸ habsent)))
    rw [show s₂ = s₁ from hg₂.unchanged hsecond]

/-! ## The image at its own address -/

/-- Different large pages of the image lie in different blocks. -/
theorem largePage_block_ne (hat : k.LoadedAt load) {j : ℕ} (hji : j < i) (hi : i < k.largePages) :
    block 1 (load + j * 2 ^ 21) ≠ block 1 (load + i * 2 ^ 21) := by
  have hlt := (largePage_address hat hi).2
  rw [block, block, show pageShift 1 = 21 from rfl]
  omega

/-- The first large pages of the image have been mapped at their own addresses. -/
structure IdentLoop (k : Kernel) (load : ℕ) (s : EarlyTables) (f : Forest) (i : ℕ)
    (s' : EarlyTables) (g : Forest) : Prop where
  building : k.Building load s' g
  grows : f.Extends {x | ∃ j < i, block 1 x = block 1 (load + j * 2 ^ 21)} g
  fresh : f.Fresh {x | ∃ j < i, block 1 x = block 1 (load + j * 2 ^ 21)} g
  table : ∀ j < i, ∃ c,
    tableAt s'.mem 1 3 (k.frame load k.early_top_pgt) (load + j * 2 ^ 21) = some c
  maps : PMD_SIZE ∣ load → ∀ j < i, ∀ x, x < 2 ^ 47 → block 1 x = block 1 (load + j * 2 ^ 21) →
    translate s'.mem 3 (k.frame load k.early_top_pgt) x = some x
  next_le : ∀ n, block 2 load ≤ n → (∀ j < i, block 2 (load + j * 2 ^ 21) < n) →
    s'.next_page + 2 * block 2 load ≤ s.next_page + 2 * n

theorem Building.mapIdent_step (h : k.Building load s f) (hat : k.LoadedAt load)
    (hnext : s.next_page = 1)
    (hvacant : ∀ j < k.largePages,
      Vacant s.mem 1 3 (k.frame load k.early_top_pgt) (load + j * 2 ^ 21))
    (hi : i < k.largePages) {s' : EarlyTables} {g : Forest} (hg : IdentLoop k load s f i s' g) :
    ∃ g', IdentLoop k load s f (i + 1)
      (k.identMap (k.frame load k.early_top_pgt) (load + i * 2 ^ 21) load s') g' := by
  obtain ⟨-, hlt⟩ := largePage_address hat hi
  obtain ⟨htext, -, hend, -⟩ := k.image_bounds
  have hstart := largePage_lt hi
  have hfree : EARLY_FREE_PAGES = 64 := rfl
  -- the image reaches into two tables of the pool's level 1 at most
  have hpage : s'.next_page + 2 ≤ EARLY_FREE_PAGES := by
    have hbound := hg.next_le (block 2 load + 2) (by omega) fun j hj => by
      rw [block, block, show pageShift 2 = 30 from rfl]
      omega
    omega
  have hstill : Vacant s'.mem 1 3 (k.frame load k.early_top_pgt) (load + i * 2 ^ 21) := by
    rw [← hg.building.mem]
    refine hg.grows.vacant (h.over_root _) ?_ (h.mem ▸ hvacant i hi)
    rintro x ⟨j, hj, hx⟩ hxi
    exact largePage_block_ne hat hj hi (hx.symm.trans hxi)
  obtain ⟨g', hg'⟩ := hg.building.identMap hat hlt (largePage_dvd hat i)
    (fun haligned => largePage_dvd_large haligned i) hpage hstill
  have hearlier : ∀ {x}, (∃ j < i, block 1 x = block 1 (load + j * 2 ^ 21)) →
      ∃ j < i + 1, block 1 x = block 1 (load + j * 2 ^ 21) :=
    fun h => h.imp fun _ hx => ⟨Nat.lt_succ_of_lt hx.1, hx.2⟩
  refine ⟨g', hg'.building,
    (hg.grows.mono fun x => hearlier).trans (hg'.grows.mono fun x hx => ⟨i, Nat.lt_succ_self i, hx⟩),
    (hg.fresh.mono fun x => hearlier).trans (hg'.fresh.mono fun x hx => ⟨i, Nat.lt_succ_self i, hx⟩),
    ?_, ?_, ?_⟩
  · intro j hj
    obtain hj | rfl := Nat.lt_succ_iff_lt_or_eq.mp hj
    · obtain ⟨c, hc⟩ := hg.table j hj
      refine ⟨c, ?_⟩
      rw [← hg'.building.mem]
      exact hg'.grows.tableAt (hg.building.over_root _) (hg.building.mem ▸ hc)
    · exact hg'.table
  · intro haligned j hj x hx hxj
    obtain hj | rfl := Nat.lt_succ_iff_lt_or_eq.mp hj
    · rw [← hg'.building.mem]
      exact hg'.grows.translate (hg.building.over_root _)
        (hg.building.mem ▸ hg.maps haligned j hj x hx hxj)
    · exact hg'.maps haligned x hx hxj
  · intro n hn hall
    by_cases hmissing : Vacant s'.mem 2 3 (k.frame load k.early_top_pgt) (load + i * 2 ^ 21)
    · -- this page is the first of its table
      have hbefore : ∀ j < i, block 2 (load + j * 2 ^ 21) < block 2 (load + i * 2 ^ 21) := by
        intro j hj
        obtain ⟨c, hc⟩ := hg.table j hj
        have hne : block 2 (load + j * 2 ^ 21) ≠ block 2 (load + i * 2 ^ 21) := fun heq =>
          not_vacant_of_tableAt (by decide) hc (vacant_congr (by decide) heq.symm hmissing)
        rw [block, block, show pageShift 2 = 30 from rfl] at hne ⊢
        omega
      have hfrom : block 2 load ≤ block 2 (load + i * 2 ^ 21) := by
        rw [block, block, show pageShift 2 = 30 from rfl]
        omega
      have hbound := hg.next_le _ hfrom hbefore
      have hthis := hall i (Nat.lt_succ_self i)
      have hle := hg'.next_le
      omega
    · rw [hg'.next_eq hmissing]
      exact hg.next_le n hn fun j hj => hall j (Nat.lt_succ_of_lt hj)

theorem mapIdent_succ (k : Kernel) (pgd load count : ℕ) (s : EarlyTables) :
    k.mapIdent pgd load (count + 1) s =
      k.identMap pgd (add64 load (count * PMD_SIZE)) load (k.mapIdent pgd load count s) := by
  rw [Kernel.mapIdent, List.range_succ, List.foldl_append]
  rfl

theorem Building.mapIdent (h : k.Building load s f) (hat : k.LoadedAt load)
    (hnext : s.next_page = 1)
    (hvacant : ∀ j < k.largePages,
      Vacant s.mem 1 3 (k.frame load k.early_top_pgt) (load + j * 2 ^ 21)) {count : ℕ}
    (hcount : count ≤ k.largePages) :
    ∃ g, IdentLoop k load s f count
      (k.mapIdent (k.frame load k.early_top_pgt) load count s) g := by
  induction count with
  | zero =>
      exact ⟨f, h, .refl _ f, .refl _ f, nofun, nofun, fun n hn _ => by
        show s.next_page + _ ≤ _
        omega⟩
  | succ i ih =>
      obtain ⟨g, hg⟩ := ih (Nat.le_of_succ_le hcount)
      have hstep := h.mapIdent_step hat hnext hvacant hcount hg
      rwa [← (largePage_address hat hcount).1, ← mapIdent_succ] at hstep

end Kernel

end Cyanea.Mm
