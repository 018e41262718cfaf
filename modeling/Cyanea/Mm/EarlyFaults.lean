/-
# Page faults during boot

Once the kernel runs where it is linked, the mapping at its load address is purged and the
pages of the pool are free again, all but page 0. From then on a page fault in the direct
mapping makes `do_early_map` enter the large page that the address lies in, and take a page of
the pool for its table if there is none. However many faults there are, what has been mapped
stays mapped and no page becomes two tables.
-/

import Cyanea.Mm.LoadAddress

namespace Cyanea.Mm

open X86

namespace Kernel

variable {k : Kernel} {load a i p : ℕ} {s s' : EarlyTables} {f g : Forest} {touched : Set ℕ}

/-! ## Between two faults -/

/-- Page 0 of the pool translates the direct mapping by tables only; it is never taken again. -/
structure Faulting (k : Kernel) (load : ℕ) (s : EarlyTables) (f : Forest) : Prop extends
    k.Built load s f where
  kernel : k.KernelMapped load s
  next_pos : 0 < s.next_page
  direct : ∀ i < 510, s.mem (k.frame load (k.earlyPage 0)) i = 0 ∨
    ∃ c, entry 2 (s.mem (k.frame load (k.earlyPage 0)) i) = .table c

theorem Built.physAddr_eq (h : k.Built load s f) (hat : k.LoadedAt load) (hp : p ∈ k.pages) :
    physAddr s.phys_base p = k.frame load p := by
  obtain ⟨hfrom, hto⟩ := k.inside p hp
  have hsize : PAGE_SIZE = 4096 := rfl
  rw [h.phys_base, Kernel.physAddr_eq hat hfrom (by omega)]

/-- A page of the image is found again behind its physical address. -/
theorem Built.vaSymbol_eq (h : k.Built load s f) (hat : k.LoadedAt load) (hp : p ∈ k.pages) :
    vaSymbol s (k.frame load p) = p := by
  obtain ⟨htext, -, hend, -⟩ := k.image_bounds
  obtain ⟨hfrom, hto⟩ := k.inside p hp
  have hcanonical := hat.canonical
  have hsize : PAGE_SIZE = 4096 := rfl
  rw [vaSymbol, h.phys_base, physAddrKernel, frame, START_KERNEL_map_eq, sub64_eq htext (by omega),
    add64, sub64, sub64]
  omega

theorem Built.paSymbol_eq (h : k.Built load s f) (hat : k.LoadedAt load) (hp : p ∈ k.pages) :
    paSymbol s p = k.frame load p := by
  obtain ⟨htext, -, hend, -⟩ := k.image_bounds
  obtain ⟨hfrom, hto⟩ := k.inside p hp
  have hcanonical := hat.canonical
  have hsize : PAGE_SIZE = 4096 := rfl
  rw [paSymbol, h.phys_base, physAddrKernel, physAddrKernel, frame, START_KERNEL_map_eq,
    sub64_eq htext (by omega), sub64_eq (htext.trans hfrom) (by omega), add64, sub64]
  omega

/-! ## The purge -/

theorem Built.purge_mem (h : k.Built load s f) (hat : k.LoadedAt load) :
    (k.purgeIdentMapping s).mem = Function.update s.mem (k.frame load k.early_top_pgt) fun i =>
      if i < 511 then 0 else s.mem (k.frame load k.early_top_pgt) i := by
  rw [purgeIdentMapping]
  dsimp only
  rw [h.physAddr_eq hat (k.statics_subset List.mem_cons_self)]
  rfl

/-- The purge leaves the tables behind the last entry of the root; the pool's other pages are
free. -/
theorem Started.purged (h : k.Started load s f) (hat : k.LoadedAt load) :
    ∃ g, k.Faulting load (k.purgeIdentMapping s) g := by
  have hroot := h.building.root
  have hmem := h.building.purge_mem hat
  have hother : ∀ {p}, p ∈ k.pages → p ≠ k.early_top_pgt → ∀ i,
      (k.purgeIdentMapping s).mem (k.frame load p) i = s.mem (k.frame load p) i := by
    intro p hp hne i
    rw [hmem, Function.update_of_ne]
    exact fun heq => hne (frame_inj hp (k.statics_subset List.mem_cons_self) heq)
  have hlast : (k.purgeIdentMapping s).mem (k.frame load k.early_top_pgt) 511 =
      s.mem (k.frame load k.early_top_pgt) 511 := by
    rw [hmem, Function.update_self, if_neg (by decide)]
  have hpool : k.earlyPage 0 ≠ k.early_top_pgt :=
    (statics_ne (k := k) List.mem_cons_self (by decide)).symm
  have hkernel : k.level2_kernel_pgt ≠ k.early_top_pgt := fun heq =>
    (List.nodup_cons.mp k.statics_nodup).1 (heq ▸ List.mem_cons_self)
  refine ⟨f.clear hroot 511, ⟨?_, h.building.phys_base, Forest.place_clear_root hroot 511, ?_, ?_,
    ?_, ?_⟩, ⟨?_, ?_, ?_⟩, Nat.one_pos, ?_⟩
  · rw [hmem, ← h.building.mem]
    rfl
  · exact fun hplace => h.building.image (Forest.of_place_clear hroot hplace).1
  · intro j hle hlt
    cases hplace : (f.clear hroot 511).place (k.frame load (k.earlyPage j)) with
    | none => rfl
    | some p =>
        obtain ⟨level, q⟩ := p
        obtain ⟨hplace, hkept⟩ := Forest.of_place_clear hroot hplace
        obtain ⟨x, hx, rfl⟩ := h.pool (Nat.lt_of_succ_le hle) hlt hplace
        have hfirst := hkept fun heq => statics_ne (k := k) List.mem_cons_self hlt
          (frame_inj (earlyPage_mem hlt) (k.statics_subset List.mem_cons_self) heq).symm
        obtain hlevel | rfl := Nat.lt_succ_iff_lt_or_eq.mp (Nat.lt_succ_of_le (f.level_le hplace))
        · rw [Forest.rootEntry_block (Nat.le_of_lt_succ hlevel), block,
            show pageShift 3 = 39 from rfl] at hfirst
          omega
        · rw [block_four] at hfirst
          exact absurd hfirst (by decide)
  · intro b level q i hplace hi
    obtain ⟨hplace, -⟩ := Forest.of_place_clear hroot hplace
    have hused := h.building.used hplace hi
    by_cases hb : b = k.frame load k.early_top_pgt ∧ i < 511
    · rw [hmem, hb.1, Function.update_self, if_pos hb.2]
      exact .inl rfl
    · have hsame : (k.purgeIdentMapping s).mem b i = s.mem b i := by
        rw [hmem]
        by_cases hb' : b = k.frame load k.early_top_pgt
        · rw [hb', Function.update_self, if_neg fun hi => hb ⟨hb', hi⟩]
        · rw [Function.update_of_ne hb']
      rwa [hsame]
  · exact fun hplace => h.building.shallow (Forest.of_place_clear hroot hplace).1
  · rw [hlast, h.kernel.top]
  · rw [hother k.earlyPage_zero_mem hpool, h.kernel.pud]
  · intro j hj
    rw [hother (k.statics_subset (by simp [statics])) hkernel, h.kernel.entries j hj]
  · intro i hi
    rw [hother k.earlyPage_zero_mem hpool]
    exact .inl (h.pool_empty i hi)

/-! ## One fault -/

theorem direct_bounds (ha : InDirectMap a) :
    index 3 a = 511 ∧ block 3 a = 511 ∧ index 2 a < 510 ∧ Canonical a := by
  obtain ⟨hlow, hhigh⟩ := ha
  rw [PAGE_OFFSET_eq] at hlow
  rw [START_KERNEL_map_eq] at hhigh
  rw [index, index, block, Canonical, show pageShift 3 = 39 from rfl,
    show pageShift 2 = 30 from rfl]
  omega

/-- The table that an entry of page 0 points to is on the walk. -/
theorem Faulting.tableAt (h : k.Faulting load s f) (ha : InDirectMap a) {c : ℕ}
    (hentry : entry 2 (s.mem (k.frame load (k.earlyPage 0)) (index 2 a)) = .table c) :
    tableAt s.mem 1 3 (k.frame load k.early_top_pgt) a = some c ∧ f.Over c 1 a := by
  obtain ⟨hindex, hblock, -, -⟩ := direct_bounds ha
  have htop : entry 3 (s.mem (k.frame load k.early_top_pgt) (index 3 a)) =
      .table (k.frame load (k.earlyPage 0)) := by
    rw [hindex, h.kernel.top]
  have htable : X86.tableAt s.mem 1 3 (k.frame load k.early_top_pgt) a = some c := by
    rw [tableAt_of_table (by decide) htop, tableAt_of_table (by decide) hentry, tableAt_self]
  exact ⟨htable, (h.over_root a).tableAt (h.mem.symm ▸ htable)⟩

/-- An address that is not translated has no entry in its table. -/
theorem Faulting.zero_of_none (h : k.Faulting load s f) (haligned : PMD_SIZE ∣ load)
    (ha : InDirectMap a) (hnone : translate s.mem 3 (k.frame load k.early_top_pgt) a = none) {c : ℕ}
    (hentry : entry 2 (s.mem (k.frame load (k.earlyPage 0)) (index 2 a)) = .table c) :
    s.mem c (index 1 a) = 0 := by
  obtain ⟨-, hblock, hindex, -⟩ := direct_bounds ha
  obtain ⟨htable, hover⟩ := h.tableAt ha hentry
  rw [translate_of_tableAt htable] at hnone
  obtain hzero | ⟨-, hsound⟩ := h.used hover (index_lt 1 a)
  · exact hzero
  · cases hpage : entry 1 (s.mem c (index 1 a)) with
    | absent => exact absurd hpage (hsound haligned)
    | page frame =>
        rw [translate_page hpage] at hnone
        cases hnone
    | table d =>
        -- tables of 4 KiB pages are those of the fixmap only
        have hplace := hover.child (h.mem.symm ▸ hpage)
        have hshallow := h.shallow hplace
        rw [index_eq (by decide), block_succ 1] at hindex
        exact absurd hshallow hindex.not_ge

/-- The large page that shows an address of the direct mapping. -/
theorem direct_large (ha : InDirectMap a) : ∃ q, sub64 a PAGE_OFFSET &&& PMD_MASK = 2 ^ 21 * q ∧
    2 ^ 21 * q < 2 ^ 39 ∧ 2 ^ 21 * q + a % 2 ^ 21 = a - PAGE_OFFSET := by
  obtain ⟨hlow, hhigh⟩ := ha
  rw [PAGE_OFFSET_eq] at hlow ⊢
  rw [START_KERNEL_map_eq] at hhigh
  rw [sub64_eq hlow (by omega), PMD_MASK, PMD_SIZE_eq, and_not64_eq (by omega) (by decide)]
  exact ⟨_, rfl, by omega, by omega⟩

/-- The page is entered into a table that is there. -/
theorem Faulting.mapLarge (h : k.Faulting load s f) (hat : k.LoadedAt load) (ha : InDirectMap a)
    (hp : p ∈ k.pages)
    (hentry : entry 2 (s.mem (k.frame load (k.earlyPage 0)) (index 2 a)) = .table (k.frame load p))
    (hzero : s.mem (k.frame load p) (index 1 a) = 0) :
    ∃ g, k.Faulting load (Kernel.mapLarge p a s) g ∧ f.Extends {x | block 1 x = block 1 a} g ∧
      translate (Kernel.mapLarge p a s).mem 3 (k.frame load k.early_top_pgt) a =
        some (a - PAGE_OFFSET) := by
  obtain ⟨htable, hover⟩ := h.tableAt ha hentry
  obtain ⟨q, hpage, hlt, hoffset⟩ := direct_large ha
  rw [Kernel.mapLarge, h.physAddr_eq hat hp, pmdIndex_eq, hpage]
  have hleaf : Leaf load 1 (2 ^ 21 * q ||| PAGE_KERNEL_LARGE_NO_GLOBAL) :=
    leaf_large ((Nat.pow_dvd_pow 2 (by decide)).mul_right q) (hlt.trans (by decide))
      (fun _ => Nat.dvd_mul_right _ q) (by decide) (by decide) (by decide)
  have hblock := block_eq (f.level_le hover) a
  have htouched : ∀ {y}, block 1 y = 512 * block 2 a + index 1 a →
      ∃ x ∈ {x | block 1 x = block 1 a}, x % 2 ^ 48 = y % 2 ^ 48 :=
    fun {y} hy => ⟨y, hy.trans hblock.symm, rfl⟩
  obtain ⟨g, hg, hext, -⟩ := h.toBuilt.page hover hzero hleaf htouched
  -- page 0 is another table
  have hne : k.frame load (k.earlyPage 0) ≠ k.frame load p := by
    intro heq
    have hpool := (h.kernel.places h.toBuilt).1
    rw [heq] at hpool
    cases (Option.some.inj (hpool.symm.trans hover))
  refine ⟨g, ⟨hg, h.kernel.extends hat h.toBuilt hg hext, h.next_pos, fun i hi => ?_⟩, hext, ?_⟩
  · rw [EarlyTables.store_of_ne fun heq => hne heq.1]
    exact h.direct i hi
  · have htable' := hext.tableAt (h.over_root a) (h.mem.symm ▸ htable)
    rw [hg.mem] at htable'
    rw [translate_of_tableAt htable', translate_page (by
      rw [EarlyTables.store_self]
      exact entry_large_page (Nat.dvd_mul_right _ q) (hlt.trans (by decide)) (by decide) (by decide)
        (by decide)), show pageShift 1 = 21 from rfl, hoffset]

/-- `get_free_zero_page` gives the next page of the pool, which becomes a table. -/
theorem Faulting.newTable (h : k.Faulting load s f) (hat : k.LoadedAt load) (ha : InDirectMap a)
    (hpage : s.next_page < EARLY_FREE_PAGES)
    (hpud : s.mem (k.frame load (k.earlyPage 0)) (index 2 a) = 0) {page : ℕ}
    (heq : k.frame load (k.earlyPage s.next_page) = page) :
    k.frame load (k.earlyPage 0) ≠ page ∧ ∃ g, k.Faulting load
      ((({ s with next_page := s.next_page + 1 } : EarlyTables).clear page).store
        (k.frame load (k.earlyPage 0)) (index 2 a) (page ||| KERNPG_TABLE)) g ∧
      f.Extends {x | block 1 x = block 1 a} g := by
  subst heq
  obtain ⟨-, hblock, -, -⟩ := direct_bounds ha
  have hpool := (h.kernel.places h.toBuilt).1
  have hnew := h.free (Nat.le_refl _) hpage
  have hs : k.Built load { s with next_page := s.next_page + 1 } f :=
    { h.toBuilt with free := fun hle hlt => h.free (Nat.le_of_succ_le hle) hlt }
  have hkernel : k.KernelMapped load { s with next_page := s.next_page + 1 } :=
    ⟨h.kernel.top, h.kernel.pud, h.kernel.entries⟩
  have hne := Forest.ne_of_placed hnew hpool
  have htouched : ∃ x ∈ {x | block 1 x = block 1 a}, block 2 x = 512 * 511 + index 2 a :=
    ⟨a, rfl, hblock ▸ block_eq (by decide) a⟩
  obtain ⟨g, hg, hext, -, -⟩ := hs.newTable hat (earlyPage_mem hpage)
    (fun hle _ heq => absurd (earlyPage_inj heq) (Nat.ne_of_lt hle)) hpool (index_lt 2 a)
    (fun hl => absurd hl (by decide)) hnew hpud htouched
  refine ⟨hne, g, ⟨hg, hkernel.extends hat hs hg hext, Nat.succ_pos _, fun i hi => ?_⟩, hext⟩
  by_cases hia : i = index 2 a
  · rw [hia, EarlyTables.store_self]
    exact .inr ⟨_, entry_frame hat (earlyPage_mem hpage) 1⟩
  · rw [EarlyTables.store_of_ne fun heq => hia heq.2, EarlyTables.clear_of_ne hne]
    exact h.direct i hi

/-- The root's last entry leads to page 0, so that only the entry of page 0 decides. -/
theorem Faulting.doEarlyMap_eq (h : k.Faulting load s f) (hat : k.LoadedAt load)
    (ha : InDirectMap a) : k.doEarlyMap a s =
      if s.mem (k.frame load (k.earlyPage 0)) (index 2 a) ≠ 0 then
        some (true, Kernel.mapLarge
          (vaSymbol s (s.mem (k.frame load (k.earlyPage 0)) (index 2 a) &&& PG_PFN_MASK)) a s)
      else
        match k.getFreeZeroPage s with
        | none => some (false, s)
        | some (pmd, s) => some (true, Kernel.mapLarge pmd a
            (s.store (physAddr s.phys_base (k.earlyPage 0)) (index 2 a)
              (paSymbol s pmd ||| KERNPG_TABLE))) := by
  obtain ⟨hindex, -, -, -⟩ := direct_bounds ha
  have hpresent := of_entry_table h.kernel.top
  have hne : s.mem (k.frame load k.early_top_pgt) 511 ≠ 0 := by
    intro hzero
    rw [hzero, Nat.zero_testBit] at hpresent
    cases hpresent.1
  rw [Kernel.doEarlyMap, h.physAddr_eq hat (k.statics_subset List.mem_cons_self), pgdIndex_eq,
    pudIndex_eq, hindex]
  dsimp only
  have hbase := h.physAddr_eq hat k.earlyPage_zero_mem
  rw [if_neg hne, and_PG_PFN_MASK, ← hpresent.2.2, h.vaSymbol_eq hat k.earlyPage_zero_mem]
  generalize physAddr s.phys_base (k.earlyPage 0) = page at hbase ⊢
  subst hbase
  rfl

/-- What a call of `do_early_map` has done. -/
structure Handled (k : Kernel) (load : ℕ) (s : EarlyTables) (f : Forest) (a : ℕ) (result : Bool)
    (s' : EarlyTables) : Prop where
  maps : result = true → k.walk s' a = some (a - PAGE_OFFSET) ∧
    ∃ g, k.Faulting load s' g ∧ f.Extends {x | block 1 x = block 1 a} g
  fails : result = false → s' = s

theorem Faulting.walk_eq (h : k.Faulting load s f) (hat : k.LoadedAt load) (ha : InDirectMap a) :
    k.walk s a = translate s.mem 3 (k.frame load k.early_top_pgt) a := by
  rw [h.toBuilt.walk_eq hat, X86.walk, if_pos (direct_bounds ha).2.2.2]

theorem Faulting.handled (h : k.Faulting load s f) (hat : k.LoadedAt load)
    (haligned : PMD_SIZE ∣ load) (ha : InDirectMap a) (hnone : k.walk s a = none) :
    ∃ result s', k.doEarlyMap a s = some (result, s') ∧ k.Handled load s f a result s' := by
  obtain ⟨-, hblock, hindex, -⟩ := direct_bounds ha
  rw [h.walk_eq hat ha] at hnone
  rw [h.doEarlyMap_eq hat ha]
  by_cases hpud : s.mem (k.frame load (k.earlyPage 0)) (index 2 a) = 0
  · rw [if_neg (not_not.mpr hpud), getFreeZeroPage]
    by_cases hpage : s.next_page < EARLY_FREE_PAGES
    · rw [if_pos hpage]
      dsimp only
      have hp := earlyPage_mem (k := k) hpage
      have hphys : physAddr s.phys_base (k.earlyPage s.next_page) =
        k.frame load (k.earlyPage s.next_page) := h.physAddr_eq hat hp
      rw [hphys]
      obtain ⟨hne, g, hg, hext⟩ := h.newTable hat ha hpage hpud rfl
      generalize hs₁ : ({ s with next_page := s.next_page + 1 } : EarlyTables).clear
        (k.frame load (k.earlyPage s.next_page)) = s₁ at hg ⊢
      have hbase : s₁.phys_base = s.phys_base := hs₁ ▸ rfl
      have hpa : paSymbol s₁ (k.earlyPage s.next_page) = k.frame load (k.earlyPage s.next_page) := by
        rw [paSymbol, hbase]
        exact h.paSymbol_eq hat hp
      rw [hpa, hbase, h.physAddr_eq hat k.earlyPage_zero_mem]
      have hentry : entry 2 ((s₁.store (k.frame load (k.earlyPage 0)) (index 2 a)
          (k.frame load (k.earlyPage s.next_page) ||| KERNPG_TABLE)).mem
            (k.frame load (k.earlyPage 0)) (index 2 a)) =
          .table (k.frame load (k.earlyPage s.next_page)) := by
        rw [EarlyTables.store_self, entry_frame hat hp]
      obtain ⟨g', hg', hext', hmaps⟩ := hg.mapLarge hat ha hp hentry (by
        rw [EarlyTables.store_of_ne fun heq => hne heq.1.symm, ← hs₁, EarlyTables.clear_self])
      exact ⟨true, _, rfl, fun _ => ⟨(hg'.walk_eq hat ha).trans hmaps, g', hg', hext.trans hext'⟩,
        nofun⟩
    · rw [if_neg hpage]
      exact ⟨false, s, rfl, nofun, fun _ => rfl⟩
  · obtain ⟨c, hc⟩ := (h.direct _ hindex).resolve_left hpud
    have hover := (h.tableAt ha hc).2
    obtain ⟨p, hp, rfl⟩ := h.image hover
    rw [if_pos hpud, and_PG_PFN_MASK, ← (of_entry_table hc).2.2, h.vaSymbol_eq hat hp]
    obtain ⟨g, hg, hext, hmaps⟩ := h.mapLarge hat ha hp hc (h.zero_of_none haligned ha hnone hc)
    exact ⟨true, _, rfl, fun _ => ⟨(hg.walk_eq hat ha).trans hmaps, g, hg, hext⟩, nofun⟩

/-! ## Every sequence of faults -/

/-- The states that page faults in the direct mapping lead to, each at an address that is not
translated. -/
inductive Faults (k : Kernel) (s₀ : EarlyTables) : EarlyTables → Prop
  | start : Faults k s₀ s₀
  | fault {s s' : EarlyTables} {a : ℕ} {result : Bool} : Faults k s₀ s → InDirectMap a →
      k.walk s a = none → k.doEarlyMap a s = some (result, s') → Faults k s₀ s'

theorem Faults.faulting {s₀ : EarlyTables} (h : k.Faults s₀ s) (hat : k.LoadedAt load)
    (haligned : PMD_SIZE ∣ load) (hstart : ∃ f, k.Faulting load s₀ f) :
    ∃ f, k.Faulting load s f := by
  induction h with
  | start => exact hstart
  | @fault s s' a result _ ha hnone hrun ih =>
      obtain ⟨f, hf⟩ := ih
      obtain ⟨_, _, hrun', hhandled⟩ := hf.handled hat haligned ha hnone
      obtain ⟨rfl, rfl⟩ := Prod.mk.inj (Option.some.inj (hrun.symm.trans hrun'))
      cases result with
      | true =>
          obtain ⟨-, g, hg, -⟩ := hhandled.maps rfl
          exact ⟨g, hg⟩
      | false =>
          rw [hhandled.fails rfl]
          exact ⟨f, hf⟩

/-- The image is mapped, no frame is two tables, and the next fault is served: its address is
mapped and nothing else changes, or the pool is empty and nothing changes at all. -/
structure Serves (k : Kernel) (load : ℕ) (s : EarlyTables) : Prop where
  image : ∀ o < k.kernelEnd - k.text, k.walk s (k.text + o) = some (load + o)
  exclusive : Exclusive s.mem (physAddr s.phys_base k.early_top_pgt)
  fault : ∀ a, InDirectMap a → k.walk s a = none →
    ∃ result s', k.doEarlyMap a s = some (result, s') ∧
      (result = true → k.walk s' a = some (a - PAGE_OFFSET) ∧
        ∀ x p, k.walk s x = some p → k.walk s' x = some p) ∧
      (result = false → s' = s)

theorem Faulting.serves (h : k.Faulting load s f) (hat : k.LoadedAt load)
    (haligned : PMD_SIZE ∣ load) : k.Serves load s := by
  obtain ⟨htext, hlt, hend, -⟩ := k.image_bounds
  refine ⟨fun o ho => ?_, ?_, fun a ha hnone => ?_⟩
  · rw [h.toBuilt.walk_eq hat, X86.walk, if_pos (.inr (by omega)),
      h.kernel.translate hat haligned (by omega) (by omega), frame, Nat.add_sub_cancel_left]
  · rw [h.physAddr_eq hat (k.statics_subset List.mem_cons_self), ← h.mem]
    exact Forest.exclusive h.root
  · obtain ⟨result, s', hrun, hhandled⟩ := h.handled hat haligned ha hnone
    refine ⟨result, s', hrun, fun hresult => ?_, hhandled.fails⟩
    obtain ⟨hmaps, g, hg, hext⟩ := hhandled.maps hresult
    refine ⟨hmaps, fun x p hx => ?_⟩
    rw [h.toBuilt.walk_eq hat, X86.walk] at hx
    obtain ⟨hcanonical, hx⟩ := Option.ite_none_right_eq_some.mp hx
    rw [hg.toBuilt.walk_eq hat, X86.walk, if_pos hcanonical, ← hg.mem]
    exact hext.translate (h.over_root x) (h.mem.symm ▸ hx)

/-- From what `__startup_64` and the purge have left, every sequence of faults is served. -/
theorem faults_serve {s₀ s₁ : EarlyTables} (h : k.Loaded load s₀) (hat : k.LoadedAt load)
    (haligned : PMD_SIZE ∣ load) (hrun : k.startup64 load s₀ = some s₁)
    (hfaults : k.Faults (k.purgeIdentMapping s₁) s) : k.Serves load s := by
  obtain ⟨f, hf⟩ := h.started hat hrun
  obtain ⟨g, hg⟩ := hfaults.faulting hat haligned (hf.purged hat)
  exact hg.serves hat haligned

/-- Behind a fault at the first address of the direct mapping, which is served. -/
theorem faults_serve_smallKernel : ∃ s₁ s₂,
    smallKernel.startup64 0x1000000 blankTables = some s₁ ∧
      smallKernel.doEarlyMap PAGE_OFFSET (smallKernel.purgeIdentMapping s₁) = some (true, s₂) ∧
        smallKernel.Serves 0x1000000 s₂ := by
  have hrun : smallKernel.startup64 0x1000000 blankTables = _ :=
    startup64_some smallKernel (by decide) blankTables
  generalize hs₁ : smallKernel.mapIdent _ _ _ _ = s₁ at hrun
  have hnone : smallKernel.walk (smallKernel.purgeIdentMapping s₁) PAGE_OFFSET = none := by
    rw [← hs₁]
    decide +kernel
  have hserved : (smallKernel.doEarlyMap PAGE_OFFSET (smallKernel.purgeIdentMapping s₁)).map
      Prod.fst = some true := by
    rw [← hs₁]
    decide +kernel
  obtain ⟨⟨result, s₂⟩, hmap, rfl⟩ := Option.map_eq_some_iff.mp hserved
  exact ⟨s₁, s₂, hrun, hmap, faults_serve (loaded_blankTables _ _) ⟨by decide, by decide⟩
    (by decide) hrun (.fault .start (by decide) hnone hmap)⟩

end Kernel

end Cyanea.Mm
