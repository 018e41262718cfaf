/-
# What the early code writes to

`__startup_64`, the purge and `do_early_map` follow the entries of the tables to where they
write. That this ends at the pages that the image has for its tables, and at none besides, rests on
what the tables point to: the place of every table is a page of the image. So the rest of the image
is as the loader has left it, the tables among it that are used later included.
-/

import Cyanea.Mm.EarlyFaults

namespace Cyanea.Mm

open X86

theorem EarlyTables.mem_store_of_ne {s : EarlyTables} {table i e d : ℕ} (hd : d ≠ table) :
    (s.store table i e).mem d = s.mem d :=
  funext fun _ => store_of_ne fun heq => hd heq.1

namespace Kernel

variable {k : Kernel} {load a d : ℕ} {s s' : EarlyTables} {f g : Forest}

/-- The page is none of those that are tables, or may become tables. -/
def Foreign (k : Kernel) (load d : ℕ) : Prop := ∀ p ∈ k.pages, d ≠ k.frame load p

theorem Foreign.ne_of_placed (hd : k.Foreign load d) (h : k.Built load s f) {b : ℕ} {x : ℕ × ℕ}
    (hplace : f.place b = some x) : d ≠ b := by
  obtain ⟨p, hp, rfl⟩ := h.image hplace
  exact hd p hp

/-! ## Building the tables -/

theorem tableOf_others {table i : ℕ} (hd : d ≠ table) :
    (k.tableOf load table i s).2.mem d = s.mem d := by
  rw [tableOf]
  split
  · rfl
  · exact EarlyTables.mem_store_of_ne hd

theorem Building.identMap_others (h : k.Building load s f) (hat : k.LoadedAt load)
    (hpage : s.next_page + 2 ≤ EARLY_FREE_PAGES)
    (hvacant : Vacant s.mem 1 3 (k.frame load k.early_top_pgt) a) (hd : k.Foreign load d) :
    (k.identMap (k.frame load k.early_top_pgt) a load s).mem d = s.mem d := by
  have hself : a ∈ {x | block 1 x = block 1 a} := rfl
  obtain ⟨g₁, hg₁⟩ := h.tableOf hat (by decide) (h.over_root a) hvacant (by decide)
    (show s.next_page < EARLY_FREE_PAGES by omega) hself
  have hfirst : (k.tableOf load _ (index 3 a) s).2.mem d = s.mem d :=
    tableOf_others (hd.ne_of_placed h.toBuilt h.root)
  rw [Kernel.identMap, pgdIndex_eq, pudIndex_eq, pmdIndex_eq]
  generalize k.tableOf load (k.frame load k.early_top_pgt) (index 3 a) s = r₁ at hg₁ hfirst ⊢
  obtain ⟨c₁, s₁⟩ := r₁
  have hnext : s₁.next_page ≤ s.next_page + 1 := hg₁.next_le
  obtain ⟨g₂, hg₂⟩ := hg₁.building.tableOf hat (by decide) hg₁.reaches hg₁.vacant (by decide)
    (show s₁.next_page < EARLY_FREE_PAGES by omega) hself
  have hsecond : (k.tableOf load c₁ (index 2 a) s₁).2.mem d = s₁.mem d :=
    tableOf_others (hd.ne_of_placed hg₁.building.toBuilt hg₁.reaches)
  dsimp only
  generalize k.tableOf load c₁ (index 2 a) s₁ = r₂ at hg₂ hsecond ⊢
  obtain ⟨c₂, s₂⟩ := r₂
  have hne := hd.ne_of_placed hg₂.building.toBuilt hg₂.reaches
  exact (EarlyTables.mem_store_of_ne hne).trans (hsecond.trans hfirst)

/-- There is a vacant entry and there are pages for the next large page of the image. -/
theorem IdentLoop.ready (h : k.Building load s f) (hat : k.LoadedAt load) (hnext : s.next_page = 1)
    (hvacant : ∀ j < k.largePages,
      Vacant s.mem 1 3 (k.frame load k.early_top_pgt) (load + j * 2 ^ 21)) {i : ℕ}
    (hi : i < k.largePages) (hg : IdentLoop k load s f i s' g) :
    s'.next_page + 2 ≤ EARLY_FREE_PAGES ∧
      Vacant s'.mem 1 3 (k.frame load k.early_top_pgt) (load + i * 2 ^ 21) := by
  obtain ⟨-, hlt⟩ := largePage_address hat hi
  obtain ⟨htext, -, hend, -⟩ := k.image_bounds
  have hstart := largePage_lt hi
  have hfree : EARLY_FREE_PAGES = 64 := rfl
  constructor
  · have hbound := hg.next_le (block 2 load + 2) (by omega) fun j hj => by
      rw [block, block, show pageShift 2 = 30 from rfl]
      omega
    omega
  · rw [← hg.building.mem]
    refine hg.grows.vacant (h.over_root _) ?_ (h.mem ▸ hvacant i hi)
    rintro x ⟨j, hj, hx⟩ hxi
    exact largePage_block_ne hat hj hi (hx.symm.trans hxi)

theorem Building.mapIdent_others (h : k.Building load s f) (hat : k.LoadedAt load)
    (hnext : s.next_page = 1)
    (hvacant : ∀ j < k.largePages,
      Vacant s.mem 1 3 (k.frame load k.early_top_pgt) (load + j * 2 ^ 21))
    (hd : k.Foreign load d) {count : ℕ} (hcount : count ≤ k.largePages) :
    (k.mapIdent (k.frame load k.early_top_pgt) load count s).mem d = s.mem d := by
  induction count with
  | zero => rfl
  | succ i ih =>
      obtain ⟨g, hg⟩ := h.mapIdent hat hnext hvacant (Nat.le_of_succ_le hcount)
      obtain ⟨hpage, hstill⟩ := hg.ready h hat hnext hvacant hcount
      rw [mapIdent_succ, (largePage_address hat hcount).1,
        hg.building.identMap_others hat hpage hstill hd, ih (Nat.le_of_succ_le hcount)]

theorem mapKernel_others {pmd count : ℕ} (hd : d ≠ pmd) :
    (k.mapKernel pmd load count s).mem d = s.mem d := by
  induction count with
  | zero => rfl
  | succ i ih =>
      rw [mapKernel_succ, EarlyTables.mem_store_of_ne hd, ih]

theorem kernelTables_others (hat : k.LoadedAt load) (hnext : s.next_page = 0)
    (hd : k.Foreign load d) : (k.kernelTables load s).mem d = s.mem d := by
  have hstatic : ∀ p ∈ k.statics, d ≠ k.frame load p := fun p hp => hd p (k.statics_subset hp)
  have hfixmap := hstatic k.level2_fixmap_pgt (by simp [statics])
  have hlinked : (k.linkTables load s).mem d = s.mem d :=
    funext fun j => linkTables_of_ne (hstatic _ List.mem_cons_self) (hd _ k.earlyPage_zero_mem) j
  rw [kernelTables_eq k hat hnext, EarlyTables.mem_store_of_ne hfixmap,
    EarlyTables.mem_store_of_ne hfixmap,
    mapKernel_others (hstatic k.level2_kernel_pgt (by simp [statics])), hlinked]

/-- Nothing is mapped yet where the image has been loaded. -/
theorem Linked.vacant_ident (h : k.Linked load s f) (hat : k.LoadedAt load) :
    ∀ j < k.largePages,
      Vacant s.mem 1 3 (k.frame load k.early_top_pgt) (load + j * 2 ^ 21) := by
  intro j hj
  refine (h.vacant _ ?_).mono (by decide)
  have hlt := (largePage_address hat hj).2
  rw [block, show pageShift 3 = 39 from rfl]
  omega

theorem Loaded.startup64_others (h : k.Loaded load s) (hat : k.LoadedAt load)
    (hrun : k.startup64 load s = some s') (hd : k.Foreign load d) : s'.mem d = s.mem d := by
  rw [startup64_eq, ripRel_eq hat (k.statics_subset List.mem_cons_self)] at hrun
  obtain ⟨-, hrun⟩ := Option.ite_none_left_eq_some.mp hrun
  obtain rfl := Option.some.inj hrun
  obtain ⟨f, hf⟩ := h.linked hat
  rw [hf.building.mapIdent_others hat hf.next_eq (hf.vacant_ident hat) hd (Nat.le_refl _),
    kernelTables_others hat h.next_page hd]

/-! ## Page faults -/

theorem Built.purge_others (h : k.Built load s f) (hat : k.LoadedAt load) (hd : k.Foreign load d) :
    (k.purgeIdentMapping s).mem d = s.mem d := by
  rw [h.purge_mem hat, Function.update_of_ne (hd.ne_of_placed h h.root)]

theorem mapLarge_others {pmd : ℕ} (hd : d ≠ physAddr s.phys_base pmd) :
    (mapLarge pmd a s).mem d = s.mem d :=
  EarlyTables.mem_store_of_ne hd

theorem Faulting.doEarlyMap_others (h : k.Faulting load s f) (hat : k.LoadedAt load)
    (ha : InDirectMap a) {result : Bool} (hrun : k.doEarlyMap a s = some (result, s'))
    (hd : k.Foreign load d) : s'.mem d = s.mem d := by
  obtain ⟨-, -, hindex, -⟩ := direct_bounds ha
  rw [h.doEarlyMap_eq hat ha] at hrun
  split at hrun
  · rename_i hpud
    obtain ⟨c, hc⟩ := (h.direct _ hindex).resolve_left hpud
    obtain ⟨p, hp, rfl⟩ := h.image (h.tableAt ha hc).2
    rw [and_PG_PFN_MASK, ← (of_entry_table hc).2.2, h.vaSymbol_eq hat hp] at hrun
    obtain ⟨-, rfl⟩ := Prod.mk.inj (Option.some.inj hrun)
    exact mapLarge_others (h.physAddr_eq hat hp ▸ hd p hp)
  · rw [getFreeZeroPage] at hrun
    by_cases hpage : s.next_page < EARLY_FREE_PAGES
    · have hp := earlyPage_mem (k := k) hpage
      have hfree : physAddr s.phys_base (k.earlyPage s.next_page) =
          k.frame load (k.earlyPage s.next_page) := h.physAddr_eq hat hp
      rw [if_pos hpage] at hrun
      dsimp only at hrun
      obtain ⟨-, rfl⟩ := Prod.mk.inj (Option.some.inj hrun)
      have hpage0 := hd _ k.earlyPage_zero_mem
      rw [← h.physAddr_eq hat k.earlyPage_zero_mem] at hpage0
      have hnew : d ≠ physAddr s.phys_base (k.earlyPage s.next_page) := hfree ▸ hd _ hp
      rw [mapLarge_others, EarlyTables.mem_store_of_ne, EarlyTables.clear_of_ne hnew]
      · exact hpage0
      · exact hnew
    · rw [if_neg hpage] at hrun
      obtain ⟨-, rfl⟩ := Prod.mk.inj (Option.some.inj hrun)
      rfl

theorem Faults.others {s₀ : EarlyTables} (h : k.Faults s₀ s) (hat : k.LoadedAt load)
    (haligned : PMD_SIZE ∣ load) (hstart : ∃ f, k.Faulting load s₀ f) (hd : k.Foreign load d) :
    s.mem d = s₀.mem d := by
  induction h with
  | start => rfl
  | fault hbefore ha _ hrun ih =>
      obtain ⟨f, hf⟩ := hbefore.faulting hat haligned hstart
      rw [hf.doEarlyMap_others hat ha hrun hd, ih]

/-- From the first instruction on, whatever faults there are, only pages for tables are
written to. -/
theorem faults_others {s₀ s₁ : EarlyTables} (h : k.Loaded load s₀) (hat : k.LoadedAt load)
    (haligned : PMD_SIZE ∣ load) (hrun : k.startup64 load s₀ = some s₁)
    (hfaults : k.Faults (k.purgeIdentMapping s₁) s) (hd : k.Foreign load d) :
    s.mem d = s₀.mem d := by
  obtain ⟨f, hf⟩ := h.started hat hrun
  rw [hfaults.others hat haligned (hf.purged hat) hd, hf.building.purge_others hat hd,
    h.startup64_others hat hrun hd]

/-! ## The table of the fixmap -/

/-- Page 0 of the pool points to the table of the fixmap. -/
def LinksFixmap (k : Kernel) (load : ℕ) (s : EarlyTables) : Prop :=
  entry 2 (s.mem (k.frame load (k.earlyPage 0)) 511) = .table (k.frame load k.level2_fixmap_pgt)

theorem fixmap_mem_statics (k : Kernel) : k.level2_fixmap_pgt ∈ k.statics := by simp [statics]

theorem frame_earlyPage_zero_ne {p : ℕ} (hp : p ∈ k.statics) :
    k.frame load (k.earlyPage 0) ≠ k.frame load p := fun heq =>
  statics_ne hp (by decide) (frame_inj k.earlyPage_zero_mem (k.statics_subset hp) heq).symm

theorem kernelTables_linksFixmap (hat : k.LoadedAt load) (hnext : s.next_page = 0) :
    k.LinksFixmap load (k.kernelTables load s) := by
  have hfixmap : k.frame load (k.earlyPage 0) ≠ _ := frame_earlyPage_zero_ne k.fixmap_mem_statics
  rw [LinksFixmap, kernelTables_eq k hat hnext, EarlyTables.mem_store_of_ne hfixmap,
    EarlyTables.mem_store_of_ne hfixmap,
    mapKernel_others (frame_earlyPage_zero_ne (by simp [statics])), linkTables,
    EarlyTables.store_self, entry_frame hat (k.statics_subset k.fixmap_mem_statics)]

theorem LinksFixmap.place (h : k.LinksFixmap load s) (hkernel : k.KernelMapped load s)
    (hs : k.Built load s f) :
    f.place (k.frame load k.level2_fixmap_pgt) = some (1, 512 * 511 + 511) :=
  f.child (hkernel.places hs).1 (show 511 < 512 by decide) (by rw [hs.mem, h])

/-- It does so when tables have been added. -/
theorem LinksFixmap.extends {touched : Set ℕ} (h : k.LinksFixmap load s)
    (hkernel : k.KernelMapped load s) (hs : k.Built load s f) (hs' : k.Built load s' g)
    (hext : f.Extends touched g) : k.LinksFixmap load s' := by
  rw [LinksFixmap, hs.keeps hs' hext (hkernel.places hs).1 (of_entry_table h).1, h]

theorem Loaded.started_linksFixmap (h : k.Loaded load s) (hat : k.LoadedAt load)
    (hrun : k.startup64 load s = some s') : k.LinksFixmap load s' := by
  rw [startup64_eq, ripRel_eq hat (k.statics_subset List.mem_cons_self)] at hrun
  obtain ⟨-, hrun⟩ := Option.ite_none_left_eq_some.mp hrun
  obtain rfl := Option.some.inj hrun
  obtain ⟨f, hf⟩ := h.linked hat
  obtain ⟨g, hg⟩ := hf.building.mapIdent hat hf.next_eq (hf.vacant_ident hat) (Nat.le_refl _)
  exact (kernelTables_linksFixmap hat h.next_page).extends hf.kernel hf.building.toBuilt
    hg.building.toBuilt hg.grows

theorem LinksFixmap.purge (h : k.LinksFixmap load s) (hs : k.Built load s f)
    (hat : k.LoadedAt load) : k.LinksFixmap load (k.purgeIdentMapping s) := by
  rw [LinksFixmap, hs.purge_mem hat,
    Function.update_of_ne (frame_earlyPage_zero_ne List.mem_cons_self), h]

theorem Faults.linksFixmap {s₀ : EarlyTables} (h : k.Faults s₀ s) (hat : k.LoadedAt load)
    (haligned : PMD_SIZE ∣ load) (hstart : ∃ f, k.Faulting load s₀ f)
    (hlinks : k.LinksFixmap load s₀) : k.LinksFixmap load s := by
  induction h with
  | start => exact hlinks
  | @fault s s' a result hbefore ha hnone hrun ih =>
      obtain ⟨f, hf⟩ := hbefore.faulting hat haligned hstart
      obtain ⟨_, _, hrun', hhandled⟩ := hf.handled hat haligned ha hnone
      obtain ⟨rfl, rfl⟩ := Prod.mk.inj (Option.some.inj (hrun.symm.trans hrun'))
      cases result with
      | true =>
          obtain ⟨-, g, hg, hext⟩ := hhandled.maps rfl
          exact ih.extends hf.kernel hf.toBuilt hg.toBuilt hext
      | false => exact (hhandled.fails rfl).symm ▸ ih

end Kernel

end Cyanea.Mm
