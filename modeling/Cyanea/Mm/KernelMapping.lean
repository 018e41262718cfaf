/-
# Mapping the kernel where it is linked

`__startup_64` links the static tables by fixed entries: the last entry of the root points to
page 0 of the pool, which serves as the table of the upper 512 GiB, and its last two entries
point to the tables of the image and of the fixmap. A loop then fills the table of the image.
-/

import Mathlib.Data.List.Nodup
import Cyanea.Mm.EarlyTables

namespace Cyanea.Mm

open X86

namespace Kernel

variable {k : Kernel} {load : ℕ} {s s' : EarlyTables} {f g : Forest} {touched : Set ℕ}

/-! ## The loop -/

theorem pmdIndex_text (k : Kernel) : pmdIndex k.text = (k.text - START_KERNEL_map) / 2 ^ 21 := by
  obtain ⟨htext, hlt, hend, -⟩ := k.image_bounds
  rw [pmdIndex_eq, index, START_KERNEL_map_eq, show pageShift 1 = 21 from rfl]
  omega

theorem largePages_eq (k : Kernel) :
    k.largePages = (k.kernelEnd - k.text + (2 ^ 21 - 1)) / 2 ^ 21 := by
  obtain ⟨-, hlt, hend, -⟩ := k.image_bounds
  rw [largePages, PMD_SIZE_eq, sub64_eq (by omega) (by omega), Nat.add_sub_assoc (by decide)]

/-- One table holds the image. -/
theorem largePages_fit (k : Kernel) : pmdIndex k.text + k.largePages ≤ 512 := by
  obtain ⟨htext, hlt, hend, haligned⟩ := k.image_bounds
  rw [pmdIndex_text, largePages_eq, START_KERNEL_map_eq]
  omega

section LargePages

variable {i : ℕ}

/-- The large pages of the image begin in it. -/
theorem largePage_lt (hi : i < k.largePages) : i * 2 ^ 21 < k.kernelEnd - k.text := by
  rw [largePages_eq] at hi
  omega

theorem largePage_address (hat : k.LoadedAt load) (hi : i < k.largePages) :
    add64 load (i * PMD_SIZE) = load + i * 2 ^ 21 ∧ load + i * 2 ^ 21 < 2 ^ 47 := by
  have hstart := largePage_lt hi
  have hcanonical := hat.canonical
  rw [PMD_SIZE_eq]
  exact ⟨add64_eq (by omega), by omega⟩

theorem largePage_dvd (hat : k.LoadedAt load) (i : ℕ) : 2 ^ 12 ∣ load + i * 2 ^ 21 :=
  (Nat.dvd_add_right (show 2 ^ 12 ∣ load from hat.aligned)).mpr
    ((Nat.pow_dvd_pow 2 (by decide)).mul_left i)

theorem largePage_dvd_large (haligned : PMD_SIZE ∣ load) (i : ℕ) : 2 ^ 21 ∣ load + i * 2 ^ 21 :=
  (Nat.dvd_add_right (PMD_SIZE_eq ▸ haligned)).mpr (Nat.dvd_mul_left _ i)

end LargePages

/-- The first large pages of the image have been entered into the table. -/
structure KernelLoop (k : Kernel) (load : ℕ) (s : EarlyTables) (f : Forest) (pmd count : ℕ)
    (touched : Set ℕ) (s' : EarlyTables) (g : Forest) : Prop where
  building : k.Building load s' g
  grows : f.Extends touched g
  place_eq : g.place = f.place
  next_eq : s'.next_page = s.next_page
  entries : ∀ j < count,
    s'.mem pmd (j + pmdIndex k.text) = load + j * 2 ^ 21 ||| PAGE_KERNEL_LARGE_EXEC
  rest : ∀ j, count ≤ j → s'.mem pmd (j + pmdIndex k.text) = 0
  others : ∀ b, b ≠ pmd → s'.mem b = s.mem b

theorem mapKernel_succ (k : Kernel) (pmd load count : ℕ) (s : EarlyTables) :
    k.mapKernel pmd load (count + 1) s =
      (k.mapKernel pmd load count s).store pmd (count + pmdIndex k.text)
        (add64 load (count * PMD_SIZE) ||| PAGE_KERNEL_LARGE_EXEC) := by
  rw [mapKernel, List.range_succ, List.foldl_append]
  rfl

theorem Building.mapKernel (h : k.Building load s f) (hat : k.LoadedAt load) {pmd q count : ℕ}
    (hplace : f.place pmd = some (1, q)) (hempty : ∀ i, s.mem pmd i = 0)
    (htouched : ∀ x, block 2 x = q → x ∈ touched) (hcount : count ≤ k.largePages) :
    ∃ g, KernelLoop k load s f pmd count touched (k.mapKernel pmd load count s) g := by
  induction count with
  | zero =>
      exact ⟨f, h, .refl _ f, rfl, rfl, nofun, fun _ _ => hempty _, fun _ _ => rfl⟩
  | succ i ih =>
      obtain ⟨g, hg⟩ := ih (Nat.le_of_succ_le hcount)
      obtain ⟨haddress, hlt⟩ := largePage_address hat hcount
      have hfit := k.largePages_fit
      have hleaf : Leaf load 1 (load + i * 2 ^ 21 ||| PAGE_KERNEL_LARGE_EXEC) :=
        leaf_large (largePage_dvd hat i) (hlt.trans (by decide))
          (fun haligned => largePage_dvd_large haligned i) (by decide) (by decide) (by decide)
      obtain ⟨g', hg', hext, hsame⟩ := hg.building.page touched
        ((congrFun hg.place_eq pmd).trans hplace) (hg.rest i (Nat.le_refl i)) hleaf
        (fun {a} ha => ⟨a, htouched a (by rw [block_succ, ha]; omega), rfl⟩)
      rw [mapKernel_succ, haddress]
      refine ⟨g', hg', hg.grows.trans hext, hsame.trans hg.place_eq, hg.next_eq, ?_, ?_, ?_⟩
      · intro j hj
        obtain hj | rfl := Nat.lt_succ_iff_lt_or_eq.mp hj
        · rw [EarlyTables.store_of_ne (by omega), hg.entries j hj]
        · rw [EarlyTables.store_self]
      · intro j hj
        rw [EarlyTables.store_of_ne (by omega), hg.rest j (Nat.le_of_succ_le hj)]
      · intro b hb
        funext j
        rw [EarlyTables.store_of_ne fun heq => hb heq.1, hg.others b hb]

/-! ## The static tables -/

/-- The image as it is when its first instruction runs: the tables are empty, and no page of
the pool is in use. -/
structure Loaded (k : Kernel) (load : ℕ) (s : EarlyTables) : Prop where
  next_page : s.next_page = 0
  empty : ∀ p ∈ k.pages, ∀ i, s.mem (k.ripRel load p) i = 0

/-- The tables before the image is mapped at its own address. -/
def kernelTables (k : Kernel) (load : ℕ) (s : EarlyTables) : EarlyTables :=
  let pgd := k.ripRel load k.early_top_pgt
  let (pud, s) := k.getFreePage load s
  let pmd := k.ripRel load k.level2_kernel_pgt
  let pmd_fixmap := k.ripRel load k.level2_fixmap_pgt
  let s := { s with phys_base := sub64 load (physAddrKernel k.text) }
  let s := s.store pgd (pgdIndex START_KERNEL_map) (pud ||| KERNPG_TABLE)
  let s := s.store pud (pudIndex START_KERNEL_map) (pmd ||| KERNPG_TABLE)
  let s := s.store pud (pudIndex START_KERNEL_map + 1) (pmd_fixmap ||| KERNPG_TABLE)
  let s := k.mapKernel pmd load k.largePages s
  let s := s.store pmd_fixmap 511 (k.ripRel load (k.level1_fixmap_pgt + PAGE_SIZE) ||| KERNPG_TABLE)
  s.store pmd_fixmap 510 (k.ripRel load k.level1_fixmap_pgt ||| KERNPG_TABLE)

theorem startup64_eq (k : Kernel) (load : ℕ) (s : EarlyTables) : k.startup64 load s =
    if sub64 load (physAddrKernel k.text) &&& (PMD_SHIFT - 1) ≠ 0 then none
    else some (k.mapIdent (k.ripRel load k.early_top_pgt) load k.largePages
      (k.kernelTables load s)) := rfl

/-- The entries by which the processor finds the image where it is linked. -/
structure KernelMapped (k : Kernel) (load : ℕ) (s : EarlyTables) : Prop where
  top : entry 3 (s.mem (k.frame load k.early_top_pgt) 511) = .table (k.frame load (k.earlyPage 0))
  pud : entry 2 (s.mem (k.frame load (k.earlyPage 0)) 510) =
    .table (k.frame load k.level2_kernel_pgt)
  entries : ∀ j < k.largePages, s.mem (k.frame load k.level2_kernel_pgt) (j + pmdIndex k.text) =
    load + j * 2 ^ 21 ||| PAGE_KERNEL_LARGE_EXEC

/-- The static tables are linked, and nothing else is. -/
structure Linked (k : Kernel) (load : ℕ) (s : EarlyTables) (f : Forest) : Prop where
  building : k.Building load s f
  kernel : k.KernelMapped load s
  next_eq : s.next_page = 1
  pool_empty : ∀ i < 510, s.mem (k.frame load (k.earlyPage 0)) i = 0
  vacant : ∀ x, block 3 x ≠ 511 → Vacant s.mem 3 3 (k.frame load k.early_top_pgt) x

/-- At first there is the root only. -/
def rootForest (k : Kernel) (load : ℕ) (s : EarlyTables)
    (hempty : ∀ i, s.mem (k.frame load k.early_top_pgt) i = 0) : Forest where
  mem := s.mem
  place := Function.update (fun _ => none) (k.frame load k.early_top_pgt) (some (3, 0))
  level_le {b _ _} hplace := by
    by_cases hb : b = k.frame load k.early_top_pgt
    · rw [hb, Function.update_self] at hplace
      obtain ⟨rfl, -⟩ := Prod.mk.inj (Option.some.inj hplace)
      exact Nat.le_refl 3
    · rw [Function.update_of_ne hb] at hplace
      cases hplace
  child {b _ _ i _} hplace _ hentry := by
    by_cases hb : b = k.frame load k.early_top_pgt
    · rw [hb, hempty i, entry_zero] at hentry
      cases hentry
    · rw [Function.update_of_ne hb] at hplace
      cases hplace

theorem rootForest_root (hempty : ∀ i, s.mem (k.frame load k.early_top_pgt) i = 0) :
    (k.rootForest load s hempty).place (k.frame load k.early_top_pgt) = some (3, 0) :=
  dif_pos rfl

theorem rootForest_of_ne (hempty : ∀ i, s.mem (k.frame load k.early_top_pgt) i = 0) {d : ℕ}
    (hd : d ≠ k.frame load k.early_top_pgt) : (k.rootForest load s hempty).place d = none :=
  dif_neg hd

theorem Loaded.empty_frame (h : k.Loaded load s) (hat : k.LoadedAt load) {p : ℕ}
    (hp : p ∈ k.pages) (i : ℕ) : s.mem (k.frame load p) i = 0 :=
  ripRel_eq hat hp ▸ h.empty p hp i

theorem Loaded.building (h : k.Loaded load s) (hat : k.LoadedAt load) :
    ∃ f, k.Building load
        { s with next_page := 1, phys_base := sub64 load (physAddrKernel k.text) } f ∧
      ∀ d, d ≠ k.frame load k.early_top_pgt → f.place d = none := by
  have htop : k.early_top_pgt ∈ k.statics := List.mem_cons_self
  have hempty := h.empty_frame hat (k.statics_subset htop)
  have hroot := rootForest_root hempty
  have honly : ∀ {b x}, (k.rootForest load s hempty).place b = some x →
      b = k.frame load k.early_top_pgt := by
    intro b x hplace
    by_contra hb
    exact absurd ((rootForest_of_ne hempty hb).symm.trans hplace) nofun
  refine ⟨k.rootForest load s hempty, ⟨⟨rfl, rfl, hroot, ?_, ?_, ?_, ?_⟩, ?_⟩,
    fun _ hd => rootForest_of_ne hempty hd⟩
  · exact fun hplace => ⟨_, k.statics_subset htop, honly hplace⟩
  · intro j _ hj
    refine rootForest_of_ne hempty fun heq => ?_
    exact statics_ne htop hj (frame_inj (earlyPage_mem hj) (k.statics_subset htop) heq).symm
  · intro b _ _ i hplace _
    exact .inl (honly hplace ▸ hempty i)
  · intro b q hplace
    obtain rfl := honly hplace
    rw [hroot] at hplace
    cases hplace
  · exact fun hp _ i => h.empty_frame hat hp i

theorem frames_nodup (k : Kernel) (load : ℕ) : ([k.early_top_pgt, k.level2_kernel_pgt,
    k.level2_fixmap_pgt, k.level1_fixmap_pgt, k.level1_fixmap_pgt + PAGE_SIZE,
    k.earlyPage 0].map (k.frame load)).Nodup := by
  have hzero : 0 < EARLY_FREE_PAGES := by decide
  have hmem : ∀ p ∈ k.statics ++ [k.earlyPage 0], p ∈ k.pages := by
    intro p hp
    obtain hp | hp := List.mem_append.mp hp
    · exact k.statics_subset hp
    · exact List.mem_singleton.mp hp ▸ earlyPage_mem hzero
  refine List.Nodup.map_on (fun p hp q hq => frame_inj (hmem p hp) (hmem q hq)) ?_
  refine List.nodup_append.mpr ⟨k.statics_nodup, List.nodup_singleton _, ?_⟩
  rintro p hp q hq rfl
  exact statics_ne hp hzero (List.mem_singleton.mp hq)

/-- The addresses that the last entry of the root translates. -/
def upper : Set ℕ := {x | block 3 x = 511}

theorem upper_image : START_KERNEL_map ∈ upper ∧ block 2 START_KERNEL_map = 512 * 511 + 510 := by
  show block 3 START_KERNEL_map = 511 ∧ _
  decide

/-- The last 2 MiB, and the 2 MiB in front of them. -/
theorem upper_fixmap : 2 ^ 64 - 1 ∈ upper ∧ 2 ^ 64 - 1 - 2 ^ 21 ∈ upper ∧
    block 2 (2 ^ 64 - 1) = 512 * 511 + 511 ∧
    block 1 (2 ^ 64 - 1) = 512 * (512 * 511 + 511) + 511 ∧
    block 1 (2 ^ 64 - 1 - 2 ^ 21) = 512 * (512 * 511 + 511) + 510 := by
  show block 3 (2 ^ 64 - 1) = 511 ∧ block 3 (2 ^ 64 - 1 - 2 ^ 21) = 511 ∧ _
  decide

/-! ## Linking the tables -/

/-- The tables after the root, and page 0 of the pool, have got their entries. -/
def linkTables (k : Kernel) (load : ℕ) (s : EarlyTables) : EarlyTables :=
  (((({ s with next_page := 1, phys_base := sub64 load (physAddrKernel k.text) } :
    EarlyTables).store (k.frame load k.early_top_pgt) 511
      (k.frame load (k.earlyPage 0) ||| KERNPG_TABLE)).store (k.frame load (k.earlyPage 0)) 510
      (k.frame load k.level2_kernel_pgt ||| KERNPG_TABLE)).store (k.frame load (k.earlyPage 0)) 511
      (k.frame load k.level2_fixmap_pgt ||| KERNPG_TABLE))

theorem linkTables_of_ne {d : ℕ} (hroot : d ≠ k.frame load k.early_top_pgt)
    (hpage : d ≠ k.frame load (k.earlyPage 0)) (i : ℕ) :
    (k.linkTables load s).mem d i = s.mem d i := by
  rw [linkTables, EarlyTables.store_of_ne fun heq => hpage heq.1,
    EarlyTables.store_of_ne fun heq => hpage heq.1, EarlyTables.store_of_ne fun heq => hroot heq.1]

theorem earlyPage_zero_mem (k : Kernel) : k.earlyPage 0 ∈ k.pages := earlyPage_mem (by decide)

theorem kernelTables_eq (k : Kernel) (hat : k.LoadedAt load) (hnext : s.next_page = 0) :
    k.kernelTables load s = ((k.mapKernel (k.frame load k.level2_kernel_pgt) load k.largePages
      (k.linkTables load s)).store (k.frame load k.level2_fixmap_pgt) 511
        (k.frame load (k.level1_fixmap_pgt + PAGE_SIZE) ||| KERNPG_TABLE)).store
      (k.frame load k.level2_fixmap_pgt) 510 (k.frame load k.level1_fixmap_pgt ||| KERNPG_TABLE) := by
  have hstatic : ∀ {p}, p ∈ k.statics → k.ripRel load p = k.frame load p :=
    fun hp => ripRel_eq hat (k.statics_subset hp)
  rw [kernelTables, getFreePage, hnext, ripRel_eq hat k.earlyPage_zero_mem, hstatic (by simp [statics]),
    hstatic (by simp [statics]), hstatic (by simp [statics]), hstatic (by simp [statics]),
    hstatic (by simp [statics])]
  rfl

/-- The root, page 0 of the pool and the two tables below it are linked; the latter two are
empty. -/
structure Skeleton (k : Kernel) (load : ℕ) (s : EarlyTables) (f : Forest) : Prop where
  building : k.Building load s f
  next_eq : s.next_page = 1
  top : entry 3 (s.mem (k.frame load k.early_top_pgt) 511) = .table (k.frame load (k.earlyPage 0))
  pud : entry 2 (s.mem (k.frame load (k.earlyPage 0)) 510) =
    .table (k.frame load k.level2_kernel_pgt)
  pool : f.place (k.frame load (k.earlyPage 0)) = some (2, 511)
  kernel : f.place (k.frame load k.level2_kernel_pgt) = some (1, 512 * 511 + 510)
  fixmap : f.place (k.frame load k.level2_fixmap_pgt) = some (1, 512 * 511 + 511)
  kernel_empty : ∀ i, s.mem (k.frame load k.level2_kernel_pgt) i = 0
  fixmap_empty : ∀ i, s.mem (k.frame load k.level2_fixmap_pgt) i = 0
  new : ∀ p, p = k.level1_fixmap_pgt ∨ p = k.level1_fixmap_pgt + PAGE_SIZE →
    f.place (k.frame load p) = none
  pool_empty : ∀ i < 510, s.mem (k.frame load (k.earlyPage 0)) i = 0
  vacant : ∀ x, block 3 x ≠ 511 → Vacant s.mem 3 3 (k.frame load k.early_top_pgt) x

theorem Loaded.skeleton (h : k.Loaded load s) (hat : k.LoadedAt load) :
    ∃ f, k.Skeleton load (k.linkTables load s) f := by
  have hdistinct := k.frames_nodup load
  simp only [List.map_cons, List.map_nil, List.nodup_cons, List.mem_cons, List.not_mem_nil,
    or_false, not_or] at hdistinct
  obtain ⟨⟨hr2k, hr2f, hr1, hr1', hr0⟩, ⟨h2k2f, h2k1, h2k1', h2k0⟩, ⟨h2f1, h2f1', h2f0⟩,
    ⟨h11', h10⟩, h1'0, -⟩ := hdistinct
  have hpage := k.earlyPage_zero_mem
  have h2k : k.level2_kernel_pgt ∈ k.statics := by simp [statics]
  have h2f : k.level2_fixmap_pgt ∈ k.statics := by simp [statics]
  obtain ⟨himage, himage2⟩ := upper_image
  obtain ⟨hlast, -, hlast2, -⟩ := upper_fixmap
  obtain ⟨f, hf, hnone⟩ := h.building hat
  have hempty : ∀ {p}, p ∈ k.pages → ∀ i, s.mem (k.frame load p) i = 0 :=
    fun hp => h.empty_frame hat hp
  -- the last entry of the root
  obtain ⟨g₁, hg₁, hext₁, hplace₁, hothers₁⟩ := hf.link hat hpage
    (fun hj _ heq => absurd (earlyPage_inj heq) (Nat.ne_of_lt hj)) hf.root (by decide)
    nofun (hnone _ (Ne.symm hr0)) (hempty (k.statics_subset List.mem_cons_self) 511)
    (show ∃ x ∈ upper, block 3 x = 512 * 0 + 511 from ⟨_, himage, by decide⟩)
  -- the table of the image
  obtain ⟨g₂, hg₂, hext₂, hplace₂, hothers₂⟩ := hg₁.link hat
    (k.statics_subset h2k) (fun _ hj => statics_ne h2k hj) hplace₁ (by decide) nofun
    (by rw [hothers₁ _ h2k0, hnone _ (Ne.symm hr2k)])
    (by rw [EarlyTables.store_of_ne (by simp [Ne.symm hr0])]; exact hempty hpage 510)
    (show ∃ x ∈ upper, block 2 x = 512 * 511 + 510 from ⟨_, himage, himage2⟩)
  -- the table of the fixmap
  obtain ⟨g₃, hg₃, hext₃, hplace₃, hothers₃⟩ := hg₂.link hat
    (k.statics_subset h2f) (fun _ hj => statics_ne h2f hj) (hext₂.placed hplace₁)
    (by decide) nofun
    (by rw [hothers₂ _ (Ne.symm h2k2f), hothers₁ _ h2f0, hnone _ (Ne.symm hr2f)])
    (by
      rw [EarlyTables.store_of_ne (by simp), EarlyTables.store_of_ne (by simp [Ne.symm hr0])]
      exact hempty hpage 511)
    (show ∃ x ∈ upper, block 2 x = 512 * 511 + 511 from ⟨_, hlast, hlast2⟩)
  have hnew : ∀ {d}, d ≠ k.frame load k.early_top_pgt → d ≠ k.frame load (k.earlyPage 0) →
      d ≠ k.frame load k.level2_kernel_pgt → d ≠ k.frame load k.level2_fixmap_pgt →
      g₃.place d = none := by
    intro d hroot hzero hkernel hfixmap
    rw [hothers₃ d hfixmap, hothers₂ d hkernel, hothers₁ d hzero, hnone d hroot]
  refine ⟨g₃, hg₃, rfl, ?_, ?_, (hext₂.trans hext₃).placed hplace₁, hext₃.placed hplace₂,
    hplace₃, ?_, ?_, ?_, ?_, ?_⟩
  · rw [linkTables, EarlyTables.store_of_ne fun heq => hr0 heq.1,
      EarlyTables.store_of_ne fun heq => hr0 heq.1, EarlyTables.store_self, entry_frame hat hpage]
  · rw [linkTables, EarlyTables.store_of_ne (by simp), EarlyTables.store_self,
      entry_frame hat (k.statics_subset h2k)]
  · intro i
    rw [linkTables_of_ne (Ne.symm hr2k) h2k0, hempty (k.statics_subset h2k)]
  · intro i
    rw [linkTables_of_ne (Ne.symm hr2f) h2f0, hempty (k.statics_subset h2f)]
  · rintro p (rfl | rfl)
    · exact hnew (Ne.symm hr1) h10 (Ne.symm h2k1) (Ne.symm h2f1)
    · exact hnew (Ne.symm hr1') h1'0 (Ne.symm h2k1') (Ne.symm h2f1')
  · intro i hi
    rw [linkTables, EarlyTables.store_of_ne (by omega), EarlyTables.store_of_ne (by omega),
      EarlyTables.store_of_ne fun heq => hr0 heq.1.symm]
    exact hempty hpage i
  · intro x hx
    have hindex : index 3 x ≠ 511 := by
      rw [index_eq (Nat.le_refl 3)]
      have hlt : block 3 x < 512 := by
        rw [block, show pageShift 3 = 39 from rfl]
        omega
      omega
    refine vacant_of_absent (Nat.le_refl 3) ?_
    rw [linkTables, EarlyTables.store_of_ne fun heq => hr0 heq.1,
      EarlyTables.store_of_ne fun heq => hr0 heq.1, EarlyTables.store_of_ne fun heq => hindex heq.2]
    show (s.mem _ _).testBit 0 = false
    rw [hempty (k.statics_subset List.mem_cons_self), Nat.zero_testBit]

theorem mem_upper_of_block {x i : ℕ} (hi : i < 512) (hx : block 2 x = 512 * 511 + i) :
    x ∈ upper := by
  show block 3 x = 511
  rw [block_succ, hx]
  omega

/-- The tables before the image is mapped at its own address. -/
theorem Loaded.linked (h : k.Loaded load s) (hat : k.LoadedAt load) :
    ∃ f, k.Linked load (k.kernelTables load s) f := by
  have hdistinct := k.frames_nodup load
  simp only [List.map_cons, List.map_nil, List.nodup_cons, List.mem_cons, List.not_mem_nil,
    or_false, not_or] at hdistinct
  obtain ⟨⟨hr2k, hr2f, -, -, -⟩, ⟨h2k2f, -, -, h2k0⟩, ⟨-, -, h2f0⟩, ⟨h11', -⟩, -, -⟩ := hdistinct
  have h1 : k.level1_fixmap_pgt ∈ k.statics := by simp [statics]
  have h1' : k.level1_fixmap_pgt + PAGE_SIZE ∈ k.statics := by simp [statics]
  obtain ⟨hlast, hlast', -, hlast1, hlast1'⟩ := upper_fixmap
  obtain ⟨f, hf⟩ := h.skeleton hat
  rw [kernelTables_eq k hat h.next_page]
  obtain ⟨g, hg⟩ := hf.building.mapKernel hat hf.kernel hf.kernel_empty
    (fun x hx => mem_upper_of_block (by decide) hx) (Nat.le_refl k.largePages)
  generalize k.mapKernel (k.frame load k.level2_kernel_pgt) load k.largePages
    (k.linkTables load s) = s₁ at hg ⊢
  have hfixmap : ∀ i, s₁.mem (k.frame load k.level2_fixmap_pgt) i = 0 := fun i => by
    rw [hg.others _ (Ne.symm h2k2f), hf.fixmap_empty]
  have hplace : g.place (k.frame load k.level2_fixmap_pgt) = some (1, 512 * 511 + 511) := by
    rw [hg.place_eq, hf.fixmap]
  have hnew : ∀ p, p = k.level1_fixmap_pgt ∨ p = k.level1_fixmap_pgt + PAGE_SIZE →
      g.place (k.frame load p) = none := fun p hp => by
    rw [hg.place_eq, hf.new p hp]
  -- the tables of the fixmap
  obtain ⟨g₁, hg₁, hext₁, -, hothers₁⟩ := hg.building.link hat (k.statics_subset h1')
    (fun _ hj => statics_ne h1' hj) hplace (by decide) (fun _ => by decide) (hnew _ (.inr rfl))
    (hfixmap 511) (show ∃ x ∈ upper, block 1 x = 512 * (512 * 511 + 511) + 511 from
      ⟨_, hlast, hlast1⟩)
  obtain ⟨g₂, hg₂, hext₂, -, -⟩ := hg₁.link hat (k.statics_subset h1)
    (fun _ hj => statics_ne h1 hj) (hext₁.placed hplace) (by decide) (fun _ => by decide)
    (by rw [hothers₁ _ h11', hnew _ (.inl rfl)])
    (by rw [EarlyTables.store_of_ne (by simp), hfixmap])
    (show ∃ x ∈ upper, block 1 x = 512 * (512 * 511 + 511) + 510 from ⟨_, hlast', hlast1'⟩)
  have hkeep : ∀ {d}, d ≠ k.frame load k.level2_fixmap_pgt → ∀ i,
      ((s₁.store (k.frame load k.level2_fixmap_pgt) 511
        (k.frame load (k.level1_fixmap_pgt + PAGE_SIZE) ||| KERNPG_TABLE)).store
      (k.frame load k.level2_fixmap_pgt) 510
        (k.frame load k.level1_fixmap_pgt ||| KERNPG_TABLE)).mem d i = s₁.mem d i :=
    fun hd i => by
      rw [EarlyTables.store_of_ne fun heq => hd heq.1, EarlyTables.store_of_ne fun heq => hd heq.1]
  refine ⟨g₂, hg₂, ⟨?_, ?_, ?_⟩, ?_, ?_, ?_⟩
  · rw [hkeep hr2f, hg.others _ hr2k, hf.top]
  · rw [hkeep (Ne.symm h2f0), hg.others _ (Ne.symm h2k0), hf.pud]
  · intro j hj
    rw [hkeep h2k2f, hg.entries j hj]
  · rw [EarlyTables.next_page_store, EarlyTables.next_page_store, hg.next_eq, hf.next_eq]
  · intro i hi
    rw [hkeep (Ne.symm h2f0), hg.others _ (Ne.symm h2k0), hf.pool_empty i hi]
  · intro x hx
    rw [← hg₂.mem]
    refine ((hg.grows.trans hext₁).trans hext₂).vacant (hf.building.over_root x)
      (fun a ha => fun heq => hx (heq.symm.trans ha)) ?_
    rw [hf.building.mem]
    exact hf.vacant x hx

end Kernel

end Cyanea.Mm
