/-
# The final tables of the kernel

The tables that the kernel uses from `init_mem_mapping` on lie in its image as well: a root and the
table behind its last entry, which are empty until then, and pages for what is added below. They
take over the tables of the image and of the fixmap. What lies from `__START_KERNEL_map` on is
therefore translated by the new root as it was by the old one, and the code that exchanges the two
goes on where it is.
-/

import Cyanea.Mm.TablePages
import Cyanea.Mm.InitMapping

namespace Cyanea.Setup

open Mm X86

/-- What else of the image is used, in the order in which the linker places it: the tables, the end
of what is reserved as a whole, and the pages behind it. -/
structure KernelImage extends Kernel where
  init_top_pgt : ℕ
  level3_kernel_pgt : ℕ
  end_of_kernel_reserve : ℕ
  brk_base : ℕ
  BRK_ALLOC_PAGES : ℕ
  tables_distinct : (init_top_pgt :: level3_kernel_pgt :: toSymbols.pages).Nodup
  tables_inside : ∀ p ∈ init_top_pgt :: level3_kernel_pgt :: toSymbols.pages,
    text ≤ p ∧ p + PAGE_SIZE ≤ end_of_kernel_reserve
  root_aligned : PAGE_SIZE ∣ init_top_pgt
  level3_aligned : PAGE_SIZE ∣ level3_kernel_pgt
  reserve_aligned : PAGE_SIZE ∣ end_of_kernel_reserve
  reserve_le : end_of_kernel_reserve ≤ brk_base
  brk_aligned : PAGE_SIZE ∣ brk_base
  brk_pos : 0 < BRK_ALLOC_PAGES
  brk_limit : brk_base + PAGE_SIZE * BRK_ALLOC_PAGES ≤ kernelEnd

/-- The image has been loaded at a large page, in memory that the direct mapping can show. -/
structure LoadedImage extends KernelImage where
  load : ℕ
  loadedAt : toKernel.LoadedAt load
  large : PMD_SIZE ∣ load
  low : load + (kernelEnd - text) ≤ DIRECT_SIZE

namespace LoadedImage

variable (k : LoadedImage)

theorem brk_bounds : k.text ≤ k.brk_base ∧ k.brk_base < k.kernelEnd ∧
    k.brk_base + PAGE_SIZE * k.BRK_ALLOC_PAGES ≤ k.kernelEnd := by
  obtain ⟨hfrom, hto⟩ := k.tables_inside _ List.mem_cons_self
  have hle := k.reserve_le
  have hpos := k.brk_pos
  have hlimit := k.brk_limit
  rw [show PAGE_SIZE = 4096 from rfl] at *
  omega

theorem frame_brk_dvd : PAGE_SIZE ∣ k.frame k.load k.brk_base := by
  obtain ⟨-, -, -, htext⟩ := k.image_bounds
  obtain ⟨hfrom, -, -⟩ := k.brk_bounds
  have hload := k.loadedAt.aligned
  have haligned := k.brk_aligned
  rw [show PAGE_SIZE = 4096 from rfl] at *
  rw [Kernel.frame]
  omega

theorem start_le_brk : START_KERNEL_map ≤ k.brk_base :=
  Nat.le_trans k.text_map k.brk_bounds.1

theorem brk_le_top : k.brk_base + PAGE_SIZE * k.BRK_ALLOC_PAGES ≤ 2 ^ 64 := by
  obtain ⟨-, -, hend, -⟩ := k.image_bounds
  have hlimit := k.brk_limit
  omega

theorem physAddr_brk_dvd :
    PAGE_SIZE ∣ physAddr (sub64 k.load (physAddrKernel k.text)) k.brk_base := by
  rw [Kernel.physAddr_eq k.loadedAt k.brk_bounds.1 k.brk_bounds.2.1]
  exact k.frame_brk_dvd

theorem physAddr_brk_le : physAddr (sub64 k.load (physAddrKernel k.text)) k.brk_base +
    PAGE_SIZE * k.BRK_ALLOC_PAGES ≤ DIRECT_SIZE := by
  obtain ⟨hfrom, hto, hlimit⟩ := k.brk_bounds
  have hlow := k.low
  rw [Kernel.physAddr_eq k.loadedAt hfrom hto, Kernel.frame]
  omega

/-- What the builders of the direct mapping use of it. -/
def image : Image where
  phys_base := sub64 k.load (physAddrKernel k.text)
  init_top_pgt := k.init_top_pgt
  brk_base := k.brk_base
  BRK_ALLOC_PAGES := k.BRK_ALLOC_PAGES
  brk_kernel := k.start_le_brk
  brk_limit := k.brk_le_top
  brk_aligned := k.physAddr_brk_dvd
  brk_low := k.physAddr_brk_le

variable {k} {p : ℕ}

theorem pa_eq (hfrom : k.text ≤ p) (hto : p < k.kernelEnd) : k.image.pa p = k.frame k.load p :=
  Kernel.physAddr_eq k.loadedAt hfrom hto

/-- The tables, those of the early boot included. -/
def tables (k : LoadedImage) : List ℕ := k.init_top_pgt :: k.level3_kernel_pgt :: k.pages

theorem root_mem (k : LoadedImage) : k.init_top_pgt ∈ k.tables := List.mem_cons_self

theorem level3_mem (k : LoadedImage) : k.level3_kernel_pgt ∈ k.tables :=
  List.mem_cons_of_mem _ List.mem_cons_self

theorem mem_tables_of_pages (hp : p ∈ k.pages) : p ∈ k.tables :=
  List.mem_cons_of_mem _ (List.mem_cons_of_mem _ hp)

theorem tables_bounds (hp : p ∈ k.tables) :
    k.text ≤ p ∧ p + PAGE_SIZE ≤ k.brk_base ∧ p + PAGE_SIZE ≤ k.kernelEnd := by
  obtain ⟨hfrom, hto⟩ := k.tables_inside p hp
  have hle := k.reserve_le
  have hbrk := k.brk_bounds.2.1
  omega

theorem pa_tables (hp : p ∈ k.tables) : k.image.pa p = k.frame k.load p := by
  obtain ⟨hfrom, -, hto⟩ := tables_bounds hp
  have hsize : PAGE_SIZE = 4096 := rfl
  exact pa_eq hfrom (by omega)

theorem frame_tables_inj {q : ℕ} (hp : p ∈ k.tables) (hq : q ∈ k.tables)
    (h : k.frame k.load p = k.frame k.load q) : p = q := by
  obtain ⟨hfrom, -⟩ := tables_bounds hp
  obtain ⟨hfrom', -⟩ := tables_bounds hq
  rw [Kernel.frame, Kernel.frame] at h
  omega

theorem frame_tables_dvd (hp : p ∈ k.tables) (haligned : PAGE_SIZE ∣ p) :
    2 ^ 12 ∣ k.frame k.load p := by
  obtain ⟨-, -, -, htext⟩ := k.image_bounds
  obtain ⟨hfrom, -⟩ := tables_bounds hp
  have hload := k.loadedAt.aligned
  rw [show PAGE_SIZE = 4096 from rfl] at *
  rw [Kernel.frame]
  omega

theorem frame_tables_low (hp : p ∈ k.tables) : k.frame k.load p < DIRECT_SIZE := by
  obtain ⟨hfrom, -, hto⟩ := tables_bounds hp
  have hlow := k.low
  have hsize : PAGE_SIZE = 4096 := rfl
  rw [Kernel.frame]
  omega

theorem final_not_mem (k : LoadedImage) :
    k.init_top_pgt ∉ k.pages ∧ k.level3_kernel_pgt ∉ k.pages ∧
      k.init_top_pgt ≠ k.level3_kernel_pgt := by
  obtain ⟨hroot, hrest⟩ := List.nodup_cons.mp k.tables_distinct
  obtain ⟨hlevel3, -⟩ := List.nodup_cons.mp hrest
  obtain ⟨hne, hnot⟩ := not_or.mp (List.mem_cons.not.mp hroot)
  exact ⟨hnot, hlevel3, hne⟩

theorem foreign_of_tables (hp : p ∈ k.tables) (hnot : p ∉ k.pages) :
    k.Foreign k.load (k.frame k.load p) := by
  intro q hq heq
  exact hnot (frame_tables_inj hp (mem_tables_of_pages hq) heq ▸ hq)

/-! ## What the early boot leaves -/

/-- The early tables are as page faults have left them, and the final ones are still empty. -/
structure EarlyDone (k : LoadedImage) (s : EarlyTables) : Prop where
  faulting : ∃ f, k.Faulting k.load s f
  fixmap : k.LinksFixmap k.load s
  root : ∀ i, s.mem (k.frame k.load k.init_top_pgt) i = 0
  level3 : ∀ i, s.mem (k.frame k.load k.level3_kernel_pgt) i = 0

/-- All pages for tables are empty when the image starts to run. -/
structure Blank (k : LoadedImage) (s : EarlyTables) : Prop where
  loaded : k.Loaded k.load s
  root : ∀ i, s.mem (k.frame k.load k.init_top_pgt) i = 0
  level3 : ∀ i, s.mem (k.frame k.load k.level3_kernel_pgt) i = 0

theorem Blank.earlyDone {s₀ s₁ s : EarlyTables} (h : k.Blank s₀)
    (hrun : k.startup64 k.load s₀ = some s₁) (hfaults : k.Faults (k.purgeIdentMapping s₁) s) :
    k.EarlyDone s := by
  have hat := k.loadedAt
  obtain ⟨f, hf⟩ := h.loaded.started hat hrun
  have hpurged := hf.purged hat
  have hlinks := (h.loaded.started_linksFixmap hat hrun).purge hf.building.toBuilt hat
  obtain ⟨hroot, hlevel3, -⟩ := k.final_not_mem
  refine ⟨hfaults.faulting hat k.large hpurged, hfaults.linksFixmap hat k.large hpurged hlinks,
    fun i => ?_, fun i => ?_⟩
  · rw [Kernel.faults_others h.loaded hat k.large hrun hfaults
      (foreign_of_tables k.root_mem hroot), h.root]
  · rw [Kernel.faults_others h.loaded hat k.large hrun hfaults
      (foreign_of_tables k.level3_mem hlevel3), h.level3]

/-! ## Exchanging the roots -/

/-- `init__init_top_pgt`. -/
def initInitTopPgt (k : LoadedImage) (s : InitTables) : InitTables :=
  let s := k.image.store s k.init_top_pgt (pgdIndex START_KERNEL_map)
    (k.image.pa k.level3_kernel_pgt ||| KERNPG_TABLE)
  let s := k.image.store s k.level3_kernel_pgt (pudIndex START_KERNEL_map)
    (k.image.pa k.level2_kernel_pgt ||| KERNPG_TABLE)
  k.image.store s k.level3_kernel_pgt (pudIndex START_KERNEL_map + 1)
    (k.image.pa k.level2_fixmap_pgt ||| KERNPG_TABLE)

theorem indices_kernel_map :
    pgdIndex START_KERNEL_map = 511 ∧ pudIndex START_KERNEL_map = 510 := by
  decide

/-- The memory after it. -/
def linkedMem (k : LoadedImage) (mem : Tables) : Tables :=
  setEntry (setEntry (setEntry mem (k.frame k.load k.init_top_pgt) 511
    (k.frame k.load k.level3_kernel_pgt ||| KERNPG_TABLE))
    (k.frame k.load k.level3_kernel_pgt) 510 (k.frame k.load k.level2_kernel_pgt ||| KERNPG_TABLE))
    (k.frame k.load k.level3_kernel_pgt) 511 (k.frame k.load k.level2_fixmap_pgt ||| KERNPG_TABLE)

theorem mem_store (s : InitTables) (table i e : ℕ) :
    (k.image.store s table i e).mem = setEntry s.mem (k.image.pa table) i e := rfl

theorem kernel_mem (k : LoadedImage) : k.level2_kernel_pgt ∈ k.pages :=
  k.statics_subset (by simp [Kernel.statics])

theorem fixmap_mem (k : LoadedImage) : k.level2_fixmap_pgt ∈ k.pages :=
  k.statics_subset k.fixmap_mem_statics

theorem initInitTopPgt_eq (s : InitTables) :
    k.initInitTopPgt s = ⟨k.linkedMem s.mem, s.next_page⟩ := by
  rw [initInitTopPgt, indices_kernel_map.1, indices_kernel_map.2, linkedMem,
    ← pa_tables k.root_mem, ← pa_tables k.level3_mem,
    ← pa_tables (mem_tables_of_pages k.kernel_mem), ← pa_tables (mem_tables_of_pages k.fixmap_mem)]
  rfl

section Linked

variable {s : EarlyTables} {f : Forest} {x : ℕ}

theorem final_ne (k : LoadedImage) :
    k.frame k.load k.init_top_pgt ≠ k.frame k.load k.level3_kernel_pgt := fun heq =>
  k.final_not_mem.2.2 (frame_tables_inj k.root_mem k.level3_mem heq)

theorem linkedMem_of_ne {mem : Tables} {b : ℕ} (hroot : b ≠ k.frame k.load k.init_top_pgt)
    (hlevel3 : b ≠ k.frame k.load k.level3_kernel_pgt) : k.linkedMem mem b = mem b :=
  funext fun j => by
    rw [linkedMem, setEntry_of_ne fun heq => hlevel3 heq.1, setEntry_of_ne fun heq => hlevel3 heq.1,
      setEntry_of_ne fun heq => hroot heq.1]

/-- The final tables with the early ones among them. -/
theorem EarlyDone.laid (h : k.EarlyDone s) : ∃ f g, k.Faulting k.load s f ∧
    Laid k.image ⟨s.mem, 0⟩ g ∧ (∀ {b p}, f.place b = some p → g.place b = some p) ∧
      g.place (k.frame k.load k.init_top_pgt) = some (3, 0) ∧
      g.place (k.frame k.load k.level3_kernel_pgt) = some (2, 511) := by
  obtain ⟨f, hf⟩ := h.faulting
  obtain ⟨hroot, hlevel3, -⟩ := k.final_not_mem
  have hnone : ∀ {p}, p ∈ k.tables → p ∉ k.pages → f.place (k.frame k.load p) = none := by
    intro p hp hnot
    cases hplace : f.place (k.frame k.load p) with
    | none => rfl
    | some y => exact absurd rfl ((foreign_of_tables hp hnot).ne_of_placed hf.toBuilt hplace)
  have hgains₁ := Forest.gains_add (q := 0) (by decide : 3 ≤ 3) (hnone k.root_mem hroot)
  have hnew₂ := hgains₁.place_old (Ne.symm k.final_ne)
  rw [hnone k.level3_mem hlevel3] at hnew₂
  have hgains₂ := Forest.gains_add (q := 511) (by decide : 2 ≤ 3) hnew₂
  refine ⟨f, _, hf, ⟨?_, ?_, ?_⟩, fun hplace => ?_, ?_, hgains₂.place_new⟩
  · -- the pages are empty already
    funext b i
    by_cases hb₂ : b = k.frame k.load k.level3_kernel_pgt
    · rw [hb₂, hgains₂.mem_new]
      exact (h.level3 i).symm
    rw [hgains₂.mem_old hb₂]
    by_cases hb₁ : b = k.frame k.load k.init_top_pgt
    · rw [hb₁, hgains₁.mem_new]
      exact (h.root i).symm
    · rw [hgains₁.mem_old hb₁, hf.mem]
  · intro b p hplace
    by_cases hb₂ : b = k.frame k.load k.level3_kernel_pgt
    · exact hb₂ ▸ frame_tables_low k.level3_mem
    rw [hgains₂.place_old hb₂] at hplace
    by_cases hb₁ : b = k.frame k.load k.init_top_pgt
    · exact hb₁ ▸ frame_tables_low k.root_mem
    rw [hgains₁.place_old hb₁] at hplace
    obtain ⟨q, hq, rfl⟩ := hf.image hplace
    exact frame_tables_low (mem_tables_of_pages hq)
  · intro j _ hj
    have hbelow : ∀ {p}, p ∈ k.tables → k.image.pa (k.image.brkPage j) ≠ k.frame k.load p := by
      intro p hp
      obtain ⟨hfrom, hto, -⟩ := tables_bounds hp
      rw [Image.pa_brkPage hj, show k.image.brk_base = k.brk_base from rfl,
        pa_eq k.brk_bounds.1 k.brk_bounds.2.1, Kernel.frame, Kernel.frame]
      rw [show PAGE_SIZE = 4096 from rfl] at *
      omega
    rw [hgains₂.place_old (hbelow k.level3_mem), hgains₁.place_old (hbelow k.root_mem)]
    cases hplace : f.place (k.image.pa (k.image.brkPage j)) with
    | none => rfl
    | some y =>
        obtain ⟨q, hq, heq⟩ := hf.image hplace
        exact absurd heq (hbelow (mem_tables_of_pages hq))
  · exact (hgains₂.extends ∅).placed ((hgains₁.extends ∅).placed hplace)
  · exact (hgains₂.extends ∅).placed hgains₁.place_new

theorem entry_tables {p : ℕ} (hp : p ∈ k.tables) (haligned : PAGE_SIZE ∣ p) (level : ℕ) :
    entry (level + 1) (k.frame k.load p ||| KERNPG_TABLE) = .table (k.frame k.load p) :=
  entry_table level (frame_tables_dvd hp haligned)
    ((frame_tables_low hp).trans (by decide : DIRECT_SIZE < 2 ^ 52)) (by decide) (by decide)
    (by decide)

theorem linkedMem_root (k : LoadedImage) (mem : Tables) :
    entry 3 (k.linkedMem mem (k.frame k.load k.init_top_pgt) 511) =
      .table (k.frame k.load k.level3_kernel_pgt) := by
  rw [linkedMem, setEntry_of_ne fun heq => k.final_ne heq.1, setEntry_of_ne fun heq => k.final_ne heq.1,
    setEntry_self, entry_tables k.level3_mem k.level3_aligned]

theorem linkedMem_kernel (k : LoadedImage) (mem : Tables) :
    k.linkedMem mem (k.frame k.load k.level3_kernel_pgt) 510 =
      k.frame k.load k.level2_kernel_pgt ||| KERNPG_TABLE := by
  rw [linkedMem, setEntry_of_ne fun heq => absurd heq.2 (by decide), setEntry_self]

theorem linkedMem_fixmap (k : LoadedImage) (mem : Tables) :
    k.linkedMem mem (k.frame k.load k.level3_kernel_pgt) 511 =
      k.frame k.load k.level2_fixmap_pgt ||| KERNPG_TABLE := by
  rw [linkedMem, setEntry_self]

theorem entry_kernel (k : LoadedImage) :
    entry 2 (k.frame k.load k.level2_kernel_pgt ||| KERNPG_TABLE) =
      .table (k.frame k.load k.level2_kernel_pgt) :=
  Kernel.entry_frame k.loadedAt k.kernel_mem 1

theorem entry_fixmap (k : LoadedImage) :
    entry 2 (k.frame k.load k.level2_fixmap_pgt ||| KERNPG_TABLE) =
      .table (k.frame k.load k.level2_fixmap_pgt) :=
  Kernel.entry_frame k.loadedAt k.fixmap_mem 1

/-- `init_top_pgt` is ready for the direct mapping. -/
theorem EarlyDone.prepared (h : k.EarlyDone s) :
    Prepared k.image ⟨k.linkedMem s.mem, 0⟩ (k.frame k.load k.level3_kernel_pgt) := by
  obtain ⟨f, g, hf, hg, hplaced, hroot, hlevel3⟩ := h.laid
  obtain ⟨hpool, hkernel⟩ := hf.kernel.places hf.toBuilt
  have hfixmap := h.fixmap.place hf.kernel hf.toBuilt
  have hlink : ∀ {p level n}, p ∈ k.tables → PAGE_SIZE ∣ p →
      g.place (k.frame k.load p) = some (level, n) → ∀ {l d}, level + 1 = l + 1 →
      entry (level + 1) (k.frame k.load p ||| KERNPG_TABLE) = .table d → g.place d = some (l, n) :=
    fun hp haligned hplace => link_of_place (frame_tables_dvd hp haligned)
      ((frame_tables_low hp).trans (by decide : DIRECT_SIZE < 2 ^ 52)) hplace
  have hpresent : ∀ c, (c ||| KERNPG_TABLE).testBit 0 = true := fun c => by
    rw [Nat.testBit_or, (by decide : KERNPG_TABLE.testBit 0 = true), Bool.or_true]
  rw [← pa_tables k.root_mem] at hroot
  have hlevel3' := hlevel3
  rw [← pa_tables k.level3_mem] at hlevel3'
  -- the three entries, one after the other
  have h₁ := hg.store (i := 511) hroot (hlink k.level3_mem k.level3_aligned hlevel3)
  have h₂ := h₁.store (i := 510) hlevel3' (hlink (mem_tables_of_pages k.kernel_mem)
    (k.aligned _ k.kernel_mem) (hplaced hkernel))
  have h₃ := h₂.store (i := 511) hlevel3' (hlink (mem_tables_of_pages k.fixmap_mem)
    (k.aligned _ k.fixmap_mem) (hplaced hfixmap))
  have hpa : k.image.pa k.image.init_top_pgt = k.frame k.load k.init_top_pgt := pa_tables k.root_mem
  refine ⟨⟨_, ⟨h₃.mem.trans ?_, h₃.low, h₃.free⟩, hroot⟩, ?_, fun i hi => ?_, ?_, ?_⟩
  · rw [mem_store, mem_store, mem_store, pa_tables k.root_mem, pa_tables k.level3_mem, linkedMem]
  · rw [hpa]
    exact k.linkedMem_root s.mem
  · dsimp only
    rw [linkedMem, setEntry_of_ne fun heq => absurd heq.2 (by omega),
      setEntry_of_ne fun heq => absurd heq.2 (by omega),
      setEntry_of_ne fun heq => k.final_ne heq.1.symm, h.level3, Nat.zero_testBit]
  · dsimp only
    rw [linkedMem_kernel, hpresent]
  · dsimp only
    rw [linkedMem_fixmap, hpresent]

/-- Below the tables that are linked again nothing has changed. -/
theorem translate_linkedMem (hf : k.Faulting k.load s f) {level b : ℕ} {q : ℕ}
    (hplace : f.place b = some (level, q)) :
    translate (k.linkedMem s.mem) level b x = translate s.mem level b x := by
  obtain ⟨hroot, hlevel3, -⟩ := k.final_not_mem
  induction level generalizing b q with
  | zero =>
      have hne := ((foreign_of_tables k.root_mem hroot).ne_of_placed hf.toBuilt hplace).symm
      have hne' := ((foreign_of_tables k.level3_mem hlevel3).ne_of_placed hf.toBuilt hplace).symm
      rw [X86.translate, X86.translate, linkedMem_of_ne hne hne']
  | succ level ih =>
      have hne := ((foreign_of_tables k.root_mem hroot).ne_of_placed hf.toBuilt hplace).symm
      have hne' := ((foreign_of_tables k.level3_mem hlevel3).ne_of_placed hf.toBuilt hplace).symm
      rw [X86.translate, X86.translate, linkedMem_of_ne hne hne']
      cases hentry : entry (level + 1) (s.mem b (index (level + 1) x)) with
      | absent => rfl
      | page frame => rfl
      | table next => exact ih (f.child hplace (index_lt _ _) (hf.mem ▸ hentry))

theorem upper_indices (hx : START_KERNEL_map ≤ x) (hlt : x < 2 ^ 64) :
    index 3 x = 511 ∧ (index 2 x = 510 ∨ index 2 x = 511) ∧ Canonical x := by
  rw [START_KERNEL_map_eq] at hx
  rw [index, index, Canonical, show pageShift 3 = 39 from rfl, show pageShift 2 = 30 from rfl]
  omega

/-- From `__START_KERNEL_map` on the new root translates as the old one. -/
theorem EarlyDone.translate_upper (h : k.EarlyDone s) (hx : START_KERNEL_map ≤ x)
    (hlt : x < 2 ^ 64) :
    translate (k.linkedMem s.mem) 3 (k.frame k.load k.init_top_pgt) x =
      translate s.mem 3 (k.frame k.load k.early_top_pgt) x := by
  obtain ⟨f, hf⟩ := h.faulting
  obtain ⟨hpool, hkernel⟩ := hf.kernel.places hf.toBuilt
  have hfixmap := h.fixmap.place hf.kernel hf.toBuilt
  obtain ⟨hthree, htwo, -⟩ := upper_indices hx hlt
  rw [X86.translate, X86.translate, hthree, k.linkedMem_root, hf.kernel.top]
  dsimp only
  rw [X86.translate, X86.translate]
  obtain htwo | htwo := htwo
  · rw [htwo, k.linkedMem_kernel, k.entry_kernel, hf.kernel.pud]
    exact translate_linkedMem hf hkernel
  · rw [htwo, k.linkedMem_fixmap, k.entry_fixmap, h.fixmap]
    exact translate_linkedMem hf hfixmap

end Linked

end LoadedImage

end Cyanea.Setup
