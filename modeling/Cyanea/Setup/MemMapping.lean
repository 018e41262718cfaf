/-
# The switch to the direct mapping

`init_mem_mapping` prepares the final root, fills the direct mapping from the table of the
allocator, reserves the pages that this has taken, and goes over to the new root. Where the regions
of the allocator are whole pages, the direct mapping then shows all of the memory, and the kernel
is still where it was.
-/

import Cyanea.Memory.Holdings
import Cyanea.Efi.MemoryMap
import Cyanea.Setup.Image

namespace Cyanea.Setup

open Memory hiding PAGE_SIZE
open Mm X86
open Cyanea.Math (Ends)
open Cyanea.Math.Segments

/-! ## The pages for tables -/

section Pages

variable {img : Image} {s : InitTables} {ps : PageSize}

/-- What has been run leaves no more pages in use than there are. -/
def InBrk (img : Image) : Except Stop InitTables → Prop :=
  Ends (fun s => s.next_page ≤ img.BRK_ALLOC_PAGES) (fun _ => True)

theorem inBrk_error (stop : Stop) : InBrk img (.error stop) := trivial

theorem entryLoop_inBrk {mask size w : ℕ} {body : ℕ → ℕ → InitTables → Except Stop InitTables}
    (hbody : ∀ i v s, s.next_page ≤ img.BRK_ALLOC_PAGES → InBrk img (body i v s))
    (turns i v : ℕ) (s : InitTables) (hs : s.next_page ≤ img.BRK_ALLOC_PAGES) :
    InBrk img (Image.entryLoop mask size w body turns i v s) := by
  induction turns generalizing i v s with
  | zero =>
      rw [Image.entryLoop]
      exact hs
  | succ turns ih =>
      rw [Image.entryLoop]
      split
      · exact (hbody i v s hs).bind fun s' hs' => ih _ _ s' hs'
      · exact hs

/-- Filling a table uses no pages but those there are. -/
def KeepsToBrk (img : Image) (build : Image.Builder) : Prop :=
  ∀ table start rangeEnd ps s, s.next_page ≤ img.BRK_ALLOC_PAGES →
    InBrk img (build table start rangeEnd ps s)

theorem physicalPtInit_keepsToBrk : KeepsToBrk img img.physicalPtInit := by
  intro table start rangeEnd ps s hs
  refine entryLoop_inBrk (fun i v s hs => ?_) _ _ _ s hs
  rw [Image.pageTurn]
  split
  · exact inBrk_error _
  · exact hs

theorem newTable_inBrk {init : Image.Builder} (hinit : KeepsToBrk img init) (table w i v : ℕ)
    (s : InitTables) : InBrk img (img.newTable init table w ps i v s) := by
  rw [Image.newTable, Image.allocPages_one]
  split
  · rename_i hroom
    exact (hinit _ _ _ _ _ hroom.le).map fun _ hs' => hs'
  · exact inBrk_error _

theorem largeTurn_inBrk {own : PageSize} {largeMask : ℕ} {init : Image.Builder}
    (hinit : KeepsToBrk img init) (table w i v : ℕ) (s : InitTables)
    (hs : s.next_page ≤ img.BRK_ALLOC_PAGES) :
    InBrk img (img.largeTurn own largeMask init table w ps i v s) := by
  rw [Image.largeTurn]
  split
  · split
    · exact inBrk_error _
    · split
      · exact inBrk_error _
      · exact hinit _ _ _ _ _ hs
  · split
    · exact hs
    · exact newTable_inBrk hinit table w i v s

theorem physicalPmdInit_keepsToBrk : KeepsToBrk img img.physicalPmdInit := fun _ _ _ _ s =>
  entryLoop_inBrk (fun _ _ => largeTurn_inBrk physicalPtInit_keepsToBrk _ _ _ _) _ _ _ s

theorem physicalPudInit_keepsToBrk : KeepsToBrk img img.physicalPudInit := fun _ _ _ _ s =>
  entryLoop_inBrk (fun _ _ => largeTurn_inBrk physicalPmdInit_keepsToBrk _ _ _ _) _ _ _ s

theorem physicalMappingInit_inBrk (start rangeEnd : ℕ) (ps : PageSize)
    (hs : s.next_page ≤ img.BRK_ALLOC_PAGES) :
    InBrk img (img.physicalMappingInit start rangeEnd ps s) := by
  by_cases hlt : va rangeEnd < START_KERNEL_map
  · rw [Image.physicalMappingInit_below hlt]
    refine entryLoop_inBrk (fun i v s hs => ?_) _ _ _ s hs
    rw [Image.rootTurn]
    split
    · exact physicalPudInit_keepsToBrk _ _ _ _ _ hs
    · exact newTable_inBrk physicalPudInit_keepsToBrk _ _ _ _ _
  · rw [Image.physicalMappingInit_above (not_lt.mp hlt)]
    exact inBrk_error _

theorem mapCalls_inBrk (calls : List MappingCall) (hs : s.next_page ≤ img.BRK_ALLOC_PAGES) :
    InBrk img (img.mapCalls calls s) := by
  induction calls generalizing s with
  | nil => exact hs
  | cons c calls ih =>
      rw [Image.mapCalls]
      exact (physicalMappingInit_inBrk c.start c.rangeEnd c.ps hs).bind fun s' hs' => ih hs'

theorem initTables_inBrk (hs : s.next_page ≤ img.BRK_ALLOC_PAGES) (m : Memblock)
    (range_start range_end : ℕ) (mapped : Mapped) :
    Ends (fun r : InitTables × Mapped => r.1.next_page ≤ img.BRK_ALLOC_PAGES) (fun _ => True)
      (img.initTables m range_start range_end mapped s) := by
  rw [Image.initTables]
  split
  · trivial
  · rename_i calls _ _
    have hends := mapCalls_inBrk calls hs
    split
    · trivial
    · rename_i s' hrun
      rwa [hrun] at hends

end Pages

/-! ## Filling -/

section Fill

variable {img : Image} {m : Memblock} {s : InitTables} {segs : List Area} {level3 : ℕ}

theorem iterates_iff (h : Listed m) (f : ℕ) : Iterates m f ↔ ∃ r ∈ m.live, r.HasFrame f := by
  obtain ⟨l, hrun, hwalk⟩ := h.walks (-1)
  have hframes := hwalk.frames f
  constructor
  · rintro ⟨l', hrun', hhas⟩
    obtain rfl := Except.ok.inj (hrun.symm.trans hrun')
    obtain ⟨r, hr, -, hframe⟩ := hframes.mp hhas
    exact ⟨r, hr, hframe⟩
  · rintro ⟨r, hr, hframe⟩
    exact ⟨l, hrun, hframes.mpr ⟨r, hr, .inl rfl, hframe⟩⟩

/-- The addresses of the direct mapping that show a frame of the walk. -/
def Shown (m : Memblock) : Set ℕ := {x | PAGE_OFFSET ≤ x ∧ Iterates m ((x - PAGE_OFFSET) / 4096)}

/-- What `init_range_memory_mapping` fills is that, and nothing stands in its way. -/
theorem initTables_filled {f : Forest} (h : Listed m)
    (hlow : ∀ r ∈ m.live, r.base + r.size < DIRECT_SIZE) (hlaid : Laid img s f)
    (hroot : f.place (img.pa img.init_top_pgt) = some (3, 0)) (hempty : DirectEmpty img s)
    (mapped : Mapped) :
    (∀ x ∈ Shown m, InDirectMap x) ∧
      Ends (fun r : InitTables × Mapped =>
          Filled img f 3 (img.pa img.init_top_pgt) (Shown m) r.1)
        (· = .mapping .notEnoughMemory) (img.initTables m 0 (2 ^ 64 - 1) mapped s) := by
  obtain ⟨l, hrun, hwalk⟩ := h.walks (-1)
  have hend : ∀ r ∈ l, r.end_pfn * 4096 < DIRECT_SIZE := by
    intro r hr
    have hlt := hwalk.nonempty r hr
    obtain ⟨reg, hreg, -, -, hlast⟩ :=
      (hwalk.frames (r.end_pfn - 1)).mp ⟨r, hr, by omega, by omega⟩
    have hbelow := hlow reg hreg
    rw [Memory.PAGE_SIZE] at hlast
    omega
  have hsched := schedule_flatMap hwalk.nonempty hend hwalk.ascending
  have hshown : spans (l.flatMap (rangeCalls 0 (2 ^ 64 - 1))) = Shown m := by
    ext x
    rw [mem_spans_iff hwalk.nonempty hend hsched]
    refine and_congr_right fun _ => ⟨fun hhas => ⟨l, hrun, hhas⟩, ?_⟩
    rintro ⟨l', hrun', hhas⟩
    obtain rfl := Except.ok.inj (hrun.symm.trans hrun')
    exact hhas
  have hin : ∀ c ∈ l.flatMap (rangeCalls 0 (2 ^ 64 - 1)), ∀ a ∈ c.span, InDirectMap a :=
    fun c hc a ha => span_inDirectMap (hsched.low c hc) ha (hsched.nonempty c hc)
  have hends := mapCalls_ends hlaid hroot hsched
    fun c hc a ha => hempty.vacant (hin c hc a ha) (level_le_two c.ps)
  rw [hshown] at hends
  refine ⟨fun x hx => ?_, ?_⟩
  · rw [← hshown] at hx
    obtain ⟨c, hc, ha⟩ := hx
    exact hin c hc x ha
  · rw [Image.initTables, initRangeMemoryMapping_eq hrun]
    dsimp only
    rw [foldl_mapTurn, List.nil_append]
    cases hcalls : img.mapCalls (l.flatMap (rangeCalls 0 (2 ^ 64 - 1))) s with
    | error stop =>
        rw [hcalls] at hends
        exact congrArg InitStop.mapping hends
    | ok s' =>
        rw [hcalls] at hends
        exact hends

/-- The direct mapping shows this memory, byte for byte, and nothing else. -/
structure ShowsMemory (img : Image) (s : InitTables) (ram : Set ℕ) : Prop where
  maps : ∀ a ∈ ram, img.walk s (va a) = some a
  only : ∀ x, InDirectMap x → x - PAGE_OFFSET ∉ ram → img.walk s x = none

theorem listed_of_recorded (h : Recorded m segs)
    (hlow : ∀ a, (lookup segs a).isSome → a + 1 < DIRECT_SIZE) :
    Listed m ∧ ∀ r ∈ m.live, r.base + r.size < DIRECT_SIZE := by
  obtain ⟨hproper, -, slots, -, -, rfl⟩ := h
  have hbelow : ∀ r ∈ segs.map toRegion, r.base + r.size < DIRECT_SIZE := by
    intro r hr
    obtain ⟨s, hs, rfl⟩ := List.mem_map.mp hr
    have hlt := hproper.ordered.lo_lt_hi hs
    have hlast := hlow (s.hi - 1) (lookup_isSome_iff.mpr ⟨s, hs, by omega, by omega⟩)
    show s.lo + (s.hi - s.lo) < DIRECT_SIZE
    omega
  have hsize : DIRECT_SIZE < 2 ^ 64 - 2 * Memory.PAGE_SIZE := by decide
  rw [live_table]
  refine ⟨⟨?_, ?_, ?_⟩, hbelow⟩
  · rw [table_n, table_regions, List.length_append]
    exact Nat.le_add_right _ _
  · rw [live_table]
    exact pairwise_toRegion hproper.ordered
  · rw [live_table]
    exact fun r hr => (hbelow r hr).trans hsize

/-- Where memory is recorded page by page, the walk has all of it. -/
theorem mem_shown_iff (h : Recorded m segs) (hpages : PageWise (lookup segs)) (hlist : Listed m)
    (x : ℕ) : x ∈ Shown m ↔ PAGE_OFFSET ≤ x ∧ (lookup segs (x - PAGE_OFFSET)).isSome := by
  obtain ⟨hproper, hmerged, slots, -, -, rfl⟩ := h
  refine and_congr_right fun _ => ?_
  rw [iterates_iff hlist, live_table]
  constructor
  · rintro ⟨r, hr, hframe⟩
    obtain ⟨s, hs, rfl⟩ := List.mem_map.mp hr
    have hlt := hproper.ordered.lo_lt_hi hs
    have hlo : s.lo ≤ (x - PAGE_OFFSET) / 4096 * 4096 := hframe.1
    have hhi : (x - PAGE_OFFSET) / 4096 * 4096 + 4096 ≤ s.lo + (s.hi - s.lo) := hframe.2
    exact lookup_isSome_iff.mpr ⟨s, hs, by omega, by omega⟩
  · intro hsome
    obtain ⟨s, hs, hframe⟩ := hpages.exists_hasFrame hproper hmerged hsome
    exact ⟨toRegion s, List.mem_map_of_mem hs, hframe⟩

/-- What has been filled shows the memory, if it was all empty before. -/
theorem showsMemory_of_filled {ram : Set ℕ} {f : Forest} {s' : InitTables} (h : Recorded m segs)
    (hpages : PageWise (lookup segs)) (hram : ∀ a, (lookup segs a).isSome ↔ a ∈ ram)
    (hlow : ∀ a ∈ ram, a + 1 < DIRECT_SIZE) (hlaid : Laid img s f)
    (hroot : f.place (img.pa img.init_top_pgt) = some (3, 0)) (hempty : DirectEmpty img s)
    (hfilled : Filled img f 3 (img.pa img.init_top_pgt) (Shown m) s') :
    ShowsMemory img s' ram := by
  obtain ⟨hlist, hregions⟩ := listed_of_recorded h fun a ha => hlow a ((hram a).mp ha)
  have hin := (initTables_filled hlist hregions hlaid hroot hempty ⟨0, 0⟩).1
  obtain ⟨hmaps, honly⟩ := hfilled.maps hlaid hroot hin
    fun a ha => hempty.vacant (hin a ha) (Nat.zero_le 2)
  refine ⟨fun a ha => ?_, fun x hx hnot => ?_⟩
  · have hlt := hlow a ha
    have hva : va a = PAGE_OFFSET + a := va_eq (by rw [DIRECT_SIZE_eq] at hlt; omega)
    have hmem : va a ∈ Shown m := by
      rw [mem_shown_iff h hpages hlist, hva, Nat.add_sub_cancel_left]
      exact ⟨Nat.le_add_right _ _, (hram a).mpr ha⟩
    have hshows := (hmaps _ hmem).after
    rwa [hva, Nat.add_sub_cancel_left, ← hva] at hshows
  · cases hwalk : img.walk s' x with
    | none => rfl
    | some p =>
        have hbefore : img.walk s x = none := by
          rw [walk_of_inDirectMap hx, (hempty.vacant hx (Nat.zero_le 2)).translate]
        obtain ⟨a, ha, hblock⟩ := honly ⟨hbefore, hwalk⟩
        refine absurd ?_ hnot
        have hframe := frame_of_block (hin a ha) hx hblock
        obtain ⟨-, hiterates⟩ := ha
        rw [hframe] at hiterates
        have hshown : x ∈ Shown m := ⟨hx.1, hiterates⟩
        rw [mem_shown_iff h hpages hlist] at hshown
        exact (hram _).mp hshown.2

end Fill

/-! ## Going over to the new root -/

/-- How `setup_arch` ends without returning. -/
inductive SetupStop where
  | efi (fault : Efi.Fault)
  | memblock (fault : Memory.Fault)
  | mapping (stop : InitStop)
  /-- `assert(!acpi_table_init(), "ACPI: failed.")` -/
  | acpi
  deriving DecidableEq, Repr

theorem ends_mapError {α F G : Type} {good : α → Prop} {bad : G → Prop} {g : F → G}
    {x : Except F α} (h : Ends good (fun f => bad (g f)) x) : Ends good bad (x.mapError g) := by
  cases x with
  | ok a => exact h
  | error f => exact h

namespace LoadedImage

variable (k : LoadedImage)

/-- `__pa_symbol(x)`. -/
def paSymbol (x : ℕ) : ℕ := add64 (physAddrKernel x) k.image.phys_base

/-- `init_mem_mapping`, which leaves the tables behind the new root and the table of the
allocator. -/
def initMemMapping (behind : Option MemblockRegion) (m : Memblock) (s : InitTables) :
    Except SetupStop (Memblock × InitTables) := do
  let s := k.initInitTopPgt s
  let (s, _) ← (k.image.initTables m 0 (2 ^ 64 - 1) ⟨0, 0⟩ s).mapError .mapping
  let (m, _) ← (memblockReserve behind m (k.paSymbol k.brk_base)
    (sub64 (k.image.brkPage s.next_page) k.brk_base)).mapError .memblock
  return (m, s)

/-- The new tables show the memory, and what lies from `__START_KERNEL_map` on as the old ones. The
pages that they have taken are behind each other. -/
structure Switched (k : LoadedImage) (s : EarlyTables) (ram : Set ℕ) (s' : InitTables) : Prop where
  shows : ShowsMemory k.image s' ram
  upper : ∀ x, START_KERNEL_map ≤ x → x < 2 ^ 64 → k.image.walk s' x = k.walk s x
  pages : s'.next_page ≤ k.BRK_ALLOC_PAGES

variable {k} {s : EarlyTables} {m : Memblock} {segs : List Area} {ram : Set ℕ}

/-- What is filled lies below the kernel, so the new root goes on to translate what the old one
does. -/
theorem EarlyDone.walk_upper {f : Forest} {R : Set ℕ} {s' : InitTables} (h : k.EarlyDone s)
    (hlaid : Laid k.image ⟨k.linkedMem s.mem, 0⟩ f)
    (hroot : f.place (k.image.pa k.image.init_top_pgt) = some (3, 0))
    (hin : ∀ a ∈ R, InDirectMap a)
    (hfilled : Filled k.image f 3 (k.image.pa k.image.init_top_pgt) R s') {x : ℕ}
    (hx : START_KERNEL_map ≤ x) (hlt : x < 2 ^ 64) : k.image.walk s' x = k.walk s x := by
  obtain ⟨g, hg⟩ := hfilled
  obtain ⟨fs, hfs⟩ := h.faulting
  have huntouched : ∀ a ∈ R, block 0 a ≠ block 0 x := by
    intro a ha
    obtain ⟨hlow, hhigh⟩ := hin a ha
    rw [PAGE_OFFSET_eq] at hlow
    rw [START_KERNEL_map_eq] at hhigh hx
    rw [block, block, show pageShift 0 = 12 from rfl]
    omega
  have hsame := hg.grows.translate_untouched (over_root hroot x) huntouched
  have hpa : k.image.pa k.image.init_top_pgt = k.frame k.load k.init_top_pgt := pa_tables k.root_mem
  rw [hg.laid.mem, hlaid.mem, hpa, h.translate_upper hx hlt] at hsame
  rw [Image.walk, X86.walk, hfs.toBuilt.walk_eq k.loadedAt, X86.walk, hpa, hsame]

/-- Where memory is recorded page by page, the tables that are filled are those to go over to. -/
theorem EarlyDone.initTables (h : k.EarlyDone s) (hrecorded : Recorded m segs)
    (hpages : PageWise (lookup segs)) (hram : ∀ a, (lookup segs a).isSome ↔ a ∈ ram)
    (hlow : ∀ a ∈ ram, a + 1 < DIRECT_SIZE) :
    Ends (fun r : InitTables × Mapped => k.Switched s ram r.1)
      (· = .mapping .notEnoughMemory)
      (k.image.initTables m 0 (2 ^ 64 - 1) ⟨0, 0⟩ (k.initInitTopPgt ⟨s.mem, 0⟩)) := by
  rw [initInitTopPgt_eq]
  have hprepared := h.prepared
  obtain ⟨f, hlaid, hroot⟩ := hprepared.laid
  have hempty : DirectEmpty k.image ⟨k.linkedMem s.mem, 0⟩ :=
    .inr ⟨_, hprepared.pgd, hprepared.direct⟩
  obtain ⟨hlist, hregions⟩ := listed_of_recorded hrecorded fun a ha => hlow a ((hram a).mp ha)
  obtain ⟨hin, hends⟩ := initTables_filled hlist hregions hlaid hroot hempty ⟨0, 0⟩
  have hbrk : Ends (fun r : InitTables × Mapped => r.1.next_page ≤ k.BRK_ALLOC_PAGES)
      (fun _ => True) (k.image.initTables m 0 (2 ^ 64 - 1) ⟨0, 0⟩ ⟨k.linkedMem s.mem, 0⟩) :=
    initTables_inBrk (Nat.zero_le _) m 0 (2 ^ 64 - 1) ⟨0, 0⟩
  generalize k.image.initTables m 0 (2 ^ 64 - 1) ⟨0, 0⟩ ⟨k.linkedMem s.mem, 0⟩ = run at *
  cases run with
  | error stop => exact hends
  | ok r =>
      exact ⟨showsMemory_of_filled hrecorded hpages hram hlow hlaid hroot hempty hends,
        fun x hx hlt => h.walk_upper hlaid hroot hin hends hx hlt, hbrk⟩

theorem paSymbol_eq {x : ℕ} (hfrom : k.text ≤ x) (hto : x < k.kernelEnd) :
    k.paSymbol x = k.frame k.load x := by
  obtain ⟨htext, -, hend, -⟩ := k.image_bounds
  have hx : START_KERNEL_map ≤ x := by
    rw [START_KERNEL_map_eq]
    omega
  rw [← pa_eq hfrom hto, Image.pa, physAddr_kernel hx (by omega), paSymbol, physAddrKernel,
    sub64_eq hx (by omega), add64]

/-- The pages that have been taken. -/
theorem brk_size {s' : InitTables} (hs : s'.next_page ≤ k.BRK_ALLOC_PAGES) :
    sub64 (k.image.brkPage s'.next_page) k.brk_base = PAGE_SIZE * s'.next_page := by
  obtain ⟨-, -, hend, -⟩ := k.image_bounds
  obtain ⟨-, -, hlimit⟩ := k.brk_bounds
  have hpages : PAGE_SIZE * s'.next_page ≤ PAGE_SIZE * k.BRK_ALLOC_PAGES :=
    Nat.mul_le_mul_left _ hs
  rw [Image.brkPage, show k.image.brk_base = k.brk_base from rfl,
    sub64_eq (Nat.le_add_right _ _) (by omega), Nat.add_sub_cancel_left]

/-- The block of these pages. -/
def brkBlock (k : LoadedImage) (s' : InitTables) : Block :=
  ⟨k.frame k.load k.brk_base, PAGE_SIZE * s'.next_page⟩

theorem brkBlock_end {s' : InitTables} (hs : s'.next_page ≤ k.BRK_ALLOC_PAGES) :
    (k.brkBlock s').base + (k.brkBlock s').size ≤ DIRECT_SIZE := by
  obtain ⟨hfrom, -, hlimit⟩ := k.brk_bounds
  have hlow := k.low
  have hpages : PAGE_SIZE * s'.next_page ≤ PAGE_SIZE * k.BRK_ALLOC_PAGES :=
    Nat.mul_le_mul_left _ hs
  show k.frame k.load k.brk_base + PAGE_SIZE * s'.next_page ≤ DIRECT_SIZE
  rw [Kernel.frame]
  omega

/-- `init_mem_mapping` goes over to tables that show all of the memory, and has spoken for the pages
that these have taken. Nothing stops it but a lack of pages. -/
theorem EarlyDone.initMemMapping {held : List Block} {nid : ℤ} {n : ℕ} (h : k.EarlyDone s)
    (hkeeps : Keeps ram held nid n m) (hroom : n + 2 ≤ NR_REGIONS) (hwhole : WholePages ram)
    (hheld : ∀ b ∈ held, Memory.PAGE_SIZE ∣ b.base ∧ Memory.PAGE_SIZE ∣ b.base + b.size)
    (hlow : ∀ a ∈ ram, a + 1 < DIRECT_SIZE) (behind : Option MemblockRegion) :
    Ends (fun r : Memblock × InitTables => k.Switched s ram r.2 ∧
        Keeps ram (k.brkBlock r.2 :: held) nid (n + 2) r.1)
      (· = .mapping (.mapping .notEnoughMemory)) (k.initMemMapping behind m ⟨s.mem, 0⟩) := by
  have hkept := hkeeps
  obtain ⟨segs, hrecorded, -, hholdings⟩ := hkept
  have hends := h.initTables hrecorded (hholdings.pageWise hwhole hheld) hholdings.isSome_iff hlow
  rw [LoadedImage.initMemMapping]
  dsimp only
  generalize k.image.initTables m 0 (2 ^ 64 - 1) ⟨0, 0⟩ (k.initInitTopPgt ⟨s.mem, 0⟩) = run at *
  cases run with
  | error stop => exact congrArg SetupStop.mapping hends
  | ok r =>
      have hlimit := brkBlock_end hends.pages
      have hsize : DIRECT_SIZE < 2 ^ 64 := by decide
      obtain ⟨m', hok, hkeeps'⟩ := hkeeps.reserve behind hroom (hlimit.trans_lt hsize)
      have hreserve : memblockReserve behind m (k.paSymbol k.brk_base)
          (sub64 (k.image.brkPage r.1.next_page) k.brk_base) = .ok (m', SUCCESS) := by
        rw [paSymbol_eq k.brk_bounds.1 k.brk_bounds.2.1, brk_size hends.pages]
        exact hok
      show Ends _ _ (do
        let (m, _) ← (memblockReserve behind m (k.paSymbol k.brk_base)
          (sub64 (k.image.brkPage r.1.next_page) k.brk_base)).mapError SetupStop.memblock
        return (m, r.1))
      rw [hreserve]
      exact ⟨hends, hkeeps'⟩

end LoadedImage

end Cyanea.Setup
