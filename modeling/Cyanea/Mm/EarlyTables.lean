/-
# The kernel at its load address

The offset between the addresses at which the kernel is linked and those at which it has
been loaded is the same for the whole image. Large pages can express it if it is a multiple
of their size. `__startup_64` means to check that, but passes the shift of a large page in
place of its size, and so looks at two other bits.
-/

import Cyanea.Mm.Startup

namespace Cyanea.Mm

open X86

/-! ## Where the image is -/

namespace Kernel

variable {k : Kernel} {load p q j : ℕ}

/-- The physical address of a byte of the image. -/
def frame (k : Kernel) (load p : ℕ) : ℕ := load + (p - k.text)

/-- The image has been loaded at a page, and runs there: its physical addresses are ones that
the processor translates. -/
structure LoadedAt (k : Kernel) (load : ℕ) : Prop where
  aligned : PAGE_SIZE ∣ load
  canonical : load + (k.kernelEnd - k.text) ≤ 2 ^ 47

theorem PMD_SIZE_eq : PMD_SIZE = 2 ^ 21 := by decide

theorem image_bounds (k : Kernel) : 2 ^ 64 - 2 ^ 31 ≤ k.text ∧ k.text < k.kernelEnd ∧
    k.kernelEnd ≤ 2 ^ 64 - 2 ^ 30 ∧ k.text % 2 ^ 21 = 0 := by
  have htext := k.text_map
  have hend := k.end_map
  have haligned := k.text_aligned
  obtain ⟨hfrom, hto⟩ := k.inside k.early_top_pgt (List.mem_append_left _ List.mem_cons_self)
  have hsize : PAGE_SIZE = 4096 := rfl
  have hpud : PUD_SIZE = 2 ^ 30 := by decide
  rw [PMD_SIZE_eq] at haligned
  rw [START_KERNEL_map_eq] at htext hend
  omega

theorem ripRel_eq (h : k.LoadedAt load) (hp : p ∈ k.pages) : k.ripRel load p = k.frame load p := by
  obtain ⟨-, -, hend, -⟩ := k.image_bounds
  obtain ⟨hfrom, hto⟩ := k.inside p hp
  have hcanonical := h.canonical
  rw [ripRel, frame, sub64_eq hfrom (by omega), add64]
  omega

/-- Once the kernel runs where it is linked, its own mapping shows the image. -/
theorem physAddr_eq (h : k.LoadedAt load) (hfrom : k.text ≤ p) (hto : p < k.kernelEnd) :
    physAddr (sub64 load (physAddrKernel k.text)) p = k.frame load p := by
  obtain ⟨htext, -, hend, -⟩ := k.image_bounds
  have hcanonical := h.canonical
  rw [physAddr_kernel (by rw [START_KERNEL_map_eq]; omega) (by omega), physAddrKernel, frame,
    START_KERNEL_map_eq, sub64_eq htext (by omega), sub64]
  omega

theorem frame_dvd (h : k.LoadedAt load) (hp : p ∈ k.pages) : 2 ^ 12 ∣ k.frame load p := by
  obtain ⟨-, -, -, htext⟩ := k.image_bounds
  have hload := h.aligned
  have haligned := k.aligned p hp
  obtain ⟨hfrom, -⟩ := k.inside p hp
  rw [show PAGE_SIZE = 4096 from rfl] at hload haligned
  rw [frame]
  omega

theorem frame_lt (h : k.LoadedAt load) (hp : p ∈ k.pages) : k.frame load p < 2 ^ 47 := by
  obtain ⟨hfrom, hto⟩ := k.inside p hp
  have hcanonical := h.canonical
  have hsize : PAGE_SIZE = 4096 := rfl
  rw [frame]
  omega

theorem frame_inj (hp : p ∈ k.pages) (hq : q ∈ k.pages) (h : k.frame load p = k.frame load q) :
    p = q := by
  obtain ⟨hfrom, -⟩ := k.inside p hp
  obtain ⟨hfrom', -⟩ := k.inside q hq
  rw [frame, frame] at h
  omega

/-- The entry that links a page of the image as a table. -/
theorem entry_frame (h : k.LoadedAt load) (hp : p ∈ k.pages) (level : ℕ) :
    entry (level + 1) (k.frame load p ||| KERNPG_TABLE) = .table (k.frame load p) :=
  entry_table level (frame_dvd h hp) ((frame_lt h hp).trans (by decide)) (by decide) (by decide)
    (by decide)

theorem earlyPage_mem (hj : j < EARLY_FREE_PAGES) : k.earlyPage j ∈ k.pages :=
  List.mem_append_right _ (List.mem_map_of_mem (List.mem_range.mpr hj))

theorem earlyPage_inj {i : ℕ} (h : k.earlyPage i = k.earlyPage j) : i = j := by
  have hsize : PAGE_SIZE = 4096 := rfl
  rw [Symbols.earlyPage, Symbols.earlyPage, hsize] at h
  omega

/-- The tables that are no pages of the pool. -/
def statics (k : Kernel) : List ℕ :=
  [k.early_top_pgt, k.level2_kernel_pgt, k.level2_fixmap_pgt, k.level1_fixmap_pgt,
    k.level1_fixmap_pgt + PAGE_SIZE]

theorem statics_subset (k : Kernel) : k.statics ⊆ k.pages :=
  List.subset_append_left _ _

theorem statics_nodup (k : Kernel) : k.statics.Nodup := (List.nodup_append.mp k.distinct).1

theorem statics_ne (hp : p ∈ k.statics) (hj : j < EARLY_FREE_PAGES) : p ≠ k.earlyPage j :=
  (List.nodup_append.mp k.distinct).2.2 p hp _ (List.mem_map_of_mem (List.mem_range.mpr hj))

/-! ## The invariant -/

/-- The tables are those of a forest below `early_top_pgt`, in pages of the image; the pool's
pages from `next_page` on are no tables. An entry of a table is zero or present, and then the
processor uses it if the image is at a large page. Tables of 4 KiB pages are those of the
fixmap only. -/
structure Built (k : Kernel) (load : ℕ) (s : EarlyTables) (f : Forest) : Prop where
  mem : f.mem = s.mem
  phys_base : s.phys_base = sub64 load (physAddrKernel k.text)
  root : f.place (k.frame load k.early_top_pgt) = some (3, 0)
  image : ∀ {b x}, f.place b = some x → ∃ p ∈ k.pages, b = k.frame load p
  free : ∀ {j}, s.next_page ≤ j → j < EARLY_FREE_PAGES →
    f.place (k.frame load (k.earlyPage j)) = none
  used : ∀ {b level q i}, f.place b = some (level, q) → i < 512 →
    s.mem b i = 0 ∨
      (s.mem b i).testBit 0 = true ∧ (PMD_SIZE ∣ load → entry level (s.mem b i) ≠ .absent)
  shallow : ∀ {b q}, f.place b = some (0, q) → 510 ≤ q / 512 % 512

section Steps

variable {s : EarlyTables} {f : Forest} {b level n i e : ℕ} {touched : Set ℕ}

theorem Built.absent (h : k.Built load s f) (hzero : s.mem b i = 0) :
    (f.mem b i).testBit 0 = false := by
  rw [h.mem, hzero, Nat.zero_testBit]

theorem Built.over_root (h : k.Built load s f) (x : ℕ) :
    f.Over (k.frame load k.early_top_pgt) 3 x := by
  rw [Forest.Over, block_four, h.root]

/-- A new table is linked. What the memory held of its frame does not matter. -/
theorem Built.newTable (h : k.Built load s f) (hat : k.LoadedAt load) (hp : p ∈ k.pages)
    (hpool : ∀ {j}, s.next_page ≤ j → j < EARLY_FREE_PAGES → p ≠ k.earlyPage j)
    (hplace : f.place b = some (level + 1, n)) (hi : i < 512)
    (hlow : level = 0 → 510 ≤ n % 512) (hnew : f.place (k.frame load p) = none)
    (hzero : s.mem b i = 0)
    (htouched : ∃ a ∈ touched, block (level + 1) a = 512 * n + i) :
    ∃ g, k.Built load
        ((s.clear (k.frame load p)).store b i (k.frame load p ||| KERNPG_TABLE)) g ∧
      f.Extends touched g ∧ g.place (k.frame load p) = some (level, 512 * n + i) ∧
      ∀ d, d ≠ k.frame load p → g.place d = f.place d := by
  have hentry := entry_frame hat hp level
  obtain ⟨g, hmem, hext, hc, hothers⟩ := Forest.exists_newTable hplace hnew (h.absent hzero) hentry
    htouched
  rw [h.mem] at hmem
  refine ⟨g, ⟨hmem, h.phys_base, hext.placed h.root, ?_, ?_, ?_, ?_⟩, hext, hc, hothers⟩
  · intro d x hd
    by_cases hdc : d = k.frame load p
    · exact ⟨p, hp, hdc⟩
    · exact h.image ((hothers d hdc).symm.trans hd)
  · intro j hle hlt
    rw [hothers]
    · exact h.free hle hlt
    · exact fun heq => hpool hle hlt (frame_inj (earlyPage_mem hlt) hp heq).symm
  · intro d l q j hd hj
    by_cases heq : d = b ∧ j = i
    · obtain ⟨rfl, rfl⟩ := heq
      obtain ⟨rfl, -⟩ := Prod.mk.inj (Option.some.inj (hd.symm.trans (hext.placed hplace)))
      rw [EarlyTables.store_self, hentry]
      exact .inr ⟨(of_entry_table hentry).1, fun _ => nofun⟩
    · rw [EarlyTables.store_of_ne heq]
      by_cases hdc : d = k.frame load p
      · exact .inl (by rw [hdc, EarlyTables.clear_self])
      · rw [EarlyTables.clear_of_ne hdc]
        rw [hothers d hdc] at hd
        exact h.used hd hj
  · intro d q hd
    by_cases hdc : d = k.frame load p
    · rw [hdc, hc] at hd
      obtain ⟨rfl, rfl⟩ := Prod.mk.inj (Option.some.inj hd)
      have hn := hlow rfl
      omega
    · rw [hothers d hdc] at hd
      exact h.shallow hd

/-- An empty page is linked as a table. -/
theorem Built.link (h : k.Built load s f) (hat : k.LoadedAt load) (hp : p ∈ k.pages)
    (hpool : ∀ {j}, s.next_page ≤ j → j < EARLY_FREE_PAGES → p ≠ k.earlyPage j)
    (hplace : f.place b = some (level + 1, n)) (hi : i < 512)
    (hlow : level = 0 → 510 ≤ n % 512) (hnew : f.place (k.frame load p) = none)
    (hempty : ∀ j, s.mem (k.frame load p) j = 0) (hzero : s.mem b i = 0) (htouched : ∃ a ∈ touched, block (level + 1) a = 512 * n + i) :
    ∃ g, k.Built load (s.store b i (k.frame load p ||| KERNPG_TABLE)) g ∧
      f.Extends touched g ∧ g.place (k.frame load p) = some (level, 512 * n + i) ∧
      ∀ d, d ≠ k.frame load p → g.place d = f.place d := by
  have hexists := h.newTable hat hp hpool hplace hi hlow hnew hzero htouched
  rwa [EarlyTables.clear_eq hempty] at hexists

/-- An entry that is present and points to no table. It maps a page if the image is at a large
page. -/
structure Leaf (load level e : ℕ) : Prop where
  terminal : ∀ c, entry level e ≠ .table c
  present : e.testBit 0 = true
  sound : PMD_SIZE ∣ load → entry level e ≠ .absent

theorem entry_large_page {paddr flags : ℕ} (hdvd : 2 ^ 21 ∣ paddr) (hlt : paddr < 2 ^ 52)
    (hflags : Flags flags) (hpresent : flags.testBit 0 = true) (hps : flags.testBit 7 = true) :
    entry 1 (paddr ||| flags) = .page paddr :=
  entry_large (by decide) (by decide) hdvd hlt hflags hpresent hps

theorem leaf_large {load paddr flags : ℕ} (hdvd : 2 ^ 12 ∣ paddr) (hlt : paddr < 2 ^ 52)
    (hload : PMD_SIZE ∣ load → 2 ^ 21 ∣ paddr) (hflags : Flags flags)
    (hpresent : flags.testBit 0 = true) (hps : flags.testBit 7 = true) :
    Leaf load 1 (paddr ||| flags) where
  terminal c htable := by
    have hclear := (of_entry_table htable).2.1
    rw [testBit_or_flags hdvd (by decide), hps] at hclear
    cases hclear
  present := by rw [testBit_or_flags hdvd (by decide), hpresent]
  sound haligned := by
    rw [entry_large_page (hload haligned) hlt hflags hpresent hps]
    exact nofun

/-- A page is mapped. -/
theorem Built.page (h : k.Built load s f) (hplace : f.place b = some (level, n))
    (hzero : s.mem b i = 0) (hentry : Leaf load level e)
    (htouched : ∀ {a}, block level a = 512 * n + i → ∃ x ∈ touched, x % 2 ^ 48 = a % 2 ^ 48) :
    ∃ g, k.Built load (s.store b i e) g ∧ f.Extends touched g ∧ g.place = f.place := by
  obtain ⟨g, hmem, hext, hsame⟩ := Forest.exists_page hplace (h.absent hzero) hentry.terminal
    htouched
  rw [h.mem] at hmem
  refine ⟨g, ⟨hmem, h.phys_base, hext.placed h.root, ?_, ?_, ?_, ?_⟩, hext, hsame⟩
  · rw [hsame]
    exact h.image
  · rw [hsame]
    exact h.free
  · intro d l q j hd hj
    by_cases heq : d = b ∧ j = i
    · obtain ⟨rfl, rfl⟩ := heq
      obtain ⟨rfl, -⟩ := Prod.mk.inj (Option.some.inj (hd.symm.trans (hext.placed hplace)))
      rw [EarlyTables.store_self]
      exact .inr ⟨hentry.present, hentry.sound⟩
    · rw [EarlyTables.store_of_ne heq]
      rw [hsame] at hd
      exact h.used hd hj
  · rw [hsame]
    exact h.shallow

end Steps

/-! ## Building the tables -/

/-- While the first tables are built, every page that is not yet a table is still empty. -/
structure Building (k : Kernel) (load : ℕ) (s : EarlyTables) (f : Forest) : Prop extends
    k.Built load s f where
  blank : ∀ {p}, p ∈ k.pages → f.place (k.frame load p) = none → ∀ i, s.mem (k.frame load p) i = 0

section Building

variable {s : EarlyTables} {f g : Forest} {b level n i e : ℕ} {touched : Set ℕ}

/-- A table is written to, so that the pages which are none are still empty. -/
theorem Building.blank_store (h : k.Building load s f) {x : ℕ × ℕ} (hplace : f.place b = some x)
    (hext : f.Extends touched g) (hp : p ∈ k.pages) (hnone : g.place (k.frame load p) = none)
    (j : ℕ) : (s.store b i e).mem (k.frame load p) j = 0 := by
  have hbefore : f.place (k.frame load p) = none := by
    cases hplace' : f.place (k.frame load p) with
    | none => rfl
    | some y => exact absurd (hnone.symm.trans (hext.placed hplace')) nofun
  have hne : k.frame load p ≠ b := by
    rintro rfl
    exact absurd (hbefore.symm.trans hplace) nofun
  rw [EarlyTables.store_of_ne fun heq => hne heq.1]
  exact h.blank hp hbefore j

/-- The next page of the pool is taken. -/
theorem Building.taken (h : k.Building load s f) :
    k.Building load { s with next_page := s.next_page + 1 } f :=
  { h with free := fun hle hlt => h.free (Nat.le_of_succ_le hle) hlt }

theorem Building.link (h : k.Building load s f) (hat : k.LoadedAt load) (hp : p ∈ k.pages)
    (hpool : ∀ {j}, s.next_page ≤ j → j < EARLY_FREE_PAGES → p ≠ k.earlyPage j)
    (hplace : f.place b = some (level + 1, n)) (hi : i < 512)
    (hlow : level = 0 → 510 ≤ n % 512) (hnew : f.place (k.frame load p) = none)
    (hzero : s.mem b i = 0) (htouched : ∃ a ∈ touched, block (level + 1) a = 512 * n + i) :
    ∃ g, k.Building load (s.store b i (k.frame load p ||| KERNPG_TABLE)) g ∧
      f.Extends touched g ∧ g.place (k.frame load p) = some (level, 512 * n + i) ∧
      ∀ d, d ≠ k.frame load p → g.place d = f.place d := by
  obtain ⟨g, hg, hext, hc, hothers⟩ := h.toBuilt.link hat hp hpool hplace hi hlow hnew
    (h.blank hp hnew) hzero htouched
  exact ⟨g, ⟨hg, fun hp' hnone j => h.blank_store hplace hext hp' hnone j⟩, hext, hc, hothers⟩

theorem Building.page (h : k.Building load s f) (touched : Set ℕ)
    (hplace : f.place b = some (level, n)) (hzero : s.mem b i = 0) (hentry : Leaf load level e)
    (htouched : ∀ {a}, block level a = 512 * n + i → ∃ x ∈ touched, x % 2 ^ 48 = a % 2 ^ 48) :
    ∃ g, k.Building load (s.store b i e) g ∧ f.Extends touched g ∧ g.place = f.place := by
  obtain ⟨g, hg, hext, hsame⟩ := h.toBuilt.page hplace hzero hentry htouched
  exact ⟨g, ⟨hg, fun hp' hnone j => h.blank_store hplace hext hp' hnone j⟩, hext, hsame⟩

end Building

end Kernel

end Cyanea.Mm
