/-
# Memory that is spoken for

While the kernel starts, it reserves ranges that are in use already and takes blocks for itself.
What is followed here is the list of both, next to the memory there is. As long as the array has
two entries left, every call does what it is asked to: the record says exactly what is on the
list, and a block that is taken lies in memory which nothing on the list has touched.
-/

import Cyanea.Memory.Blocks
import Cyanea.Memory.Frames

namespace Cyanea.Memory

open Cyanea.Math Cyanea.Math.Segments

/-! ## Whole pages -/

/-- A page is in the set with all of its bytes or with none. -/
def WholePages (t : Set ℕ) : Prop := ∀ a c, a / PAGE_SIZE = c / PAGE_SIZE → (a ∈ t ↔ c ∈ t)

/-- What is recorded about the bytes of a page is the same for all of them. -/
def PageWise (f : MemoryMap) : Prop := ∀ a c, a / PAGE_SIZE = c / PAGE_SIZE → f a = f c

section Pages

variable {f : MemoryMap} {segs : List Area} {a b c e : ℕ}

/-- A range of whole pages has all bytes of a page or none. -/
theorem inside_iff_of_page (hb : PAGE_SIZE ∣ b) (he : PAGE_SIZE ∣ e)
    (h : a / PAGE_SIZE = c / PAGE_SIZE) : b ≤ a ∧ a < e ↔ b ≤ c ∧ c < e := by
  obtain ⟨i, rfl⟩ := hb
  obtain ⟨j, rfl⟩ := he
  rw [PAGE_SIZE] at *
  omega

/-- Where a segment ends, what is recorded changes, so a page ends. -/
theorem PageWise.dvd_hi (h : PageWise (lookup segs)) (hproper : Proper segs)
    (hmerged : Merged segs) {s : Area} (hs : s ∈ segs) : PAGE_SIZE ∣ s.hi := by
  have hlt := hproper.ordered.lo_lt_hi hs
  have hlast : lookup segs (s.hi - 1) = some s.tag :=
    (lookup_eq_some_iff hproper.ordered).mpr ⟨s, hs, ⟨by omega, by omega⟩, rfl⟩
  by_contra hinside
  have hpage : s.hi / PAGE_SIZE = (s.hi - 1) / PAGE_SIZE := by
    rw [PAGE_SIZE] at *
    omega
  exact (merged_iff_lookup_hi_ne hproper.ordered).mp hmerged s hs ((h _ _ hpage).trans hlast)

/-- The page of a byte of memory lies in one region. -/
theorem PageWise.exists_hasFrame (h : PageWise (lookup segs)) (hproper : Proper segs)
    (hmerged : Merged segs) (ha : (lookup segs a).isSome) :
    ∃ s ∈ segs, (toRegion s).HasFrame (a / PAGE_SIZE) := by
  have hfirst : (lookup segs (a / PAGE_SIZE * PAGE_SIZE)).isSome := by
    rwa [h _ a (Nat.mul_div_cancel _ (by decide))]
  obtain ⟨s, hs, hlo, hhi⟩ := lookup_isSome_iff.mp hfirst
  obtain ⟨k, hk⟩ := h.dvd_hi hproper hmerged hs
  refine ⟨s, hs, hlo, ?_⟩
  show _ ≤ s.lo + (s.hi - s.lo)
  rw [PAGE_SIZE] at *
  omega

end Pages

/-! ## The list -/

/-- The record of this memory, of which these blocks are spoken for, in one node. -/
structure Holdings (ram : Set ℕ) (held : List Block) (nid : ℤ) (f : MemoryMap) : Prop where
  outside : ∀ a ∉ ram, f a = none
  reserved : ∀ b ∈ held, ∀ a, b.Has a → a ∈ ram → f a = some (MEMBLOCK_RESERVED, nid)
  free : ∀ a ∈ ram, (∀ b ∈ held, ¬ b.Has a) → f a = some (MEMBLOCK_NONE, nid)

section Holdings

variable {ram : Set ℕ} {held : List Block} {nid : ℤ} {f : MemoryMap} {a : ℕ}

theorem Holdings.cases (h : Holdings ram held nid f) (a : ℕ) :
    a ∉ ram ∧ f a = none ∨ a ∈ ram ∧ f a = some (MEMBLOCK_RESERVED, nid) ∨
      a ∈ ram ∧ (∀ b ∈ held, ¬ b.Has a) ∧ f a = some (MEMBLOCK_NONE, nid) := by
  by_cases hram : a ∈ ram
  · by_cases hheld : ∃ b ∈ held, b.Has a
    · obtain ⟨b, hb, ha⟩ := hheld
      exact .inr (.inl ⟨hram, h.reserved b hb a ha hram⟩)
    · have hnone : ∀ b ∈ held, ¬ b.Has a := fun b hb ha => hheld ⟨b, hb, ha⟩
      exact .inr (.inr ⟨hram, hnone, h.free a hram hnone⟩)
  · exact .inl ⟨hram, h.outside a hram⟩

theorem Holdings.isSome_iff (h : Holdings ram held nid f) (a : ℕ) : (f a).isSome ↔ a ∈ ram := by
  obtain ⟨hram, hf⟩ | ⟨hram, hf⟩ | ⟨hram, -, hf⟩ := h.cases a
  · exact iff_of_false (by rw [hf]; exact nofun) hram
  · exact iff_of_true (by rw [hf]; rfl) hram
  · exact iff_of_true (by rw [hf]; rfl) hram

/-- Memory that is marked in no way is on the list nowhere. -/
theorem Holdings.of_free (h : Holdings ram held nid f) {x : ℤ}
    (ha : f a = some (MEMBLOCK_NONE, x)) : a ∈ ram ∧ ∀ b ∈ held, ¬ b.Has a := by
  obtain ⟨-, hf⟩ | ⟨-, hf⟩ | ⟨hram, hnone, -⟩ := h.cases a
  · cases hf.symm.trans ha
  · have hflags : MEMBLOCK_RESERVED = MEMBLOCK_NONE :=
      congrArg Prod.fst (Option.some.inj (hf.symm.trans ha))
    exact absurd hflags (by decide)
  · exact ⟨hram, hnone⟩

theorem setclrTag_reserved (nid : ℤ) :
    setclrTag true MEMBLOCK_RESERVED (MEMBLOCK_NONE, nid) = (MEMBLOCK_RESERVED, nid) ∧
      setclrTag true MEMBLOCK_RESERVED (MEMBLOCK_RESERVED, nid) = (MEMBLOCK_RESERVED, nid) :=
  ⟨Prod.ext (show MEMBLOCK_NONE ||| MEMBLOCK_RESERVED = MEMBLOCK_RESERVED by decide) rfl,
    Prod.ext (show MEMBLOCK_RESERVED ||| MEMBLOCK_RESERVED = MEMBLOCK_RESERVED by decide) rfl⟩

/-- A range that is reserved is on the list. -/
theorem Holdings.reserve (h : Holdings ram held nid f) (base size : ℕ) :
    Holdings ram (⟨base, size⟩ :: held) nid
      (f.change base (base + size) (setclrTag true MEMBLOCK_RESERVED)) where
  outside a ha := by
    rw [MemoryMap.change, h.outside a ha]
    exact ite_self none
  reserved b hb a ha hram := by
    rw [MemoryMap.change]
    obtain ⟨hnot, -⟩ | ⟨-, hf⟩ | ⟨-, hnone, hf⟩ := h.cases a
    · exact absurd hram hnot
    · rw [hf, Option.map_some, (setclrTag_reserved nid).2, ite_self]
    · obtain rfl | hb := List.mem_cons.mp hb
      · rw [if_pos (show base ≤ a ∧ a < base + size from ha), hf, Option.map_some,
          (setclrTag_reserved nid).1]
      · exact absurd ha (hnone b hb)
  free a hram ha := by
    obtain ⟨hblock, hheld⟩ := List.forall_mem_cons.mp ha
    rw [MemoryMap.change, if_neg (show ¬ (base ≤ a ∧ a < base + size) from hblock)]
    exact h.free a hram hheld

/-- A node is given to all of the memory. -/
theorem Holdings.setNode (h : Holdings ram held nid f) {e : ℕ} (hram : ∀ a ∈ ram, a < e)
    (nid' : ℤ) : Holdings ram held nid' (f.change 0 e fun x => (x.1, nid')) where
  outside a ha := by
    rw [MemoryMap.change, h.outside a ha]
    exact ite_self none
  reserved b hb a ha hmem := by
    rw [MemoryMap.change, if_pos ⟨Nat.zero_le a, hram a hmem⟩, h.reserved b hb a ha hmem]
    rfl
  free a hmem ha := by
    rw [MemoryMap.change, if_pos ⟨Nat.zero_le a, hram a hmem⟩, h.free a hmem ha]
    rfl

theorem Holdings.pageWise (h : Holdings ram held nid f) (hram : WholePages ram)
    (hheld : ∀ b ∈ held, PAGE_SIZE ∣ b.base ∧ PAGE_SIZE ∣ b.base + b.size) : PageWise f := by
  intro a c hac
  have hhas : ∀ b ∈ held, b.Has a ↔ b.Has c := fun b hb =>
    inside_iff_of_page (hheld b hb).1 (hheld b hb).2 hac
  by_cases hmem : a ∈ ram
  · have hmem' := (hram a c hac).mp hmem
    by_cases hany : ∃ b ∈ held, b.Has a
    · obtain ⟨b, hb, ha⟩ := hany
      rw [h.reserved b hb a ha hmem, h.reserved b hb c ((hhas b hb).mp ha) hmem']
    · have hnone : ∀ b ∈ held, ¬ b.Has a := fun b hb ha => hany ⟨b, hb, ha⟩
      rw [h.free a hmem hnone, h.free c hmem' fun b hb hc => hnone b hb ((hhas b hb).mpr hc)]
  · rw [h.outside a hmem, h.outside c fun hc => hmem ((hram a c hac).mpr hc)]

end Holdings

/-! ## The table -/

/-- The table of these segments, in which nothing was removed. -/
def Recorded (m : Memblock) (segs : List Area) : Prop :=
  Proper segs ∧ Merged segs ∧ ∃ slots, segs.length + slots.length = NR_REGIONS ∧
    (∀ z ∈ slots, z.base = 0 ∨ Stale segs z) ∧ m = table (segs.map toRegion) slots 0

/-- The table says what memory there is and what of it is spoken for, in no more than so many
regions. -/
def Keeps (ram : Set ℕ) (held : List Block) (nid : ℤ) (n : ℕ) (m : Memblock) : Prop :=
  ∃ segs, Recorded m segs ∧ segs.length ≤ n ∧ Holdings ram held nid (lookup segs)

/-- A block that suits a request, in memory that nothing on the list has touched. -/
structure Taken (ram : Set ℕ) (held : List Block) (size align start rangeEnd p : ℕ) : Prop where
  aligned : align ∣ p
  start_le : max start PAGE_SIZE ≤ p
  le_end : p + size ≤ rangeEnd
  memory : ∀ a, Block.Has ⟨p, size⟩ a → a ∈ ram
  apart : ∀ b ∈ held, Block.Disjoint ⟨p, size⟩ b

section Table

variable {ram : Set ℕ} {held : List Block} {nid : ℤ} {n : ℕ} {m : Memblock} {segs : List Area}
  {base size : ℕ} (behind : Option MemblockRegion)

theorem Recorded.coalesced (h : Recorded m segs) : Coalesced NR_REGIONS m :=
  let ⟨hproper, hmerged, slots, hlength, hstale, hm⟩ := h
  ⟨segs, slots, hproper, hmerged, hlength, hstale, hm⟩

theorem Recorded.tagAt_eq (h : Recorded m segs) : m.tagAt = lookup segs := by
  obtain ⟨hproper, -, slots, -, -, rfl⟩ := h
  exact tagAt_table hproper slots 0

/-- A change adds a region at each of its ends at most. -/
theorem ends_change_subset (f : MemoryMap) (b e : ℕ) (g : Tag → Tag) :
    ends (f.change b e g) ⊆ ends f ∪ {b - 1, e - 1} := by
  rintro a ⟨hsome, hne⟩
  by_cases hedge : a = b - 1 ∨ a = e - 1
  · exact .inr hedge
  refine .inl ?_
  have hnext : b ≤ a + 1 ∧ a + 1 < e ↔ b ≤ a ∧ a < e := by omega
  rw [MemoryMap.change] at hsome hne
  rw [MemoryMap.change, if_congr hnext rfl rfl] at hne
  split at hsome
  · rename_i hin
    rw [if_pos hin, if_pos hin] at hne
    exact ⟨by rwa [Option.isSome_map] at hsome, fun heq => hne (congrArg (Option.map g) heq)⟩
  · rename_i hout
    rw [if_neg hout, if_neg hout] at hne
    exact ⟨hsome, hne⟩

theorem length_le_of_change {segs' : List Area} (h : Proper segs) (hmerged : Merged segs)
    (h' : Proper segs') (hmerged' : Merged segs') {b e : ℕ} {g : Tag → Tag}
    (hlookup : lookup segs' = MemoryMap.change b e g (lookup segs)) :
    segs'.length ≤ segs.length + 2 := by
  have hfinite : (ends (lookup segs)).Finite :=
    (finite_covered segs).subset fun a ha => ha.1
  have hpair : ({b - 1, e - 1} : Set ℕ).ncard ≤ 2 :=
    (Set.ncard_insert_le _ _).trans_eq (by rw [Set.ncard_singleton])
  have hsubset := ends_change_subset (lookup segs) b e g
  rw [← hlookup] at hsubset
  have hle := Set.ncard_le_ncard hsubset (hfinite.union (Set.toFinite _))
  have hunion := Set.ncard_union_le (ends (lookup segs)) {b - 1, e - 1}
  rw [length_eq_ncard_ends h'.ordered hmerged', length_eq_ncard_ends h.ordered hmerged]
  omega

/-- With two entries left, a change completes. -/
theorem Recorded.update (h : Recorded m segs) (hroom : segs.length + 2 ≤ NR_REGIONS)
    (hlt : base + size < 2 ^ 64) {f : MemblockRegion → MemblockRegion} {g : Tag → Tag}
    (hfg : Retags f g) : ∃ m' segs', updateRange behind f m base size = .ok (m', SUCCESS) ∧
      Recorded m' segs' ∧ segs'.length ≤ segs.length + 2 ∧
      lookup segs' = MemoryMap.change base (base + size) g (lookup segs) := by
  obtain ⟨m', err, hok⟩ : ∃ m' err, updateRange behind f m base size = .ok (m', err) :=
    h.coalesced.update_completes hlt hfg
  obtain ⟨hproper, hmerged, slots, hlength, hstale, rfl⟩ := h
  obtain ⟨segs', hbecomes, ⟨-, hspace, -⟩ | ⟨rfl, -, hlookup⟩⟩ :=
    updateRange_effect hproper hmerged hlt hfg hok
  · have hslots := hspace.2
    omega
  have hends := updateRange_endsIff behind hfg.size_eq base size (segs.map toRegion) slots 0
  rw [hok] at hends
  obtain ⟨-, -, hmax⟩ := hends
  obtain ⟨hproper', hmerged', slots', drift', hdrift, hstale', rfl⟩ := hbecomes
  obtain rfl : drift' = 0 := hdrift.elim id id
  rw [table_max, List.length_map, List.length_map, hlength] at hmax
  refine ⟨_, segs', hok, ⟨hproper', hmerged', slots', hmax, fun z hz => ?_, rfl⟩,
    length_le_of_change hproper hmerged hproper' hmerged' hlookup, hlookup⟩
  obtain hz | hz := hstale' z hz
  · refine (hstale z hz).imp_right fun hold => hold.mono fun a ha => ?_
    rw [hlookup, MemoryMap.change]
    split
    · rwa [Option.isSome_map]
    · exact ha
  · exact .inr hz

theorem Keeps.mono (h : Keeps ram held nid n m) {n' : ℕ} (hle : n ≤ n') : Keeps ram held nid n' m :=
  let ⟨segs, hrecorded, hlength, hheld⟩ := h
  ⟨segs, hrecorded, hlength.trans hle, hheld⟩

/-- A range is reserved. -/
theorem Keeps.reserve (h : Keeps ram held nid n m) (hroom : n + 2 ≤ NR_REGIONS)
    (hlt : base + size < 2 ^ 64) : ∃ m', memblockReserve behind m base size = .ok (m', SUCCESS) ∧
      Keeps ram (⟨base, size⟩ :: held) nid (n + 2) m' := by
  obtain ⟨segs, hrecorded, hlength, hheld⟩ := h
  obtain ⟨m', segs', hok, hrecorded', hlength', hlookup⟩ :=
    hrecorded.update behind (by omega) hlt (retags_setclr true MEMBLOCK_RESERVED)
  exact ⟨m', hok, segs', hrecorded', by omega, hlookup ▸ hheld.reserve base size⟩

/-- All of the memory gets a node. -/
theorem Keeps.setNode (h : Keeps ram held nid n m) (hroom : n + 2 ≤ NR_REGIONS)
    (hlt : size < 2 ^ 64) (hram : ∀ a ∈ ram, a < size) (nid' : ℤ) :
    ∃ m', memblockSetNode behind m 0 size nid' = .ok (m', SUCCESS) ∧
      Keeps ram held nid' (n + 2) m' := by
  obtain ⟨segs, hrecorded, hlength, hheld⟩ := h
  obtain ⟨m', segs', hok, hrecorded', hlength', hlookup⟩ :=
    hrecorded.update behind (by omega) (by rwa [Nat.zero_add]) (retags_setNode nid')
  rw [Nat.zero_add] at hlookup
  exact ⟨m', hok, segs', hrecorded', by omega, hlookup ▸ hheld.setNode hram nid'⟩

/-- Bytes that follow each other and are recorded alike are in one region. -/
theorem exists_mem_of_alike {x : Tag} {lo hi : ℕ} (hproper : Proper segs) (hmerged : Merged segs)
    (hlt : lo < hi) (halike : ∀ a, lo ≤ a → a < hi → lookup segs a = some x) :
    ∃ s ∈ segs, s.lo ≤ lo ∧ hi ≤ s.hi ∧ s.tag = x := by
  obtain ⟨s, hs, ⟨hlo, hhi⟩, htag⟩ :=
    (lookup_eq_some_iff hproper.ordered).mp (halike lo (Nat.le_refl lo) hlt)
  refine ⟨s, hs, hlo, ?_, htag⟩
  by_contra hend
  have hlast : lookup segs (s.hi - 1) = some s.tag :=
    (lookup_eq_some_iff hproper.ordered).mpr ⟨s, hs, ⟨by omega, by omega⟩, rfl⟩
  have hnext := halike s.hi hhi.le (by omega)
  refine (merged_iff_lookup_hi_ne hproper.ordered).mp hmerged s hs ?_
  rw [hnext, htag]

/-- A block is taken; or there is none that suits the request, and nothing changes. -/
theorem Keeps.alloc (h : Keeps ram held nid n m) (hroom : n + 2 ≤ NR_REGIONS) {start rangeEnd k : ℕ}
    (hsize : 0 < size) (hk : k < 64) (hstart : start < 2 ^ 64) (hend : rangeEnd < 2 ^ 64) :
    ∃ m' p, memblockAlloc behind m size (2 ^ k) start rangeEnd (-1) false = .ok (m', p) ∧
      (p = 0 ∧ m' = m ∧ (∀ q, ¬ Taken ram held size (2 ^ k) start rangeEnd q) ∨
        p ≠ 0 ∧ Taken ram held size (2 ^ k) start rangeEnd p ∧
          Keeps ram (⟨p, size⟩ :: held) nid (n + 2) m') := by
  obtain ⟨segs, hrecorded, hlength, hheld⟩ := h
  have hreach := hrecorded
  obtain ⟨hproper, hmerged, slots, hslots, -, rfl⟩ := hreach
  have halloc := memblockAlloc_table behind size (2 ^ k) start rangeEnd (-1) false
    (segs.map toRegion) slots 0
  dsimp only at halloc
  rw [halloc]
  by_cases hzero : target size (2 ^ k) start rangeEnd (-1) false (segs.map toRegion) = 0
  · rw [if_pos (.inl hzero)]
    refine ⟨_, 0, rfl, .inl ⟨rfl, rfl, fun q htaken => ?_⟩⟩
    have halike : ∀ a, q ≤ a → a < q + size → lookup segs a = some (MEMBLOCK_NONE, nid) :=
      fun a hle hlt => hheld.free a (htaken.memory a ⟨hle, hlt⟩)
        fun b hb => htaken.apart b hb a ⟨hle, hlt⟩
    obtain ⟨s, hs, hlo, hhi, htag⟩ :=
      exists_mem_of_alike hproper hmerged (Nat.lt_add_of_pos_right hsize) halike
    have hnone : ¬ Suits (table (segs.map toRegion) slots 0) size (2 ^ k) start rangeEnd (-1)
        false q :=
      not_suits_of_target hproper hsize hk hzero q
    refine hnone ⟨htaken.aligned, htaken.start_le, htaken.le_end, toRegion s, mem_live_table hs, hlo,
      ?_, congrArg Prod.fst htag, .inl rfl⟩
    show q + size ≤ s.lo + (s.hi - s.lo)
    omega
  · have hspace : ¬ NoSpace size slots := fun hno => by
      have hfew := hno.2
      omega
    rw [if_neg (not_or.mpr ⟨hzero, hspace⟩)]
    generalize hp : target size (2 ^ k) start rangeEnd (-1) false (segs.map toRegion) = p at *
    have hsuits : Suits (table (segs.map toRegion) slots 0) .. :=
      suits_of_target hproper hk hstart hend hzero hp.symm
    have hfree : ∀ a, Block.Has ⟨p, size⟩ a → Free (lookup segs) a := fun a ha =>
      free_of_target hproper ⟨k, rfl⟩ (Nat.pow_lt_pow_right (by decide) hk) hstart hend hp.symm hzero
        ha.1 ha.2
    have hapart : ∀ a, Block.Has ⟨p, size⟩ a → a ∈ ram ∧ ∀ b ∈ held, ¬ b.Has a := by
      intro a ha
      obtain ⟨x, hx, hflags⟩ := hfree a ha
      refine hheld.of_free (x := x.2) ?_
      rw [hx, ← hflags]
    have hlt : p + size < 2 ^ 64 := hsuits.le_end.trans_lt hend
    obtain ⟨m', segs', hok, hrecorded', hlength', hlookup⟩ :=
      hrecorded.update behind (by omega) hlt (retags_setclr true MEMBLOCK_RESERVED)
    rw [memblockSetclrFlag, hok]
    refine ⟨m', p, rfl, .inr ⟨hzero, ⟨hsuits.aligned, hsuits.start_le, hsuits.le_end,
      fun a ha => (hapart a ha).1, fun b hb a ha => (hapart a ha).2 b hb⟩, segs', hrecorded',
      by omega, ?_⟩⟩
    rw [hlookup]
    exact hheld.reserve p size

end Table

/-! ## The memory at first -/

section First

variable {l : List Range} {m : Memblock}

/-- The bytes of ranges end where one of the ranges does. -/
theorem ncard_lasts_bytesOf_le (l : List Range) : (lasts (· ∈ bytesOf l)).ncard ≤ l.length := by
  have hsubset : lasts (· ∈ bytesOf l) ⊆ ↑(l.map fun r => r.start + r.size - 1).toFinset := by
    rintro a ⟨⟨r, hr, hlo, hhi⟩, hnext⟩
    rw [List.coe_toFinset, Set.mem_ofPred_eq, List.mem_map]
    refine ⟨r, hr, ?_⟩
    by_contra hne
    exact hnext ⟨r, hr, by omega, by omega⟩
  have hle := Set.ncard_le_ncard hsubset (Finset.finite_toSet _)
  rw [Set.ncard_coe_finset] at hle
  exact hle.trans ((List.toFinset_card_le _).trans_eq (List.length_map ..))

/-- Few ranges do not fill the array. -/
theorem neverFills_of_length (h : l.length < NR_REGIONS) : NeverFills l := by
  rintro before r after rfl ⟨-, hruns, -⟩
  have hle := ncard_lasts_bytesOf_le before
  rw [List.length_append, List.length_cons] at h
  omega

/-- Nothing of the memory that has been added is spoken for. -/
theorem Records.keeps (h : Records (bytesOf l) m) : Keeps (bytesOf l) [] (-1) l.length m := by
  obtain ⟨segs, slots, hproper, hmerged, hlength, hstale, hm, hx, hcovered⟩ := h
  refine ⟨segs, ⟨hproper, hmerged, slots, hlength, hstale, hm⟩, ?_, ⟨?_, nofun, ?_⟩⟩
  · rw [length_eq_ncard_lasts hproper.ordered hx hmerged, hcovered]
    exact ncard_lasts_bytesOf_le l
  · intro a ha
    rw [← hcovered] at ha
    exact Option.not_isSome_iff_eq_none.mp ha
  · intro a ha _
    rw [← hcovered] at ha
    obtain ⟨x, hlookup⟩ := Option.isSome_iff_exists.mp ha
    rw [hlookup, hx.lookup hlookup]
    rfl

end First

end Cyanea.Memory
