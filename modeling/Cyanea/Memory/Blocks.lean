/-
# Taking a block and giving it back

An allocation that succeeds returns a block that suits the request, and one that fails has
found none, or has too few free entries to mark one. Giving the block back at once restores
the table unless the marking has used up the free entries.
-/

import Cyanea.Memory.Adding
import Cyanea.Memory.Isolation
import Cyanea.Memory.Session

namespace Cyanea.Memory

open Cyanea.Math Cyanea.Math.Segments

/-! ## The search is complete -/

/-- What a block must satisfy to be returned. -/
structure Suits (m : Memblock) (size align start rangeEnd : ℕ) (nid : ℤ) (exactNid : Bool)
    (p : ℕ) : Prop where
  aligned : align ∣ p
  start_le : max start PAGE_SIZE ≤ p
  le_end : p + size ≤ rangeEnd
  region : ∃ r ∈ m.live, r.base ≤ p ∧ p + size ≤ r.base + r.size ∧ r.flags = MEMBLOCK_NONE ∧
    (nid = -1 ∨ exactNid = false ∨ r.nid = nid)

section Search

variable {segs : List Area} {size start rangeEnd k p q : ℕ} {nid : ℤ} {flags : MemblockFlags}

/-- A region with room for an aligned block offers one in front of it. -/
theorem offer_le {s : Area} (hlt : s.lo < s.hi) (hhi : s.hi < 2 ^ 64) (hsize : 0 < size)
    (hk : k < 64) (hdvd : 2 ^ k ∣ q) (hstart : start ≤ q) (hend : q + size ≤ rangeEnd)
    (hlo : s.lo ≤ q) (hfits : q + size ≤ s.hi) (hflags : s.tag.1 = flags)
    (hnid : nid = -1 ∨ nid = s.tag.2) :
    ∃ p, offer size (2 ^ k) start rangeEnd nid flags (toRegion s) = some p ∧ start ≤ p ∧
      p ≤ q := by
  have hclamp : clamp s.lo start rangeEnd ≤ q := by
    rw [clamp]
    omega
  obtain ⟨hle, hqle⟩ := alignKernel_le (by omega) hk hclamp hdvd
  have hroom : clamp s.hi start rangeEnd ≥ q + size := by
    rw [clamp]
    omega
  have hmatch : (toRegion s).flags = flags ∧ ¬ (nid ≠ -1 ∧ nid ≠ (toRegion s).nid) :=
    ⟨hflags, fun hne => hnid.elim hne.1 hne.2⟩
  refine ⟨alignKernel (clamp s.lo start rangeEnd) (2 ^ k), ?_, ?_, hqle⟩
  · rw [offer, if_pos hmatch, toRegion_regionEnd hlt hhi, toRegion_base]
    exact if_pos ⟨by omega, by omega⟩
  · refine le_trans ?_ hle
    rw [clamp]
    omega

/-- If the search finds nothing, no region has room for an aligned block: a region whose
start wraps around when it is aligned is followed by such regions only. -/
theorem not_fits_of_firstFit_eq_zero (h : Proper segs) (hsize : 0 < size) (hk : k < 64)
    (hzero : firstFit size (2 ^ k) start rangeEnd nid flags (segs.map toRegion) = 0) {s : Area}
    (hs : s ∈ segs) (hdvd : 2 ^ k ∣ q) (hstart : max start PAGE_SIZE ≤ q)
    (hend : q + size ≤ rangeEnd) (hlo : s.lo ≤ q) (hfits : q + size ≤ s.hi)
    (hflags : s.tag.1 = flags) (hnid : nid = -1 ∨ nid = s.tag.2) : False := by
  have hpage : PAGE_SIZE = 4096 := rfl
  have hmax : max (max start PAGE_SIZE) rangeEnd = rangeEnd := by omega
  have hhi := h.hi_lt s hs
  obtain ⟨p, hoffer, hp, -⟩ := offer_le (h.ordered.lo_lt_hi hs) hhi hsize hk hdvd hstart hend hlo
    hfits hflags hnid
  rw [firstFit, hmax] at hzero
  cases hfind : (segs.map toRegion).findSome?
      (offer size (2 ^ k) (max start PAGE_SIZE) rangeEnd nid flags) with
  | none =>
      have hnone := List.findSome?_eq_none_iff.mp hfind (toRegion s) (List.mem_map_of_mem hs)
      cases hnone.symm.trans hoffer
  | some p₀ =>
      rw [hfind, Option.getD_some] at hzero
      subst hzero
      obtain ⟨l₁, r₀, l₂, hlist, hr₀, hl₁⟩ := List.findSome?_eq_some_iff.mp hfind
      obtain ⟨front, rest, rfl, rfl, hrest⟩ := List.map_eq_append_iff.mp hlist
      obtain ⟨s₀, later, rfl, rfl, rfl⟩ := List.map_eq_cons_iff.mp hrest
      -- the first offer is 0: the start of `s₀` wraps, and `s` lies behind it
      have hbehind : s₀.lo ≤ s.lo := by
        rcases List.mem_append.mp hs with hs | hs
        · have hnone := hl₁ (toRegion s) (List.mem_map_of_mem hs)
          cases hnone.symm.trans hoffer
        · rcases List.mem_cons.mp hs with rfl | hs
          · exact le_rfl
          · have hord := (ordered_append.mp h.ordered).2.1
            exact hord.1.le.trans (hord.2.1 s hs)
      obtain ⟨-, hp₀, -, -⟩ := offer_eq_some _ _ _ _ _ _ hr₀
      rw [toRegion_base] at hp₀
      have hclamp : clamp s₀.lo (max start PAGE_SIZE) rangeEnd ≠ 0 := by
        rw [clamp]
        omega
      have hlt := lt_of_alignKernel_eq_zero (show q < 2 ^ 64 by omega) hk hclamp hp₀.symm hdvd
      rw [clamp] at hlt
      omega

/-- A block that is found suits the request. -/
theorem suits_of_firstFit (h : Proper segs) (hk : k < 64)
    (hstart : start < 2 ^ 64) (hend : rangeEnd < 2 ^ 64) (hp : p ≠ 0)
    (hfirst : firstFit size (2 ^ k) start rangeEnd nid flags (segs.map toRegion) = p) :
    2 ^ k ∣ p ∧ max start PAGE_SIZE ≤ p ∧ p + size ≤ rangeEnd ∧
      ∃ s ∈ segs, s.lo ≤ p ∧ p + size ≤ s.hi ∧ s.tag.1 = flags ∧ (nid = -1 ∨ nid = s.tag.2) := by
  have hpage : PAGE_SIZE = 4096 := rfl
  obtain ⟨r, hr, hoffer⟩ := exists_offer_of_firstFit_ne_zero _ _ _ _ _ _ (hfirst.symm ▸ hp)
  obtain ⟨s, hs, rfl⟩ := List.mem_map.mp hr
  rw [hfirst] at hoffer
  have hpow : 2 ^ k < 2 ^ 64 := Nat.pow_lt_pow_right (by decide) hk
  obtain ⟨hlo, hhi, htag⟩ := offer_inside (h.ordered.lo_lt_hi hs) (h.hi_lt s hs) ⟨k, rfl⟩ hpow
    (by omega) hoffer hp
  obtain ⟨⟨-, hnid⟩, heq, hbelow, hle⟩ := offer_eq_some _ _ _ _ _ _ hoffer
  have hclamp : clamp s.lo (max start PAGE_SIZE) (max (max start PAGE_SIZE) rangeEnd) ≤ p := by
    have hx : clamp s.lo (max start PAGE_SIZE) (max (max start PAGE_SIZE) rangeEnd) < 2 ^ 64 := by
      rw [clamp]
      omega
    rcases le_alignKernel hx hk with hle | hzero
    · rw [heq]
      exact hle
    · exact absurd (heq.trans hzero) hp
  rw [clamp] at hclamp hbelow hle
  refine ⟨?_, by omega, by omega, s, hs, hlo, hhi, htag, hnid⟩
  rw [heq]
  exact dvd_alignKernel hk

end Search

/-! ## Allocating -/

section Alloc

variable {m m' : Memblock} {behind : Option MemblockRegion} {segs : List Area}
  {slots : List MemblockRegion} {size start rangeEnd k p : ℕ} {nid : ℤ} {exactNid : Bool}

theorem mem_live_table {drift : ℕ} {s : Area} (h : s ∈ segs) :
    toRegion s ∈ (table (segs.map toRegion) slots drift).live := by
  rw [live_table]
  exact List.mem_map_of_mem h

/-- The block that `memblock_alloc` marks suits the request. -/
theorem suits_of_target (h : Proper segs) {drift : ℕ} (hk : k < 64) (hstart : start < 2 ^ 64)
    (hend : rangeEnd < 2 ^ 64) (hp : p ≠ 0)
    (htarget : p = target size (2 ^ k) start rangeEnd nid exactNid (segs.map toRegion)) :
    Suits (table (segs.map toRegion) slots drift) size (2 ^ k) start rangeEnd nid exactNid p := by
  have hregion : ∀ s ∈ segs, s.lo ≤ p → p + size ≤ s.hi → (toRegion s).base ≤ p ∧
      p + size ≤ (toRegion s).base + (toRegion s).size := by
    intro s hs hlo hhi
    have hlt := h.ordered.lo_lt_hi hs
    refine ⟨hlo, ?_⟩
    show p + size ≤ s.lo + (s.hi - s.lo)
    omega
  rw [target] at htarget
  split_ifs at htarget with hfirst hany
  · obtain ⟨hdvd, hle, hfits, s, hs, hlo, hhi, htag, hnid⟩ :=
      suits_of_firstFit h hk hstart hend hp htarget.symm
    obtain ⟨hbase, hroom⟩ := hregion s hs hlo hhi
    exact ⟨hdvd, hle, hfits, _, mem_live_table hs, hbase, hroom, htag,
      hnid.imp id fun heq => .inr heq.symm⟩
  · obtain ⟨hdvd, hle, hfits, s, hs, hlo, hhi, htag, -⟩ :=
      suits_of_firstFit h hk hstart hend hp htarget.symm
    obtain ⟨hbase, hroom⟩ := hregion s hs hlo hhi
    exact ⟨hdvd, hle, hfits, _, mem_live_table hs, hbase, hroom, htag, .inr (.inl hany.2)⟩
  · exact absurd htarget hp

/-- Without a block to mark, none suits. -/
theorem not_suits_of_target (h : Proper segs) {drift : ℕ} (hsize : 0 < size) (hk : k < 64)
    (htarget : target size (2 ^ k) start rangeEnd nid exactNid (segs.map toRegion) = 0) (q : ℕ) :
    ¬ Suits (table (segs.map toRegion) slots drift) size (2 ^ k) start rangeEnd nid exactNid q := by
  rintro ⟨hdvd, hle, hfits, r, hr, hlo, hhi, htag, hnid⟩
  rw [live_table] at hr
  obtain ⟨s, hs, rfl⟩ := List.mem_map.mp hr
  have hlt := h.ordered.lo_lt_hi hs
  have hroom : q + size ≤ s.hi := by
    have hhi' : q + size ≤ s.lo + (s.hi - s.lo) := hhi
    omega
  have hnone : ∀ nid', firstFit size (2 ^ k) start rangeEnd nid' MEMBLOCK_NONE
      (segs.map toRegion) = 0 → ¬ (nid' = -1 ∨ nid' = s.tag.2) := fun nid' hzero hnid' =>
    not_fits_of_firstFit_eq_zero h hsize hk hzero hs hdvd hle hfits hlo hroom htag hnid'
  rw [target] at htarget
  split_ifs at htarget with hfirst hany
  · exact hfirst htarget
  · exact hnone (-1) htarget (.inl rfl)
  · have hzero := not_not.mp hfirst
    rcases hnid with hnid | hexact | hnid
    · exact hnone nid hzero (.inl hnid)
    · have hminus : nid = -1 := by
        by_contra hne
        exact hany ⟨hne, hexact⟩
      exact hnone nid hzero (.inl hminus)
    · exact hnone nid hzero (.inr hnid.symm)

/-- An allocation returns a block that suits the request and reserves exactly its bytes; or
it returns 0, changes nothing, and no block suits or there are too few free entries. -/
theorem Reachable.alloc_spec (h : Reachable m) {size align start rangeEnd : UInt64}
    (hsize : 0 < size) (halign : ∃ k, align.toNat = 2 ^ k)
    (hok : memblockAlloc behind m size.toNat align.toNat start.toNat rangeEnd.toNat nid exactNid =
      .ok (m', p)) :
    (p ≠ 0 → Suits m size.toNat align.toNat start.toNat rangeEnd.toNat nid exactNid p ∧
      Changed m m' p (p + size.toNat) (setclrTag true MEMBLOCK_RESERVED)) ∧
    (p = 0 → m' = m ∧
      ((∀ q, ¬ Suits m size.toNat align.toNat start.toNat rangeEnd.toNat nid exactNid q) ∨
        m.max < m.n + 2)) := by
  obtain ⟨segs, slots, hproper, hmerged, -, -, hm⟩ := h.coalesced
  have hself : Becomes slots 0 m segs := hm ▸ becomes_self hproper hmerged
  obtain ⟨k, hk⟩ := halign
  have hlt : k < 64 := (Nat.pow_lt_pow_iff_right (by decide)).mp (hk ▸ align.toNat_lt)
  rw [hm] at hok
  constructor
  · intro hp
    obtain ⟨segs', hbecomes, ⟨hzero, -⟩ | ⟨-, htarget, hmap⟩⟩ :=
      alloc_refines hproper hmerged start.toNat_lt rangeEnd.toNat_lt hok
    · exact absurd hzero hp
    · rw [hk] at htarget
      refine ⟨?_, changed_of_becomes hself hbecomes hmap⟩
      rw [hm, hk]
      exact suits_of_target hproper hlt start.toNat_lt rangeEnd.toNat_lt hp htarget
  · rintro rfl
    have halloc := memblockAlloc_table behind size.toNat align.toNat start.toNat rangeEnd.toNat nid
      exactNid (segs.map toRegion) slots 0
    simp only at halloc
    rw [halloc] at hok
    split_ifs at hok with hnone
    · obtain ⟨rfl, -⟩ := Prod.mk.inj (Except.ok.inj hok)
      refine ⟨hm.symm, ?_⟩
      rcases hnone with hzero | hspace
      · left
        rw [hm, hk]
        rw [hk] at hzero
        exact not_suits_of_target hproper (UInt64.lt_iff_toNat_lt.mp hsize) hlt hzero
      · right
        have hslots := hspace.2
        rw [hm, table_max, table_n]
        omega
    · rw [not_or] at hnone
      obtain ⟨_, -, hreply⟩ := Math.bind_eq_ok.mp hok
      exact absurd (Prod.mk.inj (Except.ok.inj hreply)).2 hnone.1

/-- The first page of the eight. -/
theorem alloc_eightPages :
    ∃ m, memblockAlloc none eightPages 4096 4096 0 65536 (-1) false = .ok (m, 4096) ∧
      Suits eightPages 4096 4096 0 65536 (-1) false 4096 ∧
      Changed eightPages m 4096 (4096 + 4096) (setclrTag true MEMBLOCK_RESERVED) := by
  have hok : memblockAlloc none eightPages (4096 : UInt64).toNat (4096 : UInt64).toNat
      (0 : UInt64).toNat (65536 : UInt64).toNat (-1) false = .ok (tableOf 32768
        [⟨MEMBLOCK_RESERVED, 4096, 4096, 0⟩, ⟨MEMBLOCK_NONE, 8192, 28672, 0⟩] [], 4096) := by
    decide +kernel
  exact ⟨_, hok, (reachable_eightPages.alloc_spec (by decide) ⟨12, by decide⟩ hok).1 (by decide)⟩

end Alloc

/-! ## Giving back -/

section Free

variable {m m₁ : Memblock} {behind behind' : Option MemblockRegion} {segs : List Area}
  {slots : List MemblockRegion} {size p b e : ℕ} {nid : ℤ} {exactNid : Bool}

/-- A change of a range never stops at the assertion of `insert_region`. -/
theorem updateRange_ne_outOfSpace (h : Proper segs) {drift : ℕ} {base : ℕ}
    (hlt : base + size < 2 ^ 64) {f : MemblockRegion → MemblockRegion}
    (hf : ∀ r, (f r).size = r.size) :
    updateRange behind f (table (segs.map toRegion) slots drift) base size ≠
      .error .outOfSpace := by
  by_cases hsize : size = 0
  · subst hsize
    rw [updateRange_empty]
    simp
  have hregions := isolateRegions_toRegion (show base < base + size by omega) hlt h
  have hcount := Segments.length_isolate_le base (base + size) segs
  rw [updateRange_table behind hf hsize, add64_eq hlt, hregions, List.length_map,
    List.length_map]
  by_cases hspace : slots.length < 2
  · rw [if_pos hspace]
    simp
  rw [if_neg hspace, if_pos (by omega), updateResult]
  split
  · simp
  · rw [mergeResult]
    cases hfault : windowFault behind _ _ _ with
    | none => simp
    | some fault =>
        intro heq
        obtain rfl := Except.error.inj heq
        exact windowFault_ne_outOfSpace _ _ _ _ hfault

/-- On a table without removals, a change of a range completes. -/
theorem Coalesced.update_completes {max : ℕ} (h : Coalesced max m) {base : ℕ}
    (hlt : base + size < 2 ^ 64) {f : MemblockRegion → MemblockRegion} {g : Tag → Tag}
    (hfg : Retags f g) : ∃ m' err, updateRange behind f m base size = .ok (m', err) := by
  obtain ⟨segs, slots, hproper, -, -, hslots, rfl⟩ := h
  have hends := updateRange_endsIff behind hfg.size_eq base size (segs.map toRegion) slots 0
  have hclear : UpdateClear behind f base size (segs.map toRegion) slots :=
    updateClear_of_stale hproper hslots hlt hfg
  cases hrun : updateRange behind f (table (segs.map toRegion) slots 0) base size with
  | ok next => exact ⟨next.1, next.2, rfl⟩
  | error fault =>
      rw [hrun] at hends
      obtain rfl := hends.mpr hclear
      exact absurd hrun (updateRange_ne_outOfSpace hproper hlt hfg.size_eq)

theorem or_and_not_eq_iff (v r : MemblockFlags) : (v ||| r) &&& ~~~ r = v ↔ v &&& r = 0 := by
  constructor
  · intro h
    rw [← h]
    ext i hi
    simp only [BitVec.getElem_and, BitVec.getElem_or, BitVec.getElem_not, BitVec.ofNat_eq_ofNat,
      BitVec.getElem_zero]
    cases v[i] <;> cases r[i] <;> rfl
  · intro h
    ext i hi
    have hbit := congrArg (fun w : MemblockFlags => w[i]) h
    simp only [BitVec.getElem_and, BitVec.getElem_or, BitVec.getElem_not, BitVec.ofNat_eq_ofNat,
      BitVec.getElem_zero] at hbit ⊢
    revert hbit
    cases v[i] <;> cases r[i] <;> decide

/-- The tag that reserving leaves. -/
abbrev reserveTag : Tag → Tag := setclrTag true MEMBLOCK_RESERVED

/-- The tag that freeing leaves. -/
abbrev freeTag : Tag → Tag := setclrTag false MEMBLOCK_RESERVED

/-- Freeing restores a tag that had none of the bits of the mark. -/
theorem freeTag_reserveTag_iff (x : Tag) :
    freeTag (reserveTag x) = x ↔ x.1 &&& MEMBLOCK_RESERVED = MEMBLOCK_NONE := by
  have hand := or_and_not_eq_iff x.1 MEMBLOCK_RESERVED
  exact ⟨fun h => hand.mp (congrArg Prod.fst h), fun h => Prod.ext (hand.mpr h) rfl⟩

theorem reserveTag_ne {x : Tag} (h : x.1 &&& MEMBLOCK_RESERVED = MEMBLOCK_NONE) :
    reserveTag x ≠ x := by
  intro heq
  have hmark := reserved_setclrTag x
  rw [show setclrTag true MEMBLOCK_RESERVED x = x from heq, h] at hmark
  exact absurd hmark (by decide)

/-- What a block must satisfy to be given back: none of its memory was marked, and two
entries are free once it is marked. At each edge the marking cuts a region in two, or
lets the block join a reserved region of its node. -/
structure Restorable (m : Memblock) (b e : ℕ) : Prop where
  unmarked : ∀ a x, b ≤ a → a < e → m.tagAt a = some x → x.1 &&& MEMBLOCK_RESERVED = MEMBLOCK_NONE
  room : (m.n : ℤ) + edge reserveTag (m.tagAt b) (m.tagAt (b - 1)) +
    edge reserveTag (m.tagAt (e - 1)) (m.tagAt e) + 2 ≤ m.max

theorem finite_ends (segs : List Area) : (ends (lookup segs)).Finite :=
  (finite_covered segs).subset fun _ h => h.1

/-- Marking unmarked memory makes new regions at its edges only. -/
theorem length_reserve {segs segs₁ : List Area} (h : Proper segs) (hmerged : Merged segs)
    (h₁ : Proper segs₁) (hmerged₁ : Merged segs₁) (hpos : 0 < b) (hbe : b < e)
    (hmap : lookup segs₁ = MemoryMap.change b e reserveTag (lookup segs))
    (hunmarked : ∀ a x, b ≤ a → a < e → lookup segs a = some x →
      x.1 &&& MEMBLOCK_RESERVED = MEMBLOCK_NONE) :
    (segs₁.length : ℤ) = segs.length + edge reserveTag (lookup segs b) (lookup segs (b - 1)) +
      edge reserveTag (lookup segs (e - 1)) (lookup segs e) := by
  have hfresh : Fresh b e reserveTag (lookup segs) := by
    constructor
    · intro a x a' y ha ha' hb hb' hx hy heq
      rw [← (freeTag_reserveTag_iff x).mpr (hunmarked a x ha ha' hx), heq,
        (freeTag_reserveTag_iff y).mpr (hunmarked a' y hb hb' hy)]
    · exact fun a x ha ha' hx => reserveTag_ne (hunmarked a x ha ha' hx)
  have hin : ∀ a, b ≤ a → a < e → lookup segs₁ a = (lookup segs a).map reserveTag := by
    intro a ha ha'
    rw [hmap, MemoryMap.change, if_pos ⟨ha, ha'⟩]
  have hout : ∀ a, ¬ (b ≤ a ∧ a < e) → lookup segs₁ a = lookup segs a := by
    intro a ha
    rw [hmap, MemoryMap.change, if_neg ha]
  rw [length_eq_ncard_ends h.ordered hmerged, length_eq_ncard_ends h₁.ordered hmerged₁]
  exact ncard_ends_retag hpos hbe hin hout hfresh (finite_ends segs) (finite_ends segs₁)

/-- Two exact tables of areas have the same regions exactly if they record the same. -/
theorem live_eq_iff {segs segs' : List Area} (slots slots' : List MemblockRegion)
    (h : Proper segs) (hmerged : Merged segs) (h' : Proper segs') (hmerged' : Merged segs') :
    (table (segs'.map toRegion) slots' 0).live = (table (segs.map toRegion) slots 0).live ∧
        (table (segs'.map toRegion) slots' 0).n = (table (segs.map toRegion) slots 0).n ∧
        (table (segs'.map toRegion) slots' 0).size = (table (segs.map toRegion) slots 0).size ↔
      lookup segs' = lookup segs := by
  constructor
  · rintro ⟨hlive, -, -⟩
    rw [← tagAt_table h slots 0, ← tagAt_table h' slots' 0]
    funext a
    rw [Memblock.tagAt, Memblock.tagAt, hlive]
  · intro hmap
    obtain rfl := eq_of_lookup_eq h'.ordered h.ordered hmerged' hmerged (congrFun hmap)
    rw [live_table, live_table]
    exact ⟨rfl, rfl, rfl⟩

/-- What a table that a successful allocation was asked of and the one it left have to do
with each other. -/
structure Marks (segs segs₁ : List Area) (slots slots₁ : List MemblockRegion) (b size : ℕ) :
    Prop where
  proper : Proper segs
  merged : Merged segs
  proper₁ : Proper segs₁
  merged₁ : Merged segs₁
  length_eq : segs.length + slots.length = NR_REGIONS
  length_eq₁ : segs₁.length + slots₁.length = NR_REGIONS
  spare : 2 ≤ slots.length
  add_lt : b + size < 2 ^ 64
  map_eq : lookup segs₁ = MemoryMap.change b (b + size) reserveTag (lookup segs)

theorem Reachable.marks (h : Reachable m) {size align start rangeEnd : UInt64} (hsize : 0 < size)
    (hp : p ≠ 0)
    (hok : memblockAlloc behind m size.toNat align.toNat start.toNat rangeEnd.toNat nid exactNid =
      .ok (m₁, p)) :
    ∃ segs segs₁ slots slots₁, Marks segs segs₁ slots slots₁ p size.toNat ∧
      m = table (segs.map toRegion) slots 0 ∧ m₁ = table (segs₁.map toRegion) slots₁ 0 ∧
      Coalesced NR_REGIONS m₁ := by
  have hstep : Memory.step behind m (.alloc size align start rangeEnd nid exactNid) =
      .ok (m₁, .address p) := by
    rw [Memory.step, hok]
    rfl
  have hkeeps : Call.KeepsMemory (.alloc size align start rangeEnd nid exactNid) := trivial
  have h₁ : Reachable m₁ := .step h hkeeps trivial hstep
  obtain ⟨segs, slots, hproper, hmerged, hlength, -, hm⟩ := h.coalesced
  obtain ⟨segs₁, slots₁, hproper₁, hmerged₁, hlength₁, hstale, hm₁⟩ := h₁.coalesced
  have hcoalesced : Coalesced NR_REGIONS m₁ :=
    ⟨segs₁, slots₁, hproper₁, hmerged₁, hlength₁, hstale, hm₁⟩
  have hpos : size.toNat ≠ 0 := (UInt64.lt_iff_toNat_lt.mp hsize).ne'
  rw [hm] at hok
  obtain ⟨segs', hbecomes, ⟨hzero, -⟩ | ⟨-, htarget, hmap⟩⟩ :=
    alloc_refines hproper hmerged start.toNat_lt rangeEnd.toNat_lt hok
  · exact absurd hzero hp
  have htag₁ : lookup segs₁ = lookup segs' := by
    rw [← tagAt_table hproper₁ slots₁ 0, ← hm₁, hbecomes.holds.tagAt_eq]
  have hspare : 2 ≤ slots.length := by
    by_contra hlt
    have halloc := memblockAlloc_table behind size.toNat align.toNat start.toNat rangeEnd.toNat nid
      exactNid (segs.map toRegion) slots 0
    simp only at halloc
    rw [if_pos (.inr ⟨hpos, not_le.mp hlt⟩), hok] at halloc
    exact hp (Prod.mk.inj (Except.ok.inj halloc)).2
  have hlt := target_add_lt size.toNat align.toNat start.toNat rangeEnd.toNat nid start.toNat_lt
    rangeEnd.toNat_lt (htarget ▸ hp)
  rw [← htarget] at hlt
  exact ⟨segs, segs₁, slots, slots₁, ⟨hproper, hmerged, hproper₁, hmerged₁, hlength, hlength₁,
    hspare, hlt, htag₁.trans hmap⟩, hm, hm₁, hcoalesced⟩

/-- Freeing completes; it does nothing if fewer than two entries are free. -/
theorem Coalesced.free_table {max : ℕ} (hmax : Coalesced max (table (segs.map toRegion) slots 0))
    (behind : Option MemblockRegion)
    (h : Proper segs) (hmerged : Merged segs) (hlt : b + size < 2 ^ 64) (hsize : size ≠ 0) :
    ∃ segs₂ slots₂, memblockFree behind (table (segs.map toRegion) slots 0) b size =
        .ok (table (segs₂.map toRegion) slots₂ 0) ∧ Proper segs₂ ∧ Merged segs₂ ∧
      (slots.length < 2 ∧ segs₂ = segs ∨
        2 ≤ slots.length ∧
          lookup segs₂ = MemoryMap.change b (b + size) freeTag (lookup segs)) := by
  obtain ⟨m₂, err, hupdate⟩ : ∃ m₂ err, updateRange behind (setclr false MEMBLOCK_RESERVED) _ _ _ =
      .ok (m₂, err) :=
    hmax.update_completes hlt (retags_setclr false MEMBLOCK_RESERVED)
  obtain ⟨segs₂, ⟨hproper₂, hmerged₂, slots₂, drift, hdrift, -, rfl⟩, heffect⟩ :=
    updateRange_effect h hmerged hlt (retags_setclr false MEMBLOCK_RESERVED) hupdate
  obtain rfl : drift = 0 := hdrift.elim id id
  refine ⟨segs₂, slots₂, ?_, hproper₂, hmerged₂, ?_⟩
  · rw [memblockFree, memblockSetclrFlag, hupdate]
    rfl
  · rcases heffect with ⟨-, hspace, rfl⟩ | ⟨-, hspace, hmap⟩
    · exact .inl ⟨hspace.2, rfl⟩
    · exact .inr ⟨not_lt.mp fun hlt => hspace ⟨hsize, hlt⟩, hmap⟩

/-- Undoing the change of a range restores what was recorded exactly if it restores every
tag in it. -/
theorem change_change_eq_iff (b e : ℕ) (f : MemoryMap) (g g' : Tag → Tag) :
    MemoryMap.change b e g' (MemoryMap.change b e g f) = f ↔
      ∀ a x, b ≤ a → a < e → f a = some x → g' (g x) = x := by
  constructor
  · intro heq a x hle hlt hx
    have ha := congrFun heq a
    rw [MemoryMap.change, if_pos ⟨hle, hlt⟩, MemoryMap.change, if_pos ⟨hle, hlt⟩, hx] at ha
    exact Option.some.inj ha
  · intro hback
    funext a
    rw [MemoryMap.change]
    split
    · rename_i hin
      rw [MemoryMap.change, if_pos hin]
      cases hx : f a with
      | none => rfl
      | some x => exact congrArg some (hback a x hin.1 hin.2 hx)
    · rename_i hout
      rw [MemoryMap.change, if_neg hout]

/-- Giving a block back at once restores the table exactly if none of its memory was marked
before and the marking has left two free entries. -/
theorem Reachable.free_alloc_iff (h : Reachable m) {size align start rangeEnd : UInt64}
    (hsize : 0 < size) (hp : p ≠ 0)
    (hok : memblockAlloc behind m size.toNat align.toNat start.toNat rangeEnd.toNat nid exactNid =
      .ok (m₁, p)) :
    (∃ m₂, memblockFree behind' m₁ p size.toNat = .ok m₂ ∧ m₂.live = m.live ∧ m₂.n = m.n ∧
      m₂.size = m.size) ↔ Restorable m p (p + size.toNat) := by
  obtain ⟨segs, segs₁, slots, slots₁, hmarks, rfl, rfl, hcoalesced⟩ := h.marks hsize hp hok
  have hpos : 0 < size.toNat := UInt64.lt_iff_toNat_lt.mp hsize
  obtain ⟨segs₂, slots₂, hfree, hproper₂, hmerged₂, heffect⟩ :=
    hcoalesced.free_table behind' hmarks.proper₁ hmarks.merged₁ hmarks.add_lt hpos.ne'
  have hback := change_change_eq_iff p (p + size.toNat) (lookup segs) reserveTag freeTag
  have hlive := live_eq_iff slots slots₂ hmarks.proper hmarks.merged hproper₂ hmerged₂
  have hroom := fun hunmarked =>
    length_reserve hmarks.proper hmarks.merged hmarks.proper₁ hmarks.merged₁
      (Nat.pos_of_ne_zero hp) (Nat.lt_add_of_pos_right hpos) hmarks.map_eq hunmarked
  have hlength := hmarks.length_eq
  have hlength₁ := hmarks.length_eq₁
  constructor
  · rintro ⟨m₂, hrun, hsame⟩
    obtain rfl := Except.ok.inj (hfree.symm.trans hrun)
    have hmap := hlive.mp hsame
    rcases heffect with ⟨hspace, rfl⟩ | ⟨hspace, heffect⟩
    · -- nothing was undone, yet the marking would have had to leave as many entries as before
      obtain rfl := eq_of_lookup_eq hmarks.proper₁.ordered hmarks.proper.ordered hmarks.merged₁
        hmarks.merged (congrFun hmap)
      have hspare := hmarks.spare
      omega
    · rw [heffect, hmarks.map_eq] at hmap
      have hunmarked : ∀ a x, p ≤ a → a < p + size.toNat → lookup segs a = some x →
          x.1 &&& MEMBLOCK_RESERVED = MEMBLOCK_NONE := fun a x hle hlt hx =>
        (freeTag_reserveTag_iff x).mp (hback.mp hmap a x hle hlt hx)
      have hcount := hroom hunmarked
      rw [← tagAt_table hmarks.proper slots 0] at hunmarked hcount
      refine ⟨hunmarked, ?_⟩
      rw [table_n, table_max, List.length_map]
      omega
  · rintro ⟨hunmarked, hfits⟩
    rw [tagAt_table hmarks.proper] at hunmarked hfits
    rw [table_n, table_max, List.length_map] at hfits
    have hcount := hroom hunmarked
    refine ⟨_, hfree, hlive.mpr ?_⟩
    rcases heffect with ⟨hspace, -⟩ | ⟨-, heffect⟩
    · omega
    · rw [heffect, hmarks.map_eq]
      exact hback.mpr fun a x hle hlt hx =>
        (freeTag_reserveTag_iff x).mpr (hunmarked a x hle hlt hx)

/-- The first page of the eight is given back. -/
theorem free_alloc_eightPages :
    ∃ m₁, memblockAlloc none eightPages 4096 4096 0 65536 (-1) false = .ok (m₁, 4096) ∧
      ∃ m₂, memblockFree none m₁ 4096 4096 = .ok m₂ ∧ m₂.live = eightPages.live ∧
        m₂.n = eightPages.n ∧ m₂.size = eightPages.size := by
  have hok : memblockAlloc none eightPages (4096 : UInt64).toNat (4096 : UInt64).toNat
      (0 : UInt64).toNat (65536 : UInt64).toNat (-1) false = .ok (tableOf 32768
        [⟨MEMBLOCK_RESERVED, 4096, 4096, 0⟩, ⟨MEMBLOCK_NONE, 8192, 28672, 0⟩] [], 4096) := by
    decide +kernel
  refine ⟨_, hok, (reachable_eightPages.free_alloc_iff (by decide) (by decide) hok).mpr ⟨?_, ?_⟩⟩
  · intro a x hle hlt hx
    have hlive : eightPages.live = [⟨MEMBLOCK_NONE, 4096, 32768, 0⟩] := by decide +kernel
    rw [Memblock.tagAt, hlive, Option.map_eq_some_iff] at hx
    obtain ⟨r, hr, rfl⟩ := hx
    rw [List.mem_singleton.mp (List.mem_of_find?_eq_some hr)]
    decide
  · decide +kernel

end Free

/-! ## Too few entries -/

theorem Reachable.addRanges {behind : Option MemblockRegion} {l : List Range} {m m' : Memblock}
    (h : Reachable m) (hl : ∀ r ∈ l, r.start + r.size < 2 ^ 64)
    (hok : addRanges behind l m = .ok m') : Reachable m' := by
  induction l generalizing m with
  | nil =>
      obtain rfl := Except.ok.inj hok
      exact h
  | cons r l ih =>
      have hr := hl r List.mem_cons_self
      rw [Memory.addRanges, List.foldlM_cons] at hok
      obtain ⟨m₁, hturn, hrest⟩ := Math.bind_eq_ok.mp hok
      obtain ⟨next, hadd, hnext⟩ := Math.bind_eq_ok.mp hturn
      obtain rfl := Except.ok.inj hnext
      have hstart : (UInt64.ofNat r.start).toNat = r.start :=
        UInt64.toNat_ofNat_of_lt' ((Nat.le_add_right _ _).trans_lt hr)
      have hsize : (UInt64.ofNat r.size).toNat = r.size :=
        UInt64.toNat_ofNat_of_lt' ((Nat.le_add_left _ _).trans_lt hr)
      have hstep : Memory.step behind m
          (.add (.ofNat r.start) (.ofNat r.size) (-1) MEMBLOCK_NONE) =
            .ok (next.1, .status next.2) := by
        rw [Memory.step, hstart, hsize, hadd]
        rfl
      have hkeeps : Call.KeepsMemory
          (.add (.ofNat r.start) (.ofNat r.size) (-1) MEMBLOCK_NONE) := trivial
      refine ih (.step h hkeeps ?_ hstep) (fun r hr => hl r (List.mem_cons_of_mem _ hr)) hrest
      rw [Call.Bounded, hstart, hsize]
      exact Nat.le_sub_one_of_lt hr

/-- The areas of `gaps`. -/
def gapAreas (n : ℕ) : List Area :=
  (List.range n).map fun i => ⟨i * 8192, i * 8192 + 4096, bootTag⟩

theorem gapAreas_succ (n : ℕ) :
    gapAreas (n + 1) = gapAreas n ++ [⟨n * 8192, n * 8192 + 4096, bootTag⟩] := by
  rw [gapAreas, gapAreas, List.range_succ, List.map_append, List.map_singleton]

theorem mem_gapAreas {n : ℕ} {s : Area} :
    s ∈ gapAreas n ↔ ∃ i < n, s = ⟨i * 8192, i * 8192 + 4096, bootTag⟩ := by
  simp only [gapAreas, List.mem_map, List.mem_range, eq_comm]

theorem ordered_gapAreas (n : ℕ) : Ordered (gapAreas n) := by
  induction n with
  | zero => trivial
  | succ n ih =>
      rw [gapAreas_succ, ordered_append]
      refine ⟨ih, ⟨?_, List.forall_mem_nil _, trivial⟩, ?_⟩
      · show n * 8192 < n * 8192 + 4096
        omega
      · intro s hs t ht
        obtain ⟨i, hi, rfl⟩ := mem_gapAreas.mp hs
        obtain rfl := List.mem_singleton.mp ht
        show i * 8192 + 4096 ≤ n * 8192
        omega

theorem merged_gapAreas (n : ℕ) : Merged (gapAreas n) := by
  rw [gapAreas, Merged, List.isChain_map]
  refine (List.isChain_range _ _).mpr fun i _ hjoins => ?_
  have hmeet : i * 8192 + 4096 = (i + 1) * 8192 := hjoins.1
  omega

/-- A table that records `gaps` has just its areas. -/
theorem eq_gapAreas {n : ℕ} {segs : List Area} (h : Ordered segs) (hmerged : Merged segs)
    (hx : Uniform bootTag segs) (hcovered : covered segs = bytesOf (gaps n)) :
    segs = gapAreas n := by
  have huniform : Uniform bootTag (gapAreas n) := by
    intro s hs
    obtain ⟨i, -, rfl⟩ := mem_gapAreas.mp hs
    rfl
  refine eq_of_lookup_eq h (ordered_gapAreas n) hmerged (merged_gapAreas n) fun a => ?_
  have hsome : (lookup segs a).isSome ↔ (lookup (gapAreas n) a).isSome := by
    have hmem : a ∈ covered segs ↔ a ∈ bytesOf (gaps n) := by rw [hcovered]
    rw [mem_bytesOf_gaps] at hmem
    refine hmem.trans ⟨?_, ?_⟩
    · rintro ⟨i, hi, hle, hlt⟩
      exact lookup_isSome_iff.mpr ⟨_, mem_gapAreas.mpr ⟨i, hi, rfl⟩, hle, hlt⟩
    · intro hsome
      obtain ⟨s, hs, hle, hlt⟩ := lookup_isSome_iff.mp hsome
      obtain ⟨i, hi, rfl⟩ := mem_gapAreas.mp hs
      exact ⟨i, hi, hle, hlt⟩
  cases hold : lookup segs a with
  | none =>
      rw [hold] at hsome
      exact (Option.not_isSome_iff_eq_none.mp fun h => nomatch hsome.mpr h).symm
  | some x =>
      rw [hold] at hsome
      obtain ⟨y, hy⟩ := Option.isSome_iff_exists.mp (hsome.mp rfl)
      rw [hy, hx.lookup hold, huniform.lookup hy]

/-- 126 separate pages leave two free entries. Half of the second one can be taken, which
leaves one; giving it back then does nothing. -/
theorem not_free_alloc_gaps :
    ∃ m m₁ m₂, addRanges none (gaps 126) memory = .ok m ∧ Reachable m ∧
      memblockAlloc none m 2048 2048 0 65536 (-1) false = .ok (m₁, 8192) ∧
      memblockFree none m₁ 8192 2048 = .ok m₂ ∧ m.n = 126 ∧ m₂.n = 127 := by
  have hregions : NR_REGIONS = 128 := rfl
  obtain ⟨m, hadd, segs, slots, hproper, hmerged, hlength, hslots, hm, hx, hcovered⟩ :=
    gaps_records (show 126 < NR_REGIONS by decide)
  obtain rfl := eq_gapAreas hproper.ordered hmerged hx hcovered
  have hranges : ∀ r ∈ gaps 126, r.start + r.size < 2 ^ 64 := by
    intro r hr
    obtain ⟨i, hi, rfl⟩ := List.mem_map.mp hr
    have hlt := List.mem_range.mp hi
    show i * 8192 + 4096 < 2 ^ 64
    omega
  have hreachable : Reachable m := Reachable.memory.addRanges hranges hadd
  have hareas : (gapAreas 126).length = 126 := by
    rw [gapAreas, List.length_map, List.length_range]
  have htarget : target 2048 2048 0 65536 (-1) false ((gapAreas 126).map toRegion) = 8192 := by
    decide +kernel
  obtain ⟨m₁, err, hmark⟩ : ∃ m₁ err,
      updateRange none (setclr true MEMBLOCK_RESERVED) m 8192 2048 = .ok (m₁, err) :=
    hreachable.coalesced.update_completes (by decide) (retags_setclr true MEMBLOCK_RESERVED)
  have halloc : memblockAlloc none m 2048 2048 0 65536 (-1) false = .ok (m₁, 8192) := by
    have hnone : ¬ (8192 = 0 ∨ NoSpace 2048 slots) := by
      rw [not_or]
      exact ⟨by decide, fun hspace => absurd hspace.2 (by omega)⟩
    have htable := memblockAlloc_table none 2048 2048 0 65536 (-1) false
      ((gapAreas 126).map toRegion) slots 0
    simp only [htarget] at htable
    rw [if_neg hnone, ← hm, memblockSetclrFlag, hmark] at htable
    exact htable
  have hsize : (0 : UInt64) < 2048 := by decide
  have hok : memblockAlloc none m (2048 : UInt64).toNat (2048 : UInt64).toNat (0 : UInt64).toNat
      (65536 : UInt64).toNat (-1) false = .ok (m₁, 8192) := halloc
  obtain ⟨segs, segs₁, slots', slots₁, hmarks, hm', rfl, hcoalesced⟩ :=
    hreachable.marks hsize (by decide) hok
  have hmap : lookup segs = lookup (gapAreas 126) := by
    rw [← tagAt_table hmarks.proper slots' 0, ← hm', hm, tagAt_table hproper]
  obtain rfl := eq_of_lookup_eq hmarks.proper.ordered hproper.ordered hmarks.merged hmerged
    (congrFun hmap)
  have hunmarked : ∀ a x, 8192 ≤ a → a < 8192 + (2048 : UInt64).toNat →
      lookup (gapAreas 126) a = some x → x.1 &&& MEMBLOCK_RESERVED = MEMBLOCK_NONE := by
    intro a x _ _ ha
    rw [hx.lookup ha]
    decide
  have hcount := length_reserve hproper hmerged hmarks.proper₁ hmarks.merged₁ (by decide)
    (by decide) hmarks.map_eq hunmarked
  have hleft : edge reserveTag (lookup (gapAreas 126) 8192)
      (lookup (gapAreas 126) (8192 - 1)) = 0 := by
    decide +kernel
  have hright : edge reserveTag (lookup (gapAreas 126) (8192 + (2048 : UInt64).toNat - 1))
      (lookup (gapAreas 126) (8192 + (2048 : UInt64).toNat)) = 1 := by
    decide +kernel
  rw [hleft, hright] at hcount
  have hlength₁ := hmarks.length_eq₁
  obtain ⟨segs₂, slots₂, hfree, -, -, ⟨-, rfl⟩ | ⟨hspace, -⟩⟩ :=
    hcoalesced.free_table none hmarks.proper₁ hmarks.merged₁ hmarks.add_lt (by decide)
  · refine ⟨m, _, _, hadd, hreachable, halloc, hfree, ?_, ?_⟩
    · rw [hm, table_n, List.length_map, hareas]
    · rw [table_n, List.length_map]
      omega
  · omega

end Cyanea.Memory
