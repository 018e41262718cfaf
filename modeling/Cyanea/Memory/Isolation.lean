/-
# Isolating and removing a range of any sorted table

The tables here need not come from a run: their regions are sorted, disjoint, not empty,
and lie in the address space of 2^64 bytes. The end of a region that reaches up to 2^64 is
0 for the code, so `isolate_range` passes over it.
-/

import Cyanea.Math.Pieces
import Cyanea.Memory.Effects
import Mathlib.Data.Nat.ModEq

namespace Cyanea.Memory

open Cyanea.Math Cyanea.Math.Segments

/-- The live regions are sorted, disjoint, not empty, and lie in the address space. -/
structure Sorted (m : Memblock) : Prop where
  fits : Fits m
  nonempty : ∀ r ∈ m.live, 0 < r.size
  sorted : m.live.Pairwise fun r r' => r.base + r.size ≤ r'.base
  top_le : ∀ r ∈ m.live, r.base + r.size ≤ 2 ^ 64

/-- Two regions of different sizes. -/
def twoRegions : Memblock :=
  tableOf 12288 [⟨MEMBLOCK_NONE, 4096, 4096, 0⟩, ⟨MEMBLOCK_NONE, 12288, 8192, 0⟩] []

theorem sorted_twoRegions : Sorted twoRegions :=
  ⟨⟨by decide, by decide +kernel, by decide⟩, by decide +kernel, by decide +kernel,
    by decide +kernel⟩

/-- The region lies in the range. -/
def MemblockRegion.Inside (b e : ℕ) (r : MemblockRegion) : Prop := b ≤ r.base ∧ r.base + r.size ≤ e

/-! ## Sorted tables as areas -/

/-- The area of a region. -/
def toArea (r : MemblockRegion) : Area := ⟨r.base, r.base + r.size, (r.flags, r.nid)⟩

theorem toRegion_toArea (r : MemblockRegion) : toRegion (toArea r) = r := by
  rw [toRegion, toArea]
  simp only [Nat.add_sub_cancel_left]

theorem map_toRegion_toArea (live : List MemblockRegion) :
    (live.map toArea).map toRegion = live := by
  rw [List.map_map]
  exact (List.map_congr_left fun r _ => toRegion_toArea r).trans (List.map_id live)

theorem ordered_toArea {live : List MemblockRegion} (hpos : ∀ r ∈ live, 0 < r.size)
    (h : live.Pairwise fun r r' => r.base + r.size ≤ r'.base) : Ordered (live.map toArea) := by
  induction live with
  | nil => trivial
  | cons r live ih =>
      obtain ⟨hr, hlive⟩ := List.forall_mem_cons.mp hpos
      obtain ⟨hle, hrest⟩ := List.pairwise_cons.mp h
      refine ⟨Nat.lt_add_of_pos_right hr, ?_, ih hlive hrest⟩
      intro t ht
      obtain ⟨r', hr', rfl⟩ := List.mem_map.mp ht
      exact hle r' hr'

/-- Only the last area of an ordered list can end at 2^64. -/
theorem exists_front_top {segs : List Area} (h : Ordered segs) (hle : ∀ s ∈ segs, s.hi ≤ 2 ^ 64) :
    ∃ front top, segs = front ++ top ∧ Proper front ∧ ∀ t ∈ top, t.hi = 2 ^ 64 := by
  induction segs with
  | nil => exact ⟨[], [], rfl, proper_nil, List.forall_mem_nil _⟩
  | cons s segs ih =>
      obtain ⟨hs, hsegs⟩ := List.forall_mem_cons.mp hle
      obtain ⟨front, top, rfl, hfront, htop⟩ := ih h.2.2 hsegs
      by_cases hend : s.hi = 2 ^ 64
      · refine ⟨[], s :: (front ++ top), rfl, proper_nil, ?_⟩
        refine List.forall_mem_cons.mpr ⟨hend, fun t ht => ?_⟩
        have hlo := h.2.1 t ht
        have hlt := h.2.2.lo_lt_hi ht
        have hhi := hsegs t ht
        omega
      · have hhi : ∀ t ∈ s :: front, t.hi < 2 ^ 64 :=
          List.forall_mem_cons.mpr ⟨by omega, hfront.hi_lt⟩
        have hordered : Ordered (s :: front) := And.left <| ordered_append.mp <|
          show Ordered (s :: front ++ top) from h
        exact ⟨s :: front, top, rfl, ⟨hordered, hhi⟩, htop⟩

/-- The table of areas of which those of `top` end at 2^64. -/
structure Shape (m : Memblock) (front top : List Area) : Prop where
  ordered : Ordered (front ++ top)
  proper : Proper front
  hi_eq : ∀ t ∈ top, t.hi = 2 ^ 64
  eq_table : ∃ slots drift, m = table ((front ++ top).map toRegion) slots drift

theorem Sorted.shape {m : Memblock} (h : Sorted m) : ∃ front top, Shape m front top := by
  obtain ⟨live, slots, drift, rfl⟩ := h.fits.eq_table
  obtain ⟨-, hpos, hsorted, htop⟩ := h
  rw [live_table] at hpos hsorted htop
  have hle : ∀ s ∈ live.map toArea, s.hi ≤ 2 ^ 64 := by
    intro s hs
    obtain ⟨r, hr, rfl⟩ := List.mem_map.mp hs
    exact htop r hr
  have hordered := ordered_toArea hpos hsorted
  obtain ⟨front, top, heq, hproper, hend⟩ := exists_front_top hordered hle
  rw [heq] at hordered
  refine ⟨front, top, hordered, hproper, hend, slots, drift, ?_⟩
  rw [← heq, map_toRegion_toArea]

section Shape

variable {m : Memblock} {front top : List Area}

theorem Shape.tagAt_eq (h : Shape m front top) : m.tagAt = lookup (front ++ top) := by
  obtain ⟨hordered, -, -, slots, drift, rfl⟩ := h
  exact tagAt_table_ordered hordered slots drift

theorem Shape.sorted (h : Shape m front top) : Sorted m := by
  obtain ⟨hordered, hproper, htop, slots, drift, rfl⟩ := h
  refine ⟨fits_table _ _ _, ?_, ?_, ?_⟩
  · rw [live_table]
    intro r hr
    obtain ⟨s, hs, rfl⟩ := List.mem_map.mp hr
    exact Nat.sub_pos_of_lt (hordered.lo_lt_hi hs)
  · rw [live_table]
    exact pairwise_toRegion hordered
  · rw [live_table]
    intro r hr
    obtain ⟨s, hs, rfl⟩ := List.mem_map.mp hr
    have hlt := hordered.lo_lt_hi hs
    have hhi : s.hi ≤ 2 ^ 64 := (List.mem_append.mp hs).elim
      (fun hs => (hproper.hi_lt s hs).le) fun hs => (htop s hs).le
    show s.lo + (s.hi - s.lo) ≤ 2 ^ 64
    omega

end Shape

/-! ## Isolating -/

/-- Regions whose end the code does not place behind the start of the range are passed
over. -/
theorem isolateRegions_append {b e : ℕ} {top : List MemblockRegion}
    (htop : ∀ r ∈ top, r.regionEnd ≤ b) (live : List MemblockRegion) :
    isolateRegions b e (live ++ top) = isolateRegions b e live ++ top := by
  induction live with
  | nil =>
      show isolateRegions b e top = top
      induction top with
      | nil => rfl
      | cons r top ih =>
          obtain ⟨hr, hrest⟩ := List.forall_mem_cons.mp htop
          rw [isolateRegions, if_pos hr, ih hrest]
          exact ite_self _
  | cons r live ih =>
      have hinner : ∀ r', isolateInner b e r' (live ++ top) (isolateRegions b e (live ++ top)) =
          isolateInner b e r' live (isolateRegions b e live) ++ top := by
        intro r'
        rw [isolateInner, isolateInner, ih]
        split_ifs <;> rfl
      rw [List.cons_append, isolateRegions, isolateRegions, hinner, hinner, ih]
      split_ifs <;> rfl

theorem isolateIndices_append {b e : ℕ} {top : List MemblockRegion}
    (htop : ∀ r ∈ top, r.regionEnd ≤ b) (live : List MemblockRegion) (i : ℕ) (range : ℕ × ℕ) :
    isolateIndices b e (live ++ top) i range = isolateIndices b e live i range := by
  induction live generalizing i range with
  | nil =>
      show isolateIndices b e top i range = range
      induction top generalizing i with
      | nil => rfl
      | cons r top ih =>
          obtain ⟨hr, hrest⟩ := List.forall_mem_cons.mp htop
          rw [isolateIndices, if_pos hr, ih hrest]
          exact ite_self _
  | cons r live ih =>
      have hrest : isolateIndices b e (live ++ top) = isolateIndices b e live := by
        funext i range
        exact ih i range
      rw [List.cons_append, isolateIndices, isolateIndices, hrest]

theorem regionEnd_top {t : Area} (hlt : t.lo < t.hi) (htop : t.hi = 2 ^ 64) :
    (toRegion t).regionEnd = 0 := by
  have hsum : t.lo + (t.hi - t.lo) = 2 ^ 64 := by omega
  show (t.lo + (t.hi - t.lo)) % 2 ^ 64 = 0
  rw [hsum, Nat.mod_self]

/-- Where the elements with a property stand in a list. -/
theorem window_iff_of_getElem? {α : Type} {P : α → Prop} {pre mid post : List α}
    (hpre : ∀ x ∈ pre, ¬ P x) (hmid : ∀ x ∈ mid, P x) (hpost : ∀ x ∈ post, ¬ P x) {i : ℕ} {x : α}
    (hx : (pre ++ mid ++ post)[i]? = some x) :
    pre.length ≤ i ∧ i < pre.length + mid.length ↔ P x := by
  rcases lt_or_ge i pre.length with hi | hi
  · rw [List.append_assoc, List.getElem?_append_left hi] at hx
    exact iff_of_false (by omega) (hpre x (List.mem_of_getElem? hx))
  rw [List.append_assoc, List.getElem?_append_right hi] at hx
  rcases lt_or_ge (i - pre.length) mid.length with hmidlt | hmidle
  · rw [List.getElem?_append_left hmidlt] at hx
    exact iff_of_true ⟨hi, by omega⟩ (hmid x (List.mem_of_getElem? hx))
  · rw [List.getElem?_append_right hmidle] at hx
    exact iff_of_false (by omega) (hpost x (List.mem_of_getElem? hx))

/-- What `isolate_range` has done when it succeeds: no more than two regions were cut, no
address has changed, and the indices delimit the regions inside the range. -/
structure Isolated (m : Memblock) (b e : ℕ) (iso : IsolateResult) : Prop where
  sorted : Sorted iso.memory
  max_eq : iso.memory.max = m.max
  n_le : iso.memory.n ≤ m.n + 2
  tagAt_eq : iso.memory.tagAt = m.tagAt
  inside_iff : ∀ i r, iso.memory.live[i]? = some r →
    (iso.startRange ≤ i ∧ i < iso.endRange ↔ r.Inside b e)
  end_le : iso.endRange ≤ iso.memory.n
  none_inside : (∀ r ∈ iso.memory.live, ¬ r.Inside b e) →
    iso.startRange = 0 ∧ iso.endRange = 0

/-- How the areas of a table lie around the range once it is isolated. -/
structure Around (b e : ℕ) (front top before inside behind : List Area) : Prop where
  isolate_eq : isolate b e front = before ++ inside ++ behind
  parts : Parts b e before inside behind
  ordered : Ordered (before ++ inside ++ (behind ++ top))
  behind_not : ∀ s ∈ behind ++ top, ¬ s.Inside b e
  before_not : ∀ s ∈ before, ¬ s.Inside b e

theorem inside_toRegion {b e : ℕ} {s : Area} (h : s.lo < s.hi) :
    (toRegion s).Inside b e ↔ s.Inside b e := by
  have hsum : s.lo + (s.hi - s.lo) = s.hi := by omega
  rw [MemblockRegion.Inside, Segment.Inside, toRegion, hsum]

section Isolate

variable {m : Memblock} {front top : List Area} {base size : ℕ}

/-- With two free slots, `isolate_range` cuts the areas at the ends of the range. -/
theorem isolateRange_shape {slots : List MemblockRegion} (drift : ℕ)
    (hordered : Ordered (front ++ top)) (hproper : Proper front) (htop : ∀ t ∈ top, t.hi = 2 ^ 64)
    (hsize : size ≠ 0) (hlt : base + size ≤ 2 ^ 64 - 1) (hslots : 2 ≤ slots.length) :
    ∃ before inside behind, Around base (base + size) front top before inside behind ∧
      isolateRegions base (add64 base size) ((front ++ top).map toRegion) =
        (before ++ inside ++ (behind ++ top)).map toRegion ∧
      isolateIndices base (add64 base size) ((front ++ top).map toRegion) 0 (0, 0) =
        windowOf before.length inside ∧
      isolateRange (table ((front ++ top).map toRegion) slots drift) base size =
        .ok ⟨SUCCESS, (windowOf before.length inside).1, (windowOf before.length inside).2,
          table ((before ++ inside ++ (behind ++ top)).map toRegion)
            (slots.drop ((before ++ inside ++ behind).length - front.length)) drift⟩ := by
  have hend : add64 base size = base + size := add64_eq (by omega)
  have hbe : base < base + size := by omega
  have hskip : ∀ r ∈ top.map toRegion, r.regionEnd ≤ base := by
    intro r hr
    obtain ⟨t, ht, rfl⟩ := List.mem_map.mp hr
    have hlo := hordered.lo_lt_hi (List.mem_append_right front ht)
    rw [regionEnd_top hlo (htop t ht)]
    exact Nat.zero_le base
  obtain ⟨before, inside, behind, hisolate, hparts, hindices⟩ := isolateIndices_toRegion hbe hproper 0
  have hregions := isolateRegions_toRegion hbe (show base + size < 2 ^ 64 by omega) hproper
  have hcut : Ordered (before ++ inside ++ behind) := hisolate ▸ hproper.ordered.isolate
  obtain ⟨-, htops, hcross⟩ := ordered_append.mp hordered
  have hwhole : Ordered (before ++ inside ++ (behind ++ top)) := by
    rw [← List.append_assoc]
    refine ordered_append.mpr ⟨hcut, htops, fun s hs t ht => ?_⟩
    -- the last key of `s` lies in an area of `front`, so before `t`
    have hlast : (lookup (isolate base (base + size) front) (s.hi - 1)).isSome := by
      rw [hisolate]
      have hs' := hcut.lo_lt_hi hs
      exact lookup_isSome_iff.mpr ⟨s, hs, by omega, by omega⟩
    rw [lookup_isolate] at hlast
    obtain ⟨u, hu, hcov⟩ := lookup_isSome_iff.mp hlast
    have hut := hcross u hu t ht
    have hhi := hcov.2
    omega
  have hround : Around base (base + size) front top before inside behind := by
    refine ⟨hisolate, hparts, hwhole, ?_, fun s hs => hparts.not_inside_of_before hcut hs⟩
    intro s hs
    rcases List.mem_append.mp hs with hs | hs
    · exact hparts.not_inside_of_behind hcut hs
    · intro hin
      have hhi := htop s hs
      have hle := hin.2
      omega
  have hregions' : isolateRegions base (base + size) ((front ++ top).map toRegion) =
      (before ++ inside ++ (behind ++ top)).map toRegion := by
    rw [List.map_append, isolateRegions_append hskip, hregions, hisolate, ← List.map_append,
      List.append_assoc]
  have hindices' : isolateIndices base (base + size) ((front ++ top).map toRegion) 0 (0, 0) =
      windowOf before.length inside := by
    rw [List.map_append, isolateIndices_append hskip, hindices, Nat.zero_add]
  have hcount : (before ++ inside ++ behind).length ≤ front.length + 2 :=
    hisolate ▸ Segments.length_isolate_le base (base + size) front
  have hlength : (before ++ inside ++ (behind ++ top)).length - (front ++ top).length =
      (before ++ inside ++ behind).length - front.length := by
    rw [← List.append_assoc, List.length_append, @List.length_append _ front]
    omega
  refine ⟨before, inside, behind, hround, hend ▸ hregions', hend ▸ hindices', ?_⟩
  have htable := isolateRange_table base hsize ((front ++ top).map toRegion) slots drift
  simp only [hend, hregions', hindices', List.length_map, hlength] at htable
  rw [htable, if_neg (by omega), if_pos ?_]
  rw [← List.append_assoc, List.length_append, @List.length_append _ front]
  omega

theorem Around.isolated {before inside behind : List Area} {slots slots' : List MemblockRegion}
    {drift : ℕ} (h : Around base (base + size) front top before inside behind)
    (hshape : Shape m front top) (hm : m = table ((front ++ top).map toRegion) slots drift)
    (hslots : (before ++ inside ++ behind).length + slots'.length =
      front.length + slots.length) :
    Isolated m base (base + size) ⟨SUCCESS, (windowOf before.length inside).1,
      (windowOf before.length inside).2,
      table ((before ++ inside ++ (behind ++ top)).map toRegion) slots' drift⟩ := by
  obtain ⟨hisolate, hparts, hordered, hbehind, hbefore⟩ := h
  have hproper : Proper (before ++ inside ++ behind) := hisolate ▸ hshape.proper.isolate
  have hcut := Segments.length_isolate_le base (base + size) front
  rw [hisolate] at hcut
  have hordered' : Ordered (before ++ inside ++ behind ++ top) := by
    rwa [List.append_assoc]
  have hshape' : Shape (table ((before ++ inside ++ (behind ++ top)).map toRegion) slots' drift)
      (before ++ inside ++ behind) top := by
    refine ⟨hordered', hproper, hshape.hi_eq, slots', drift, ?_⟩
    rw [List.append_assoc (before ++ inside)]
  have hinside : ∀ s ∈ before ++ inside ++ (behind ++ top),
      ((toRegion s).Inside base (base + size) ↔ s.Inside base (base + size)) :=
    fun s hs => inside_toRegion (hordered.lo_lt_hi hs)
  have hwindow : ∀ i s, (before ++ inside ++ (behind ++ top))[i]? = some s →
      (before.length ≤ i ∧ i < before.length + inside.length ↔
        s.Inside base (base + size)) :=
    fun _ _ hs => window_iff_of_getElem? hbefore hparts.inside hbehind hs
  refine ⟨hshape'.sorted, ?_, ?_, ?_, ?_, ?_, ?_⟩
  · rw [hm, table_max, table_max, List.length_map, List.length_map, ← List.append_assoc,
      List.length_append, @List.length_append _ front]
    omega
  · rw [hm, table_n, table_n, List.length_map, List.length_map, ← List.append_assoc,
      List.length_append, @List.length_append _ front]
    omega
  · rw [hshape'.tagAt_eq, hshape.tagAt_eq]
    funext a
    rw [← hisolate, lookup_append, lookup_append, lookup_isolate]
  · intro i r hr
    rw [live_table, List.getElem?_map] at hr
    obtain ⟨s, hs, rfl⟩ := Option.map_eq_some_iff.mp hr
    rw [hinside s (List.mem_of_getElem? hs), ← hwindow i s hs, windowOf]
    split
    · rename_i hnone
      rw [hnone, List.length_nil, Nat.add_zero]
      exact iff_of_false (fun hi => Nat.not_lt_zero i hi.2) (fun hi => absurd hi.2 (not_lt.mpr hi.1))
    · rfl
  · rw [table_n, List.length_map, windowOf]
    split
    · exact Nat.zero_le _
    · simp only [List.length_append]
      omega
  · intro hnone
    have hempty : inside = [] := by
      refine List.eq_nil_iff_forall_not_mem.mpr fun s hs => ?_
      have hmem : s ∈ before ++ inside ++ (behind ++ top) :=
        List.mem_append_left _ (List.mem_append_right _ hs)
      refine hnone (toRegion s) ?_ ((hinside s hmem).mpr (hparts.inside s hs))
      rw [live_table]
      exact List.mem_map_of_mem hmem
    rw [windowOf, if_pos hempty]
    exact ⟨rfl, rfl⟩

/-- Isolating a range of no bytes does nothing. -/
theorem isolated_empty (h : Sorted m) : Isolated m base base ⟨SUCCESS, 0, 0, m⟩ := by
  have hnot : ∀ r ∈ m.live, ¬ r.Inside base base := by
    intro r hr hin
    have hpos := h.nonempty r hr
    have hlo := hin.1
    have hhi := hin.2
    omega
  refine ⟨h, rfl, Nat.le_add_right _ _, rfl, ?_, Nat.zero_le _, fun _ => ⟨rfl, rfl⟩⟩
  intro i r hr
  exact iff_of_false (fun hi => absurd hi.2 (Nat.not_lt_zero i)) (hnot r (List.mem_of_getElem? hr))

/-- `isolate_range` never stops at the assertion of `insert_region`: it reports that the
table is full, and so do the operations that rest on it, or it isolates the range. -/
theorem Sorted.isolateRange_safe (h : Sorted m) (hlt : base + size ≤ 2 ^ 64 - 1)
    (behind : Option MemblockRegion) :
    ∃ iso, isolateRange m base size = .ok iso ∧
      (iso.err = -ENOSPC ∧ iso.memory = m ∧
          memblockRemove m base size = .ok (m, -ENOSPC) ∧
          (∀ set flags, memblockSetclrFlag behind m base size set flags = .ok (m, -ENOSPC)) ∧
          (∀ nid, memblockSetNode behind m base size nid = .ok (m, -ENOSPC)) ∨
        iso.err = SUCCESS ∧ Isolated m base (base + size) iso) := by
  by_cases hsize : size = 0
  · subst hsize
    exact ⟨_, isolateRange_empty m base, .inr ⟨rfl, isolated_empty h⟩⟩
  obtain ⟨front, top, hshape⟩ := h.shape
  obtain ⟨slots, drift, hm⟩ := hshape.eq_table
  rcases lt_or_ge slots.length 2 with hspace | hspace
  · have hremove := memblockRemove_table base hsize ((front ++ top).map toRegion) slots drift
    simp only [if_pos hspace] at hremove
    refine ⟨⟨-ENOSPC, 0, 0, m⟩, ?_, .inl ⟨rfl, rfl, ?_, ?_, ?_⟩⟩
    · rw [hm, isolateRange_table base hsize, if_pos hspace]
    · rw [hm]
      exact hremove
    · intro set flags
      rw [hm]
      exact updateRange_noSpace behind (setclr_size set flags) ⟨hsize, hspace⟩ _ _ _
    · intro nid
      rw [hm]
      exact updateRange_noSpace behind (retags_setNode nid).size_eq ⟨hsize, hspace⟩ _ _ _
  · obtain ⟨before, inside, behind, haround, -, -, hok⟩ := isolateRange_shape drift
      hshape.ordered hshape.proper hshape.hi_eq hsize hlt hspace
    have hcut := Segments.length_isolate_le base (base + size) front
    rw [haround.isolate_eq] at hcut
    have hle : front.length ≤ (before ++ inside ++ behind).length := by
      rw [← haround.isolate_eq]
      exact le_length_isolate base (base + size) front
    refine ⟨_, hm ▸ hok, .inr ⟨rfl, haround.isolated hshape hm ?_⟩⟩
    rw [List.length_drop]
    omega

end Isolate

/-- A range that cuts both regions. -/
theorem isolateRange_twoRegions :
    ∃ iso, isolateRange twoRegions 6144 8192 = .ok iso ∧
      (iso.err = -ENOSPC ∧ iso.memory = twoRegions ∧
          memblockRemove twoRegions 6144 8192 = .ok (twoRegions, -ENOSPC) ∧
          (∀ set flags,
            memblockSetclrFlag none twoRegions 6144 8192 set flags = .ok (twoRegions, -ENOSPC)) ∧
          (∀ nid, memblockSetNode none twoRegions 6144 8192 nid = .ok (twoRegions, -ENOSPC)) ∨
        iso.err = SUCCESS ∧ Isolated twoRegions 6144 (6144 + 8192) iso) :=
  sorted_twoRegions.isolateRange_safe (by decide) none

/-! ## Removing -/

/-- The region has an address in the range. -/
def MemblockRegion.Meets (b e : ℕ) (r : MemblockRegion) : Prop :=
  max r.base b < min (r.base + r.size) e

instance (b e : ℕ) (r : MemblockRegion) : Decidable (r.Meets b e) :=
  inferInstanceAs (Decidable (_ < _))

/-- How many addresses of the range the region has. -/
def MemblockRegion.part (b e : ℕ) (r : MemblockRegion) : ℕ :=
  min (r.base + r.size) e - max r.base b

/-- The regions that meet the range. -/
def Memblock.meeting (m : Memblock) (b e : ℕ) : List MemblockRegion :=
  m.live.filter fun r => r.Meets b e

/-- The first region that goes beyond `e`. -/
def Memblock.beyond (m : Memblock) (e : ℕ) : Option MemblockRegion :=
  m.live.find? fun r => e < r.base + r.size

/-- The range is no longer memory, nothing else has changed, and the size is right. -/
structure Removed (m m' : Memblock) (b e : ℕ) : Prop where
  gone : ∀ a, b ≤ a → a < e → ¬ ∃ r ∈ m'.live, r.Covers a
  outside : ∀ a, ¬ (b ≤ a ∧ a < e) → m'.tagAt a = m.tagAt a
  size_eq : memblockPhysMemSize m' = (m'.live.map MemblockRegion.size).sum

/-- The range meets no region that ends at 2^64; and if a region goes beyond it, then the
regions that meet it have as many addresses in it, modulo 2^64, as if each had the size of
what is left of that region. -/
structure RemovesExactly (m : Memblock) (b e : ℕ) : Prop where
  hi_lt : ∀ r ∈ m.meeting b e, r.base + r.size < 2 ^ 64
  size : ∀ r, m.beyond e = some r → (m.meeting b e).length * (r.base + r.size - max r.base e) ≡
    ((m.meeting b e).map (MemblockRegion.part b e)).sum [MOD 2 ^ 64]

section Remove

variable {m m' : Memblock} {front top : List Area} {base size b e : ℕ}

theorem meets_toRegion {s : Area} (h : s.lo < s.hi) :
    (toRegion s).Meets b e ↔ Segments.Meets b e s := by
  have hsum : s.lo + (s.hi - s.lo) = s.hi := by omega
  rw [MemblockRegion.Meets, Segments.Meets, toRegion, hsum]

theorem part_toRegion {s : Area} (h : s.lo < s.hi) :
    (toRegion s).part b e = (clip b e s).hi - (clip b e s).lo := by
  have hsum : s.lo + (s.hi - s.lo) = s.hi := by omega
  rw [MemblockRegion.part, clip, toRegion, hsum]

theorem Shape.meeting_eq (h : Shape m front top) :
    m.meeting b e = ((front ++ top).filter fun s => Segments.Meets b e s).map toRegion := by
  obtain ⟨hordered, -, -, slots, drift, rfl⟩ := h
  rw [Memblock.meeting, live_table, List.filter_map]
  congr 1
  exact List.filter_congr fun s hs => decide_eq_decide.mpr (meets_toRegion (hordered.lo_lt_hi hs))

theorem Shape.beyond_eq (h : Shape m front top) :
    m.beyond e = ((front ++ top).find? fun s => e < s.hi).map toRegion := by
  obtain ⟨hordered, -, -, slots, drift, rfl⟩ := h
  rw [Memblock.beyond, live_table, List.find?_map, ← List.head?_filter, ← List.head?_filter]
  congr 2
  refine List.filter_congr fun s hs => decide_eq_decide.mpr ?_
  have hlt := hordered.lo_lt_hi hs
  show e < s.lo + (s.hi - s.lo) ↔ e < s.hi
  omega

/-- An area at the top that does not meet the range lies behind it. -/
theorem le_lo_of_not_meets {t : Area} (hbe : b < e) (he : e < 2 ^ 64) (htop : t.hi = 2 ^ 64)
    (h : ¬ Segments.Meets b e t) : e ≤ t.lo := by
  rw [Segments.Meets, htop] at h
  omega

/-- If no area at the top meets the range, removing the pieces inside leaves nothing of it. -/
theorem Around.lookup_removed {before inside behind : List Area}
    (h : Around b e front top before inside behind) (hle : ∀ t ∈ top, e ≤ t.lo) (a : ℕ) :
    lookup (before ++ (behind ++ top)) a =
      if b ≤ a ∧ a < e then none else lookup (front ++ top) a := by
  obtain ⟨hisolate, hparts, hordered, -, -⟩ := h
  have hparts' : Parts b e before inside (behind ++ top) := by
    refine ⟨hparts.before_le, hparts.inside, fun s hs => ?_⟩
    exact (List.mem_append.mp hs).elim (hparts.le_behind s) (hle s)
  have halign : Aligned b e (before ++ inside ++ (behind ++ top)) := by
    intro s hs
    rcases List.mem_append.mp hs with hs | hs
    · rcases List.mem_append.mp hs with hs | hs
      · exact .inl (hparts'.before_le s hs)
      · exact .inr (.inr (hparts'.inside s hs))
    · exact .inr (.inl (hparts'.le_behind s hs))
  have hwhole : lookup (before ++ inside ++ (behind ++ top)) a = lookup (front ++ top) a := by
    rw [← List.append_assoc, ← hisolate, lookup_append, lookup_append, lookup_isolate]
  rw [← erase_parts hparts' hordered, lookup_erase hordered halign, hwhole]

/-- The run of `memblock_remove` on a table with two free slots. -/
theorem memblockRemove_shape {slots : List MemblockRegion} {drift : ℕ}
    (h : Shape m front top) (hm : m = table ((front ++ top).map toRegion) slots drift)
    (hsize : size ≠ 0) (hlt : base + size ≤ 2 ^ 64 - 1) (hslots : 2 ≤ slots.length) :
    ∃ before inside behind slots' drift',
      Around base (base + size) front top before inside behind ∧
      memblockRemove m base size =
        .ok (table ((before ++ (behind ++ top)).map toRegion) slots' drift', SUCCESS) ∧
      (total (before ++ (behind ++ top)) + drift' + (inside.map fun s =>
          (((behind ++ top).map toRegion).headD (toRegion s)).size).sum) % 2 ^ 64 =
        (total (front ++ top) + drift) % 2 ^ 64 := by
  obtain ⟨before, inside, behind, haround, -, -, hok⟩ := isolateRange_shape drift
    h.ordered h.proper h.hi_eq hsize hlt hslots
  have htotal : total (before ++ inside ++ (behind ++ top)) = total (front ++ top) := by
    rw [← List.append_assoc, total_append, ← haround.isolate_eq, total_isolate, ← total_append]
  rw [hm, memblockRemove, hok]
  by_cases hinside : inside = []
  · subst hinside
    refine ⟨before, [], behind,
      slots.drop ((before ++ [] ++ behind).length - front.length), drift, haround, ?_, ?_⟩
    · rw [windowOf, if_pos rfl, List.append_nil]
      rfl
    · rw [← htotal, List.append_nil, List.map_nil, List.sum_nil, Nat.add_zero]
  · obtain ⟨slots', drift', -, hloop, hsum⟩ := removeLoop_append (before.map toRegion)
      (inside.map toRegion) ((behind ++ top).map toRegion)
      (slots.drop ((before ++ inside ++ behind).length - front.length)) drift
    rw [← List.map_append, ← List.map_append, ← List.map_append, List.length_map,
      List.length_map] at hloop
    rw [← List.map_append, ← List.map_append, ← List.map_append, sizeSum_toRegion,
      sizeSum_toRegion, htotal, List.map_map] at hsum
    refine ⟨before, inside, behind, slots', drift', haround, ?_, hsum⟩
    rw [windowOf, if_neg hinside]
    have hcount : before.length + inside.length - before.length = inside.length :=
      Nat.add_sub_cancel_left _ _
    simp only [bind, Except.bind, ne_eq, not_true_eq_false, if_false, hcount, hloop]
    rfl

/-- The pieces inside and behind are the parts of the areas. -/
theorem Around.pieces {before inside behind : List Area}
    (h : Around b e front top before inside behind) (hproper : Proper front) (hbe : b < e) :
    inside = (front.filter fun s => Segments.Meets b e s).map (clip b e) ∧
      behind = onward e front := by
  have hisolate := h.isolate_eq
  rw [isolate_eq_append hproper.ordered hbe] at hisolate
  have hordered := hproper.ordered.isolate (b := b) (e := e)
  rw [h.isolate_eq] at hordered
  exact h.parts.unique hbe (parts_isolate b e front) hordered hisolate.symm

/-- What is left of the first region beyond the range is what is behind the pieces. -/
theorem Around.size_beyond {before inside behind : List Area}
    (h : Around b e front top before inside behind) (hshape : Shape m front top) (hbe : b < e)
    (he : e < 2 ^ 64) (hle : ∀ t ∈ top, e ≤ t.lo) :
    (m.beyond e).map (fun r => r.base + r.size - max r.base e) =
      ((behind ++ top).map toRegion).head?.map MemblockRegion.size := by
  have hleft : ∀ s ∈ front ++ top, (toRegion s).base + (toRegion s).size -
      max (toRegion s).base e = s.hi - max s.lo e := by
    intro s hs
    have hlt := hshape.ordered.lo_lt_hi hs
    have hsum : s.lo + (s.hi - s.lo) = s.hi := by omega
    rw [toRegion, hsum]
  rw [hshape.beyond_eq, (h.pieces hshape.proper hbe).2, List.find?_append, List.map_append,
    List.head?_append, List.head?_map, List.head?_map, head?_onward]
  cases hfind : front.find? fun s => e < s.hi with
  | some s =>
      exact congrArg some (hleft s (List.mem_append_left top (List.mem_of_find?_eq_some hfind)))
  | none =>
      cases top with
      | nil => rfl
      | cons t top =>
          have hbeyond : e < t.hi := by
            rw [hshape.hi_eq t List.mem_cons_self]
            exact he
          have hlo := hle t List.mem_cons_self
          have hsize := hleft t (List.mem_append_right front List.mem_cons_self)
          rw [max_eq_left hlo] at hsize
          rw [List.find?_cons, decide_eq_true hbeyond]
          exact congrArg some hsize

/-- The condition on the table before, from the pieces of the isolated one. -/
theorem Around.removesExactly_iff {before inside behind : List Area}
    (h : Around b e front top before inside behind) (hshape : Shape m front top) (hbe : b < e)
    (he : e < 2 ^ 64) (hle : ∀ t ∈ top, e ≤ t.lo) :
    RemovesExactly m b e ↔ ∀ n,
      ((behind ++ top).map toRegion).head?.map MemblockRegion.size = some n →
        inside.length * n ≡ total inside [MOD 2 ^ 64] := by
  obtain ⟨hinside, -⟩ := h.pieces hshape.proper hbe
  have hmeeting : m.meeting b e =
      (front.filter fun s => Segments.Meets b e s).map toRegion := by
    have hnone : (top.filter fun s => Segments.Meets b e s) = [] := by
      refine List.filter_eq_nil_iff.mpr fun t ht => ?_
      have hlo := hle t ht
      rw [decide_eq_true_iff, Segments.Meets]
      omega
    rw [hshape.meeting_eq, List.filter_append, hnone, List.append_nil]
  have hparts : ((m.meeting b e).map (MemblockRegion.part b e)).sum = total inside := by
    rw [hmeeting, hinside, total, List.map_map, List.map_map]
    congr 1
    refine List.map_congr_left fun s hs => ?_
    exact part_toRegion (hshape.proper.ordered.lo_lt_hi (List.mem_of_mem_filter hs))
  have hcount : (m.meeting b e).length = inside.length := by
    rw [hmeeting, hinside, List.length_map, List.length_map]
  rw [← h.size_beyond hshape hbe he hle, ← hcount, ← hparts]
  constructor
  · intro hx n hn
    obtain ⟨r, hr, rfl⟩ := Option.map_eq_some_iff.mp hn
    exact hx.size r hr
  · intro hx
    refine ⟨fun r hr => ?_, fun r hr => hx _ (Option.map_eq_some_iff.mpr ⟨r, hr, rfl⟩)⟩
    rw [hmeeting] at hr
    obtain ⟨s, hs, rfl⟩ := List.mem_map.mp hr
    have hmem := List.mem_of_mem_filter hs
    have hlo := hshape.proper.ordered.lo_lt_hi hmem
    have hhi := hshape.proper.hi_lt s hmem
    show s.lo + (s.hi - s.lo) < 2 ^ 64
    omega

theorem Around.ordered_kept {before inside behind : List Area}
    (h : Around b e front top before inside behind) : Ordered (before ++ (behind ++ top)) := by
  obtain ⟨hfirst, hlast, hcross⟩ := ordered_append.mp h.ordered
  exact ordered_append.mpr ⟨(ordered_append.mp hfirst).1, hlast,
    fun s hs => hcross s (List.mem_append_left inside hs)⟩

/-- If no area at the top meets the range, only the recorded size can be wrong. -/
theorem Around.removed_table_iff {before inside behind : List Area}
    (h : Around b e front top before inside behind) (hshape : Shape m front top)
    (hle : ∀ t ∈ top, e ≤ t.lo) (slots : List MemblockRegion) (drift : ℕ) :
    Removed m (table ((before ++ (behind ++ top)).map toRegion) slots drift) b e ↔
      (total (before ++ (behind ++ top)) + drift) % 2 ^ 64 =
        total (before ++ (behind ++ top)) := by
  have htag := tagAt_table_ordered h.ordered_kept slots drift
  rw [← sizeSum_toRegion]
  constructor
  · intro hremoved
    have heq := hremoved.size_eq
    rwa [live_table] at heq
  · intro heq
    refine ⟨fun a hle' hlt => ?_, fun a hout => ?_, ?_⟩
    · rw [← tagAt_isSome_iff, htag, h.lookup_removed hle, if_pos ⟨hle', hlt⟩]
      exact Bool.false_ne_true
    · rw [htag, h.lookup_removed hle, if_neg hout, hshape.tagAt_eq]
    · rw [live_table]
      exact heq

/-- A region that ends at 2^64 is never removed. -/
theorem Around.not_removed {before inside behind : List Area}
    (h : Around b e front top before inside behind) (hshape : Shape m front top)
    (he : e < 2 ^ 64) {t : Area} (ht : t ∈ top) (hmeets : Segments.Meets b e t)
    (slots : List MemblockRegion) (drift : ℕ) :
    ¬ Removed m (table ((before ++ (behind ++ top)).map toRegion) slots drift) b e ∧
      ¬ RemovesExactly m b e := by
  have hend := hshape.hi_eq t ht
  constructor
  · intro hremoved
    rw [Segments.Meets, hend] at hmeets
    refine hremoved.gone (max t.lo b) (le_max_right _ _) (by omega) ?_
    rw [← tagAt_isSome_iff, tagAt_table_ordered h.ordered_kept, lookup_isSome_iff]
    refine ⟨t, List.mem_append_right _ (List.mem_append_right _ ht), le_max_left _ _, ?_⟩
    omega
  · intro hexact
    have hlo := hshape.ordered.lo_lt_hi (List.mem_append_right front ht)
    have hmem : toRegion t ∈ m.meeting b e := by
      rw [hshape.meeting_eq]
      exact List.mem_map_of_mem (List.mem_filter.mpr
        ⟨List.mem_append_right front ht, decide_eq_true hmeets⟩)
    have hhi : t.lo + (t.hi - t.lo) < 2 ^ 64 := hexact.hi_lt _ hmem
    omega

/-- What is taken off the size is what was removed, modulo 2^64. -/
theorem sum_headD_modEq_iff (post : List MemblockRegion) (inside : List Area) :
    (inside.map fun s => (post.headD (toRegion s)).size).sum ≡ total inside [MOD 2 ^ 64] ↔
      ∀ n, post.head?.map MemblockRegion.size = some n →
        inside.length * n ≡ total inside [MOD 2 ^ 64] := by
  cases post with
  | nil => exact iff_of_true rfl fun n hn => absurd hn nofun
  | cons r post =>
      have hread : (inside.map fun s => ((r :: post).headD (toRegion s)).size).sum =
          inside.length * r.size := by
        dsimp only [List.headD_cons]
        rw [List.map_const', List.sum_replicate_nat]
      rw [hread]
      constructor
      · intro hx n hn
        obtain rfl := Option.some.inj hn
        exact hx
      · exact fun hx => hx _ rfl

/-- After a successful removal the range is gone, the rest is as before, and the size is
right: exactly if what is read behind the removed regions adds up to what was removed. -/
theorem Sorted.removed_iff (h : Sorted m) (hsum : m.size = (m.live.map MemblockRegion.size).sum)
    (hlt : base + size ≤ 2 ^ 64 - 1) (hok : memblockRemove m base size = .ok (m', SUCCESS)) :
    Removed m m' base (base + size) ↔ RemovesExactly m base (base + size) := by
  by_cases hsize : size = 0
  · subst hsize
    rw [memblockRemove_empty] at hok
    obtain rfl := (Prod.mk.inj (Except.ok.inj hok)).1
    have hnone : m.meeting base (base + 0) = [] := by
      refine List.filter_eq_nil_iff.mpr fun r _ => ?_
      rw [decide_eq_true_iff, MemblockRegion.Meets]
      omega
    refine iff_of_true ⟨fun a hle hlt => ?_, fun _ _ => rfl, hsum⟩ ⟨?_, fun r _ => ?_⟩
    · omega
    · rw [hnone]
      exact List.forall_mem_nil _
    · rw [hnone, List.length_nil, Nat.zero_mul, List.map_nil, List.sum_nil]
  have hbe : base < base + size := by omega
  obtain ⟨front, top, hshape⟩ := h.shape
  obtain ⟨slots, drift, hm⟩ := hshape.eq_table
  have hslots : 2 ≤ slots.length := by
    by_contra hspace
    have hremove := memblockRemove_table base hsize ((front ++ top).map toRegion) slots drift
    simp only [if_pos (not_le.mp hspace)] at hremove
    rw [hm, hremove] at hok
    exact absurd (Prod.mk.inj (Except.ok.inj hok)).2 (by decide)
  obtain ⟨before, inside, behind, slots', drift', haround, hrun, hsizes⟩ :=
    memblockRemove_shape hshape hm hsize hlt hslots
  rw [hrun] at hok
  obtain ⟨rfl, -⟩ := Prod.mk.inj (Except.ok.inj hok)
  by_cases htop : ∀ t ∈ top, ¬ Segments.Meets base (base + size) t
  · have hle : ∀ t ∈ top, base + size ≤ t.lo := fun t ht =>
      le_lo_of_not_meets hbe (by omega) (hshape.hi_eq t ht) (htop t ht)
    have htotal : total (front ++ top) = total (before ++ (behind ++ top)) + total inside := by
      have hwhole : total (before ++ inside ++ behind) = total front := by
        rw [← haround.isolate_eq, total_isolate]
      simp only [total_append] at hwhole ⊢
      omega
    have hfull : (total (front ++ top) + drift) % 2 ^ 64 = total (front ++ top) := by
      rw [hm, live_table, ← sizeSum, sizeSum_toRegion] at hsum
      refine Eq.trans ?_ hsum
      rw [← sizeSum_toRegion]
      rfl
    rw [haround.removed_table_iff hshape hle, haround.removesExactly_iff hshape hbe (by omega) hle,
      ← sum_headD_modEq_iff, Nat.ModEq]
    rw [hfull, htotal] at hsizes
    omega
  · push Not at htop
    obtain ⟨t, ht, hmeets⟩ := htop
    obtain ⟨hnot, hnot'⟩ := haround.not_removed hshape (by omega) ht hmeets slots' drift'
    exact iff_of_false hnot hnot'

end Remove

/-- The last region is removed with its own size. -/
theorem removed_twoRegions_last :
    ∃ m, memblockRemove twoRegions 12288 8192 = .ok (m, SUCCESS) ∧
      Removed twoRegions m 12288 (12288 + 8192) := by
  have hok : memblockRemove twoRegions 12288 8192 = .ok (tableOf 4096
      [⟨MEMBLOCK_NONE, 4096, 4096, 0⟩] [⟨MEMBLOCK_NONE, 12288, 8192, 0⟩], SUCCESS) := by
    decide +kernel
  have hbeyond : twoRegions.beyond (12288 + 8192) = none := by decide +kernel
  have hexact : RemovesExactly twoRegions 12288 (12288 + 8192) :=
    ⟨by decide +kernel, fun r hr => absurd (hbeyond.symm.trans hr) nofun⟩
  exact ⟨_, hok, (sorted_twoRegions.removed_iff (by decide +kernel) (by decide) hok).mpr hexact⟩

/-- The first region is removed with the size of the second: 4096 bytes are recorded
where 8192 are left. -/
theorem not_removed_twoRegions_first :
    Sorted twoRegions ∧ twoRegions.size = (twoRegions.live.map MemblockRegion.size).sum ∧
      ∃ m, memblockRemove twoRegions 4096 4096 = .ok (m, SUCCESS) ∧
        ¬ Removed twoRegions m 4096 (4096 + 4096) := by
  have hok : memblockRemove twoRegions 4096 4096 = .ok (tableOf 4096
      [⟨MEMBLOCK_NONE, 12288, 8192, 0⟩] [⟨MEMBLOCK_NONE, 12288, 8192, 0⟩], SUCCESS) := by
    decide +kernel
  refine ⟨sorted_twoRegions, by decide +kernel, _, hok, fun h => ?_⟩
  exact absurd h.size_eq (by decide +kernel)

end Cyanea.Memory
