/-
# Well-formed tables are lists of segments

A table whose regions are in order, not empty and end below 2^64 is a list of
segments of addresses tagged with flags and node. On such tables no sum of the
code wraps around, and each list function of the earlier modules is the
operation of the segment library it was written for: `add_range` fills gaps,
`isolate_range` cuts, and merging in the window of what was changed coalesces
the whole list.
-/

import Cyanea.Math.Segments
import Cyanea.Memory.Bounds

namespace Cyanea.Memory

open Cyanea.Math Cyanea.Math.Segments

/-- What the table records about an address: the flags and the node. -/
abbrev Tag := MemblockFlags × ℤ

/-- A stretch of addresses with one tag. -/
abbrev Area := Segment ℕ Tag

/-- The region that holds an area. -/
def toRegion (s : Area) : MemblockRegion := ⟨s.tag.1, s.lo, s.hi - s.lo, s.tag.2⟩

/-- The areas are in order, and every sum of a base and a size fits a word. -/
structure Proper (segs : List Area) : Prop where
  ordered : Ordered segs
  hi_lt : ∀ s ∈ segs, s.hi < 2 ^ 64

theorem proper_nil : Proper [] := ⟨trivial, by simp⟩

theorem Proper.tail {s : Area} {segs : List Area} (h : Proper (s :: segs)) : Proper segs :=
  ⟨h.ordered.2.2, fun t ht => h.hi_lt t (by simp [ht])⟩

theorem Proper.append_right {l₁ l₂ : List Area} (h : Proper (l₁ ++ l₂)) : Proper l₂ :=
  ⟨(ordered_append.mp h.ordered).2.1, fun s hs => h.hi_lt s (by simp [hs])⟩

theorem Proper.head_lt {s : Area} {segs : List Area} (h : Proper (s :: segs)) : s.lo < s.hi :=
  h.ordered.1

section Region

variable {s t : Area}

@[simp]
theorem toRegion_base (s : Area) : (toRegion s).base = s.lo := rfl

theorem toRegion_regionEnd (h : s.lo < s.hi) (hhi : s.hi < 2 ^ 64) :
    (toRegion s).regionEnd = s.hi := by
  simp only [MemblockRegion.regionEnd, toRegion, add64]
  omega

theorem apart_toRegion_iff (h : s.lo < s.hi) (hhi : s.hi < 2 ^ 64) :
    Apart (toRegion s) (toRegion t) ↔ ¬ s.Joins t := by
  rw [Apart, toRegion_regionEnd h hhi]
  simp only [toRegion, Segment.Joins, Prod.ext_iff]
  tauto

theorem toRegion_extend (hs : s.lo < s.hi) (ht : t.lo < t.hi) (hhi : t.hi < 2 ^ 64)
    (hjoin : s.Joins t) : (toRegion s).extend (toRegion t) = toRegion (s.join t) := by
  have heq := hjoin.1
  simp only [MemblockRegion.extend, toRegion, Segment.join, add64, MemblockRegion.mk.injEq,
    and_true, true_and]
  omega

theorem toRegion_before {cut : ℕ} (h : s.lo < cut) (hcut : cut < 2 ^ 64) :
    (toRegion s).before cut = toRegion ⟨s.lo, cut, s.tag⟩ := by
  simp only [MemblockRegion.before, toRegion, sub64_eq h.le hcut]

theorem toRegion_after {cut : ℕ} (h : s.lo < cut) (hcut : cut < s.hi) (hhi : s.hi < 2 ^ 64) :
    (toRegion s).after cut = toRegion ⟨cut, s.hi, s.tag⟩ := by
  simp only [MemblockRegion.after, toRegion, sub64, MemblockRegion.mk.injEq, and_true, true_and]
  omega

theorem piece_eq_toRegion {base upto : ℕ} (h : base < upto) (hupto : upto < 2 ^ 64) (nid : ℤ)
    (flags : MemblockFlags) :
    piece nid flags base upto = toRegion ⟨base, upto, (flags, nid)⟩ := by
  simp only [piece, toRegion, sub64_eq h.le hupto]

end Region

/-! ## Adding -/

/-- Nothing is inserted into a range that is used up. -/
theorem fillRegions_eq_self {rangeEnd base : ℕ} (nid : ℤ) (flags : MemblockFlags)
    (h : rangeEnd ≤ base) (live : List MemblockRegion) :
    fillRegions rangeEnd nid flags base live = live := by
  induction live generalizing base with
  | nil => rw [fillRegions, if_neg (not_lt.mpr h)]
  | cons r rest ih =>
      rw [fillRegions, if_neg (not_lt.mpr h), ih h]
      by_cases hbehind : rangeEnd ≤ r.base
      · rw [if_pos hbehind]
      · have hbase : ¬ base < r.base := by omega
        rw [if_neg hbehind, if_neg hbase]
        split_ifs with hend
        · rfl
        · rw [ih (by omega)]

theorem fillRegions_toRegion {rangeEnd : ℕ} (base : ℕ) (hend : rangeEnd < 2 ^ 64) (nid : ℤ)
    (flags : MemblockFlags) {segs : List Area} (h : Proper segs) :
    fillRegions rangeEnd nid flags base (segs.map toRegion) =
      (fill base rangeEnd (flags, nid) segs).map toRegion := by
  induction segs generalizing base with
  | nil =>
      rw [List.map_nil, fillRegions, fill]
      split_ifs with hbase
      · rw [piece_eq_toRegion hbase hend, List.map_singleton]
      · rfl
  | cons s segs ih =>
      have hlt := h.head_lt
      have hhi := h.hi_lt s (by simp)
      -- the code clips the end of the region to the range, the library does not
      have hclip : fillRegions rangeEnd nid flags (min s.hi rangeEnd) (segs.map toRegion) =
          (fill s.hi rangeEnd (flags, nid) segs).map toRegion := by
        rcases le_total s.hi rangeEnd with hle | hle
        · rw [min_eq_left hle, ih _ h.tail]
        · rw [min_eq_right hle, fillRegions_eq_self _ _ le_rfl,
            fill_eq_self h.tail.ordered hle]
      rw [List.map_cons, fillRegions, fill, toRegion_regionEnd hlt hhi, toRegion_base, hclip,
        ih _ h.tail]
      split_ifs with hbehind hbase hbefore hgap
      · rw [piece_eq_toRegion hbase hend, List.map_cons, List.map_cons]
      · rw [List.map_cons]
      · rw [List.map_cons]
      · rw [piece_eq_toRegion hgap (by omega), List.map_cons, List.map_cons]
      · rw [List.map_cons]

/-! ## Isolating -/

section Isolate

variable {b e : ℕ}

/-- Behind the start of the range only the cut at its end matters. -/
theorem isolateRegions_behind (he : e < 2 ^ 64) {segs : List Area}
    (h : Proper segs) (hb : ∀ s ∈ segs, b ≤ s.lo) :
    isolateRegions b e (segs.map toRegion) = (splitAt e segs).map toRegion := by
  induction segs with
  | nil => rfl
  | cons s segs ih =>
      obtain ⟨hs, hsegs⟩ := List.forall_mem_cons.mp hb
      have hlt := h.head_lt
      have hhi := h.hi_lt s (by simp)
      have hrest := ih h.tail hsegs
      have hbefore : ¬ s.hi ≤ b := by omega
      rw [List.map_cons, isolateRegions, toRegion_regionEnd hlt hhi, toRegion_base,
        if_neg hbefore, if_neg (not_lt.mpr hs), splitAt]
      by_cases hbehind : e ≤ s.lo
      · have hnone : splitAt e segs = segs :=
          splitAt_eq_self fun t ht => hbehind.trans (hlt.le.trans (h.ordered.2.1 t ht))
        rw [if_pos hbehind, if_neg (by omega), hnone, List.map_cons]
      rw [if_neg hbehind, isolateInner, toRegion_regionEnd hlt hhi, toRegion_base,
        if_neg hbehind, if_neg hbefore]
      by_cases hcut : e < s.hi
      · rw [if_pos hcut, if_pos ⟨not_le.mp hbehind, hcut⟩,
          toRegion_before (not_le.mp hbehind) he, toRegion_after (not_le.mp hbehind) hcut hhi]
        rfl
      · rw [if_neg hcut, if_neg (fun h => hcut h.2), hrest, List.map_cons]

/-- The part of an area behind a cut, in front of the later areas. -/
theorem Proper.cut {s : Area} {segs : List Area} (h : Proper (s :: segs)) (hb : b < s.hi) :
    Proper (⟨b, s.hi, s.tag⟩ :: segs) := by
  refine ⟨⟨hb, h.ordered.2.1, h.ordered.2.2⟩, ?_⟩
  intro t ht
  rcases List.mem_cons.mp ht with rfl | ht
  · exact h.hi_lt s (by simp)
  · exact h.hi_lt t (by simp [ht])

/-- Cutting an area at the start of the range leaves the rest behind that start. -/
theorem le_lo_of_cut {s : Area} {segs : List Area} (h : Proper (s :: segs)) (hb : b < s.hi) :
    ∀ t ∈ (⟨b, s.hi, s.tag⟩ :: segs : List Area), b ≤ t.lo :=
  List.forall_mem_cons.mpr ⟨le_rfl, fun t ht => hb.le.trans (h.ordered.2.1 t ht)⟩

theorem isolateRegions_toRegion (hbe : b < e) (he : e < 2 ^ 64) {segs : List Area}
    (h : Proper segs) :
    isolateRegions b e (segs.map toRegion) = (isolate b e segs).map toRegion := by
  induction segs with
  | nil => rfl
  | cons s segs ih =>
      have hlt := h.head_lt
      have hhi := h.hi_lt s (by simp)
      by_cases hb : b ≤ s.lo
      · have hall : ∀ t ∈ s :: segs, b ≤ t.lo :=
          List.forall_mem_cons.mpr ⟨hb, fun t ht => hb.trans (hlt.le.trans (h.ordered.2.1 t ht))⟩
        rw [isolateRegions_behind he h hall, isolate, splitAt_eq_self hall]
      have hsb := not_le.mp hb
      by_cases hend : s.hi ≤ b
      · rw [List.map_cons, isolateRegions, toRegion_regionEnd hlt hhi, toRegion_base,
          if_neg (by omega), if_pos hend, ih h.tail, isolate, isolate, splitAt,
          if_neg (by omega), splitAt, if_neg (by omega), List.map_cons]
      have hbs := not_le.mp hend
      have hcut := isolateRegions_behind he (h.cut hbs) (le_lo_of_cut h hbs)
      have hsplit : splitAt b (s :: segs) = ⟨s.lo, b, s.tag⟩ :: ⟨b, s.hi, s.tag⟩ :: segs := by
        rw [splitAt, if_pos ⟨hsb, hbs⟩]
      have hfirst : splitAt e (splitAt b (s :: segs)) =
          ⟨s.lo, b, s.tag⟩ :: splitAt e (⟨b, s.hi, s.tag⟩ :: segs) := by
        rw [hsplit, splitAt, if_neg (by simp only; omega)]
      rw [isolate, hfirst, List.map_cons, List.map_cons, ← hcut, List.map_cons,
        ← toRegion_before hsb (by omega), ← toRegion_after hsb hbs hhi, isolateRegions_after, isolateRegions,
        toRegion_regionEnd hlt hhi, toRegion_base, if_neg (by omega), if_neg hend, if_pos hsb]

/-! The indices that are returned delimit the areas inside the range. -/

/-- Once an area is marked, the later areas inside the range are marked in turn. -/
theorem isolateIndices_marked {segs : List Area} (h : Proper segs) (hb : ∀ s ∈ segs, b ≤ s.lo)
    {i : ℕ} (hi : i ≠ 0) (start : ℕ) :
    ∃ inside behind, splitAt e segs = inside ++ behind ∧ (∀ s ∈ inside, s.Inside b e) ∧
      (∀ s ∈ behind, e ≤ s.lo) ∧
      isolateIndices b e (segs.map toRegion) i (start, i) = (start, i + inside.length) := by
  induction segs generalizing i with
  | nil => exact ⟨[], [], rfl, by simp, by simp, rfl⟩
  | cons s segs ih =>
      obtain ⟨hs, hsegs⟩ := List.forall_mem_cons.mp hb
      have hlt := h.head_lt
      have hhi := h.hi_lt s (by simp)
      have hbefore : ¬ s.hi ≤ b := by omega
      rw [List.map_cons, isolateIndices, toRegion_regionEnd hlt hhi, toRegion_base,
        if_neg hbefore, if_neg (not_lt.mpr hs), isolateIndicesInner, toRegion_regionEnd hlt hhi,
        toRegion_base, if_neg hbefore, splitAt]
      by_cases hbehind : e ≤ s.lo
      · have hlater : ∀ t ∈ segs, e ≤ t.lo := fun t ht =>
          hbehind.trans (hlt.le.trans (h.ordered.2.1 t ht))
        refine ⟨[], s :: segs, ?_, by simp, List.forall_mem_cons.mpr ⟨hbehind, hlater⟩, ?_⟩
        · rw [if_neg (by omega), splitAt_eq_self hlater, List.nil_append]
        · rw [if_pos hbehind, List.length_nil, Nat.add_zero]
      rw [if_neg hbehind]
      by_cases hcut : e < s.hi
      · refine ⟨[⟨s.lo, e, s.tag⟩], ⟨e, s.hi, s.tag⟩ :: segs, ?_, ?_, ?_, ?_⟩
        · rw [if_pos ⟨not_le.mp hbehind, hcut⟩, List.singleton_append]
        · simpa [Segment.Inside] using hs
        · exact List.forall_mem_cons.mpr
            ⟨le_rfl, fun t ht => hcut.le.trans (h.ordered.2.1 t ht)⟩
        · rw [if_neg hbehind, if_pos hcut, mark, if_neg hi, List.length_singleton]
      · obtain ⟨inside, behind, hsplit, hinside, hlater, hindices⟩ :=
          ih h.tail hsegs (i := i + 1) (by omega)
        refine ⟨s :: inside, behind, ?_, ?_, hlater, ?_⟩
        · rw [if_neg fun hc => hcut hc.2, hsplit, List.cons_append]
        · exact List.forall_mem_cons.mpr ⟨⟨hs, not_lt.mp hcut⟩, hinside⟩
        · rw [if_neg hbehind, if_neg hcut, mark, if_neg hi, hindices, List.length_cons]
          congr 1
          omega

/-- The results of `isolate_range` for areas that begin at index `i`. -/
def windowOf (i : ℕ) (inside : List Area) : ℕ × ℕ :=
  if inside = [] then (0, 0) else (i, i + inside.length)

theorem isolateIndices_behind {segs : List Area} (h : Proper segs)
    (hb : ∀ s ∈ segs, b ≤ s.lo) (i : ℕ) :
    ∃ inside behind, splitAt e segs = inside ++ behind ∧ (∀ s ∈ inside, s.Inside b e) ∧
      (∀ s ∈ behind, e ≤ s.lo) ∧
      isolateIndices b e (segs.map toRegion) i (0, 0) = windowOf i inside := by
  cases segs with
  | nil => exact ⟨[], [], rfl, by simp, by simp, rfl⟩
  | cons s segs =>
      obtain ⟨hs, hsegs⟩ := List.forall_mem_cons.mp hb
      have hlt := h.head_lt
      have hhi := h.hi_lt s (by simp)
      have hbefore : ¬ s.hi ≤ b := by omega
      rw [List.map_cons, isolateIndices, toRegion_regionEnd hlt hhi, toRegion_base,
        if_neg hbefore, if_neg (not_lt.mpr hs), isolateIndicesInner, toRegion_regionEnd hlt hhi,
        toRegion_base, if_neg hbefore, splitAt]
      by_cases hbehind : e ≤ s.lo
      · have hlater : ∀ t ∈ segs, e ≤ t.lo := fun t ht =>
          hbehind.trans (hlt.le.trans (h.ordered.2.1 t ht))
        refine ⟨[], s :: segs, ?_, by simp, List.forall_mem_cons.mpr ⟨hbehind, hlater⟩, ?_⟩
        · rw [if_neg (by omega), splitAt_eq_self hlater, List.nil_append]
        · rw [if_pos hbehind, windowOf, if_pos rfl]
      rw [if_neg hbehind]
      by_cases hcut : e < s.hi
      · refine ⟨[⟨s.lo, e, s.tag⟩], ⟨e, s.hi, s.tag⟩ :: segs, ?_, ?_, ?_, ?_⟩
        · rw [if_pos ⟨not_le.mp hbehind, hcut⟩, List.singleton_append]
        · simpa [Segment.Inside] using hs
        · exact List.forall_mem_cons.mpr
            ⟨le_rfl, fun t ht => hcut.le.trans (h.ordered.2.1 t ht)⟩
        · rw [if_neg hbehind, if_pos hcut]
          rfl
      · obtain ⟨inside, behind, hsplit, hinside, hlater, hindices⟩ :=
          isolateIndices_marked h.tail hsegs (Nat.succ_ne_zero i) i (e := e)
        refine ⟨s :: inside, behind, ?_, ?_, hlater, ?_⟩
        · rw [if_neg fun hc => hcut hc.2, hsplit, List.cons_append]
        · exact List.forall_mem_cons.mpr ⟨⟨hs, not_lt.mp hcut⟩, hinside⟩
        · rw [if_neg hbehind, if_neg hcut, mark, if_pos rfl, hindices, windowOf,
            if_neg (List.cons_ne_nil _ _), List.length_cons]
          congr 1
          omega

/-- The isolated areas lie before the range, inside it and behind it, in this order,
and the indices delimit those inside. -/
theorem isolateIndices_toRegion (hbe : b < e) {segs : List Area} (h : Proper segs) (i : ℕ) :
    ∃ before inside behind, isolate b e segs = before ++ inside ++ behind ∧
      Parts b e before inside behind ∧
      isolateIndices b e (segs.map toRegion) i (0, 0) =
        windowOf (i + before.length) inside := by
  induction segs generalizing i with
  | nil => exact ⟨[], [], [], rfl, ⟨by simp, by simp, by simp⟩, rfl⟩
  | cons s segs ih =>
      have hlt := h.head_lt
      have hhi := h.hi_lt s (by simp)
      by_cases hb : b ≤ s.lo
      · have hall : ∀ t ∈ s :: segs, b ≤ t.lo :=
          List.forall_mem_cons.mpr ⟨hb, fun t ht => hb.trans (hlt.le.trans (h.ordered.2.1 t ht))⟩
        obtain ⟨inside, behind, hsplit, hinside, hlater, hindices⟩ :=
          isolateIndices_behind h hall i (e := e)
        refine ⟨[], inside, behind, ?_, ⟨by simp, hinside, hlater⟩, hindices⟩
        rw [isolate, splitAt_eq_self hall, hsplit, List.nil_append]
      have hsb := not_le.mp hb
      by_cases hend : s.hi ≤ b
      · obtain ⟨before, inside, behind, hisolate, ⟨hbefore, hinside, hlater⟩, hindices⟩ :=
          ih h.tail (i + 1)
        refine ⟨s :: before, inside, behind, ?_,
          ⟨List.forall_mem_cons.mpr ⟨hend, hbefore⟩, hinside, hlater⟩, ?_⟩
        · rw [isolate] at hisolate
          rw [isolate, splitAt, if_neg (by omega), splitAt, if_neg (by omega), hisolate]
          rfl
        · have hindex : i + 1 + before.length = i + (s :: before).length := by
            rw [List.length_cons]
            omega
          rw [List.map_cons, isolateIndices, toRegion_regionEnd hlt hhi, toRegion_base,
            if_neg (by omega), if_pos hend, hindices, hindex]
      · have hbs := not_le.mp hend
        obtain ⟨inside, behind, hsplit, hinside, hlater, hindices⟩ :=
          isolateIndices_behind (h.cut hbs) (le_lo_of_cut h hbs) (i + 1) (e := e)
        refine ⟨[⟨s.lo, b, s.tag⟩], inside, behind, ?_, ⟨by simp, hinside, hlater⟩, ?_⟩
        · rw [isolate, splitAt, if_pos ⟨hsb, hbs⟩, splitAt, if_neg (by simp only; omega),
            hsplit, List.singleton_append, List.cons_append]
        · rw [List.map_cons, ← toRegion_after hsb hbs hhi, isolateIndices_after] at hindices
          rw [List.map_cons, isolateIndices, toRegion_regionEnd hlt hhi, toRegion_base,
            if_neg (by omega), if_neg hend, if_pos hsb, hindices, List.length_singleton]

end Isolate

end Cyanea.Memory
