/-
# The operations refine the segment library

What a completed call of each operation makes of a well-formed table: adding
fills the gaps of the range and coalesces, changing a range cuts, retags and
coalesces, removing cuts and erases. The scan of `merge_regions` looks only at
the neighbourhood of what was changed; that this coalesces the whole list rests
on the table having been coalesced before.
-/

import Cyanea.Memory.SegmentTable

namespace Cyanea.Memory

open Cyanea.Math Cyanea.Math.Segments

/-! ## Merging -/

theorem Proper.join {s t : Area} {segs : List Area} (h : Proper (s :: t :: segs))
    (hjoin : s.Joins t) : Proper (s.join t :: segs) := by
  obtain ⟨⟨hs, -, ht, hle, hord⟩, hhi⟩ := h
  have hlt : s.lo < t.hi := hs.trans (hjoin.1 ▸ ht)
  refine ⟨⟨hlt, hle, hord⟩, ?_⟩
  intro u hu
  rcases List.mem_cons.mp hu with rfl | hu
  · exact hhi t (by simp)
  · exact hhi u (by simp [hu])

theorem mergeScan_toRegion (turns : ℕ) {segs : List Area} (h : Proper segs) :
    mergeScan turns (segs.map toRegion) = (scan turns segs).map toRegion := by
  induction turns generalizing segs with
  | zero =>
      match segs with
      | [] | [_] | _ :: _ :: _ => rfl
  | succ turns ih =>
      match segs, h with
      | [], _ | [_], _ => rfl
      | s :: t :: segs, h =>
          have hs := h.head_lt
          have ht := h.tail.head_lt
          have hshi := h.hi_lt s (by simp)
          have hthi := h.hi_lt t (by simp)
          rw [List.map_cons, List.map_cons, mergeScan, scan]
          by_cases hjoin : s.Joins t
          · rw [if_neg ((apart_toRegion_iff hs hshi).not.mpr (not_not.mpr hjoin)), if_pos hjoin,
              toRegion_extend hs ht hthi hjoin, ← List.map_cons, ih (h.join hjoin)]
          · rw [if_pos ((apart_toRegion_iff hs hshi).mpr hjoin), if_neg hjoin, ← List.map_cons,
              ih h.tail, List.map_cons]

/-- A table has nothing to merge exactly if its areas do not join. -/
theorem isChain_apart_iff {segs : List Area} (h : Proper segs) :
    (segs.map toRegion).IsChain Apart ↔ Merged segs := by
  induction segs with
  | nil => simp [Merged]
  | cons s segs ih =>
      cases segs with
      | nil => simp [Merged]
      | cons t segs =>
          have hrest := ih h.tail
          rw [List.map_cons] at hrest
          rw [List.map_cons, List.map_cons, List.isChain_cons_cons, hrest,
            apart_toRegion_iff h.head_lt (h.hi_lt s (by simp))]
          exact (List.isChain_cons_cons (R := fun s t : Area => ¬ s.Joins t)).symm

/-- Merging around a window coalesces the list if it has nothing to merge outside. -/
theorem mergedBy_toRegion {before inside behind : List Area}
    (h : Proper (before ++ inside ++ behind)) (hbefore : Merged before)
    (hbehind : Merged behind) (hinside : inside ≠ []) :
    mergedBy (before.length, before.length + inside.length)
        ((before ++ inside ++ behind).map toRegion) =
      (coalesce (before ++ inside ++ behind)).map toRegion := by
  rcases List.eq_nil_or_concat before with rfl | ⟨front, s, rfl⟩
  · obtain ⟨t, inside, rfl⟩ := List.exists_cons_of_ne_nil hinside
    have hscan : scan (inside.length + 1) (t :: (inside ++ behind)) =
        absorb t (inside ++ behind) :=
      scan_eq_absorb (by simpa using hbehind)
    have hmerge := mergeScan_toRegion (inside.length + 1) h
    simp only [List.nil_append, List.cons_append, hscan] at hmerge
    simpa [mergedBy, coalesce] using hmerge
  · have hlist : front.concat s ++ inside ++ behind = front ++ s :: (inside ++ behind) := by
      simp
    have hlength : (front.concat s).length = front.length + 1 := by simp
    rw [hlist] at h ⊢
    have hcount : (s :: (inside ++ behind)).drop (inside.length + 1) = behind := by simp
    have hscan : scan (inside.length + 1) (s :: (inside ++ behind)) =
        absorb s (inside ++ behind) :=
      scan_eq_absorb (by rw [hcount]; exact hbehind)
    have hcoalesce : coalesce (front ++ s :: (inside ++ behind)) =
        front ++ absorb s (inside ++ behind) :=
      coalesce_append (by simpa using hbefore)
    have hturns : front.length + 1 + inside.length - (front.length + 1 - 1) =
        inside.length + 1 := by omega
    rw [hcoalesce, mergedBy, hlength, hturns, Nat.add_sub_cancel, List.map_append,
      List.map_append, ← List.length_map toRegion, List.take_left, List.drop_left,
      mergeScan_toRegion _ h.append_right, hscan]

theorem mergeResult_ok {behind : Option MemblockRegion} {window : ℕ × ℕ}
    {live slots : List MemblockRegion} {drift : ℕ} {m : Memblock}
    (h : mergeResult behind window live slots drift = .ok m) :
    m = table (mergedBy window live) (slotsAfter live (mergedBy window live) slots) drift := by
  rw [mergeResult] at h
  split at h
  · simp at h
  · exact (Except.ok.inj h).symm

/-- What merging leaves behind the live regions was there before, or is a copy of a
live region. -/
theorem mem_slotsAfter {live merged slots : List MemblockRegion} {z : MemblockRegion}
    (hlive : live ≠ []) (h : z ∈ slotsAfter live merged slots) : z ∈ slots ∨ z ∈ live := by
  rcases List.mem_append.mp h with hz | hz
  · right
    rw [(List.mem_replicate.mp hz).2, List.getLastD_eq_getLast?,
      List.getLast?_eq_some_getLast hlive]
    exact List.getLast_mem hlive
  · exact .inl hz

/-! ## The operations -/

section Operations

variable {behind : Option MemblockRegion} {segs : List Area} {slots : List MemblockRegion}
  {drift base size : ℕ} {m : Memblock} {err : ℤ}

/-- Slots are kept, or filled with copies of regions of `segs`. -/
def SlotsFrom (slots : List MemblockRegion) (segs : List Area)
    (slots' : List MemblockRegion) : Prop :=
  ∀ z ∈ slots', z ∈ slots ∨ ∃ s ∈ segs, z = toRegion s

theorem slotsFrom_drop (k : ℕ) : SlotsFrom slots segs (slots.drop k) :=
  fun _ hz => .inl (List.mem_of_mem_drop hz)

theorem slotsFrom_slotsAfter {changed : List Area} (hne : changed ≠ []) (k : ℕ)
    (merged : List MemblockRegion) :
    SlotsFrom slots changed (slotsAfter (changed.map toRegion) merged (slots.drop k)) := by
  intro z hz
  rcases mem_slotsAfter (by simpa using hne) hz with hz | hz
  · exact .inl (List.mem_of_mem_drop hz)
  · obtain ⟨s, hs, rfl⟩ := List.mem_map.mp hz
    exact .inr ⟨s, hs, rfl⟩

theorem Proper.fill (h : Proper segs) {b e : ℕ} (he : e < 2 ^ 64) (x : Tag) :
    Proper (fill b e x segs) := by
  refine ⟨h.ordered.fill, fun s hs => ?_⟩
  -- the last key of a segment is covered by an old one or by the range
  have hlt := h.ordered.fill.lo_lt_hi hs
  have hlast : (lookup (Segments.fill b e x segs) (s.hi - 1)).isSome :=
    lookup_isSome_iff.mpr ⟨s, hs, by simp only [Segment.Covers]; omega⟩
  rw [lookup_fill h.ordered, Option.isSome_or, Bool.or_eq_true, lookup_isSome_iff,
    lookup_isSome_iff] at hlast
  rcases hlast with ⟨t, ht, hcov⟩ | ⟨t, ht, hcov⟩
  · have := h.hi_lt t ht
    have := hcov.2
    omega
  · obtain rfl := List.mem_singleton.mp ht
    have := hcov.2
    simp only at this
    omega

/-- A completed addition fills the gaps of the range and coalesces. -/
theorem addRange_refines (h : Proper segs) (hmerged : Merged segs) (hsize : size ≠ 0)
    (hlt : base + size < 2 ^ 64) {nid : ℤ} {flags : MemblockFlags}
    (hok : addRange behind (table (segs.map toRegion) slots drift) base size nid flags =
      .ok (m, err)) :
    err = SUCCESS ∧ ∃ slots' drift', (drift' = drift ∨ drift' = 0) ∧
      SlotsFrom slots (fill base (base + size) (flags, nid) segs) slots' ∧
      m = table ((coalesce (fill base (base + size) (flags, nid) segs)).map toRegion)
        slots' drift' := by
  by_cases hlive : segs = []
  · subst hlive
    have hbase : base < base + size := by omega
    have hfill : fill base (base + size) (flags, nid) ([] : List Area) =
        [⟨base, base + size, (flags, nid)⟩] := if_pos hbase
    cases slots with
    | nil =>
        rw [addRange, if_neg hsize] at hok
        simp [table, storeRegion, bind, Except.bind] at hok
    | cons z slots =>
        rw [List.map_nil, addRange_first behind hsize (by omega)] at hok
        simp only [Except.ok.injEq, Prod.mk.injEq] at hok
        refine ⟨hok.2.symm, slots, 0, .inr rfl, fun z hz => .inl (by simp [hz]), ?_⟩
        rw [hfill, ← hok.1]
        simp [coalesce, absorb, toRegion]
  have hend : add64 base size = base + size := add64_eq hlt
  have hproper := h.fill hlt (flags, nid) (b := base)
  have hregions := fillRegions_toRegion base hlt nid flags h
  rw [addRange_table behind hsize (by simpa using hlive), hend, hregions] at hok
  split_ifs at hok with hfits
  obtain ⟨m', hmerge, hreply⟩ := Math.bind_eq_ok.mp hok
  obtain ⟨rfl, rfl⟩ := Prod.mk.inj (Except.ok.inj hreply)
  refine ⟨rfl, ?_⟩
  rcases fillWindow_none (base + size) nid flags (segs.map toRegion) base 0 with
    ⟨hwindow, hsame⟩ | ⟨pre, added, old, tail, hne, hold, hnew, hwindow⟩
  · have hnothing : Merged (fill base (base + size) (flags, nid) segs) := by
      rw [← isChain_apart_iff hproper, ← hregions, hsame]
      exact (isChain_apart_iff h).mpr hmerged
    rw [hwindow, mergeAdded] at hmerge
    rw [coalesce_eq_self hnothing]
    exact ⟨_, _, .inl rfl, slotsFrom_drop _, (Except.ok.inj hmerge).symm⟩
  · rw [hregions] at hnew
    obtain ⟨front, behind', hfill, hfront, rfl⟩ := List.map_eq_append_iff.mp hnew
    obtain ⟨before, inside, rfl, rfl, rfl⟩ := List.map_eq_append_iff.mp hfront
    have hchain := (isChain_apart_iff h).mpr hmerged
    rw [hold] at hchain
    rw [hfill] at hproper hmerge ⊢
    have hbefore : Merged before := by
      rw [← isChain_apart_iff ⟨(ordered_append.mp (ordered_append.mp hproper.ordered).1).1,
        fun s hs => hproper.hi_lt s (by simp [hs])⟩]
      exact (List.isChain_append.mp (List.isChain_append.mp hchain).1).1
    have hbehind : Merged behind' := by
      rw [← isChain_apart_iff hproper.append_right]
      exact (List.isChain_append.mp hchain).2.1
    have hinside : inside ≠ [] := by simpa using hne
    rw [hwindow, mergeAdded] at hmerge
    have hm := mergeResult_ok hmerge
    simp only [Nat.zero_add, List.length_map] at hm
    rw [mergedBy_toRegion hproper hbefore hbehind hinside] at hm
    exact ⟨_, _, .inl rfl, slotsFrom_slotsAfter (by simp [hinside]) _ _, hm⟩

theorem Proper.isolate (h : Proper segs) {b e : ℕ} : Proper (isolate b e segs) := by
  refine ⟨h.ordered.isolate, fun s hs => ?_⟩
  have hlt := h.ordered.isolate.lo_lt_hi hs
  have hlast : (lookup (Segments.isolate b e segs) (s.hi - 1)).isSome :=
    lookup_isSome_iff.mpr ⟨s, hs, by simp only [Segment.Covers]; omega⟩
  rw [lookup_isolate, lookup_isSome_iff] at hlast
  obtain ⟨t, ht, hcov⟩ := hlast
  have := h.hi_lt t ht
  have := hcov.2
  omega

theorem Proper.retag (h : Proper segs) {b e : ℕ} {g : Tag → Tag} :
    Proper (retag b e g segs) := by
  refine ⟨h.ordered.retag, fun s hs => ?_⟩
  obtain ⟨t, ht, rfl⟩ := List.mem_map.mp hs
  split <;> exact h.hi_lt t ht

/-- The parts of an isolated table have nothing to merge outside the range. -/
theorem Merged.parts (h : Proper segs) (hmerged : Merged segs) {b e : ℕ} (hbe : b < e)
    {before inside after : List Area} (hisolate : isolate b e segs = before ++ inside ++ after)
    (p : Parts b e before inside after) : Merged (before ++ after) := by
  have hordered := h.ordered.isolate (b := b) (e := e)
  have hrest := Merged.erase_isolate h.ordered hmerged hbe
  rw [hisolate] at hordered hrest
  rwa [erase_parts p hordered] at hrest

/-- The change of a region is the given change of its tag. -/
structure Retags (f : MemblockRegion → MemblockRegion) (g : Tag → Tag) : Prop where
  toRegion_eq : ∀ s : Area, f (toRegion s) = toRegion { s with tag := g s.tag }
  size_eq : ∀ r, (f r).size = r.size

theorem updateWindow_toRegion {b e : ℕ} {before inside after : List Area}
    (hordered : Ordered (before ++ inside ++ after)) (hparts : Parts b e before inside after)
    {f : MemblockRegion → MemblockRegion} {g : Tag → Tag} (hfg : Retags f g) :
    updateWindow f (before.length, before.length + inside.length)
        ((before ++ inside ++ after).map toRegion) =
      (retag b e g (before ++ inside ++ after)).map toRegion := by
  have hmap : (inside.map toRegion).map f =
      (inside.map fun s => { s with tag := g s.tag }).map toRegion := by
    rw [List.map_map, List.map_map]
    exact List.map_congr_left fun s _ => hfg.toRegion_eq s
  have hwindow := updateWindow_append f (before.map toRegion) (inside.map toRegion)
    (after.map toRegion)
  simp only [List.length_map, hmap, ← List.map_append] at hwindow
  rw [hwindow, retag_parts hparts hordered]

/-- A completed change of a range cuts at its ends, retags what lies inside and
coalesces; for want of slots it does nothing. -/
theorem updateRange_refines (h : Proper segs) (hmerged : Merged segs) (hsize : size ≠ 0)
    (hlt : base + size < 2 ^ 64) {f : MemblockRegion → MemblockRegion} {g : Tag → Tag}
    (hfg : Retags f g)
    (hok : updateRange behind f (table (segs.map toRegion) slots drift) base size =
      .ok (m, err)) :
    let changed := retag base (base + size) g (isolate base (base + size) segs)
    (err = -ENOSPC ∧ slots.length < 2 ∧ m = table (segs.map toRegion) slots drift) ∨
    (err = SUCCESS ∧ ¬ slots.length < 2 ∧ ∃ slots', SlotsFrom slots changed slots' ∧
      m = table ((coalesce changed).map toRegion) slots' drift) := by
  intro changed
  have hbe : base < base + size := by omega
  have hend : add64 base size = base + size := add64_eq hlt
  obtain ⟨before, inside, after, hisolate, hparts, hindices⟩ :=
    isolateIndices_toRegion hbe h 0
  have hregions := isolateRegions_toRegion hbe hlt h
  have hproper := h.isolate (b := base) (e := base + size)
  have houter := Merged.parts h hmerged hbe hisolate hparts
  rw [hisolate] at hproper hregions
  have hchanged : changed =
      before ++ inside.map (fun s => { s with tag := g s.tag }) ++ after := by
    rw [← retag_parts hparts hproper.ordered, ← hisolate]
  rw [updateRange_table behind hfg.size_eq hsize, hend, hregions, hindices] at hok
  split_ifs at hok with hspace hfits
  · simp only [Except.ok.injEq, Prod.mk.injEq] at hok
    exact .inl ⟨hok.2.symm, hspace, hok.1.symm⟩
  right
  obtain ⟨m', hmerge, hreply⟩ := Math.bind_eq_ok.mp hok
  obtain ⟨rfl, rfl⟩ := Prod.mk.inj (Except.ok.inj hreply)
  refine ⟨rfl, hspace, ?_⟩
  rw [updateResult, windowOf, Nat.zero_add] at hmerge
  by_cases hinside : inside = []
  · subst hinside
    rw [if_pos rfl, if_pos rfl] at hmerge
    rw [List.map_nil, List.append_nil] at hchanged
    rw [List.append_nil] at hmerge
    rw [hchanged, coalesce_eq_self houter]
    exact ⟨_, slotsFrom_drop _, (Except.ok.inj hmerge).symm⟩
  · rw [if_neg hinside, if_neg (by simp [hinside])] at hmerge
    have hproper' : Proper changed := h.isolate.retag
    have hupdate := updateWindow_toRegion hproper.ordered hparts hfg
    rw [retag_parts hparts hproper.ordered, ← hchanged] at hupdate
    have hm := mergeResult_ok hmerge
    rw [hupdate] at hm
    have hmerge' := mergedBy_toRegion (hchanged ▸ hproper') (List.isChain_append.mp houter).1
      (List.isChain_append.mp houter).2.1 (by simpa using hinside)
    rw [List.length_map, ← hchanged] at hmerge'
    rw [hmerge'] at hm
    exact ⟨_, slotsFrom_slotsAfter (by simp [hchanged, hinside]) _ _, hm⟩

/-- A completed removal cuts at the ends of the range and erases what lies inside. -/
theorem memblockRemove_refines (h : Proper segs) (hsize : size ≠ 0)
    (hlt : base + size < 2 ^ 64)
    (hok : memblockRemove (table (segs.map toRegion) slots drift) base size = .ok (m, err)) :
    (err = -ENOSPC ∧ m = table (segs.map toRegion) slots drift) ∨
    (err = SUCCESS ∧ ∃ slots' drift',
      m = table ((erase base (base + size) (isolate base (base + size) segs)).map toRegion)
        slots' drift') := by
  have hbe : base < base + size := by omega
  have hend : add64 base size = base + size := add64_eq hlt
  obtain ⟨before, inside, after, hisolate, hparts, hindices⟩ :=
    isolateIndices_toRegion hbe h 0
  have hregions := isolateRegions_toRegion hbe hlt h
  have hproper := h.isolate (b := base) (e := base + size)
  rw [hisolate] at hproper hregions
  have hkept : dropWindow (windowOf before.length inside)
      ((before ++ inside ++ after).map toRegion) = (before ++ after).map toRegion := by
    rw [windowOf]
    split
    · rename_i hinside
      simp [dropWindow, hinside]
    · rw [dropWindow, List.append_assoc, List.map_append, List.take_left' (by simp),
        ← List.map_append, ← List.append_assoc, List.map_append,
        List.drop_left' (by simp), List.map_append]
  have hremove := memblockRemove_table base hsize (segs.map toRegion) slots drift
  simp only [hend, hregions, hindices, Nat.zero_add, hkept] at hremove
  rw [hisolate, erase_parts hparts hproper.ordered]
  split_ifs at hremove with hspace hfits
  · rw [hremove] at hok
    simp only [Except.ok.injEq, Prod.mk.injEq] at hok
    exact .inl ⟨hok.2.symm, hok.1.symm⟩
  · obtain ⟨slots', drift', -, hremove⟩ := hremove
    rw [hremove] at hok
    simp only [Except.ok.injEq, Prod.mk.injEq] at hok
    exact .inr ⟨hok.2.symm, slots', drift', hok.1.symm⟩
  · rw [hremove] at hok
    simp at hok

end Operations

end Cyanea.Memory
