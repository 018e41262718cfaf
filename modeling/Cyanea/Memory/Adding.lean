/-
# Additions to an empty table

What the boot code does with the table first: it adds ranges that carry no node and no
flags, one after the other. The table then records exactly the bytes that were added,
and only one thing can go wrong: the last slot of the array is taken by a region
behind all the others. `merge_regions` then looks for the slot behind it.
-/

import Cyanea.Math.Cover
import Cyanea.Memory.Invariant

namespace Cyanea.Memory

open Cyanea.Math Cyanea.Math.Segments

/-- A range of addresses. -/
structure Range where
  start : ℕ
  size : ℕ
  deriving DecidableEq, Repr

/-- The addresses of a range. -/
def Range.bytes (r : Range) : Set ℕ := Set.Ico r.start (r.start + r.size)

/-- The addresses of all ranges of a list. -/
def bytesOf (l : List Range) : Set ℕ := {a | ∃ r ∈ l, a ∈ r.bytes}

/-- Add all ranges of a list, without a node and without flags. -/
def addRanges (behind : Option MemblockRegion) (l : List Range) (m : Memblock) :
    Except Fault Memblock :=
  l.foldlM (fun m r => do
    let (m, _) ← memblockAdd behind m r.start r.size (-1) MEMBLOCK_NONE
    return m) m

/-- The range would become the last region of a full array, behind all that is there. -/
structure FillsArray (there : Set ℕ) (r : Range) : Prop where
  nonempty : r.size ≠ 0
  runs : (lasts (· ∈ there)).ncard + 1 = NR_REGIONS
  behind : ∀ a ∈ there, a + 1 < r.start

/-- No range of the list fills the array when it is added behind those before it. -/
def NeverFills (l : List Range) : Prop :=
  ∀ before r after, l = before ++ r :: after → ¬ FillsArray (bytesOf before) r

@[simp]
theorem bytesOf_nil : bytesOf [] = ∅ := by
  ext a
  exact iff_of_false nofun nofun

theorem bytesOf_concat (l : List Range) (r : Range) :
    bytesOf (l ++ [r]) = bytesOf l ∪ r.bytes := by
  ext a
  constructor
  · rintro ⟨q, hq, ha⟩
    rcases List.mem_append.mp hq with hq | hq
    · exact .inl ⟨q, hq, ha⟩
    · exact .inr (List.mem_singleton.mp hq ▸ ha)
  · rintro (⟨q, hq, ha⟩ | ha)
    · exact ⟨q, List.mem_append_left _ hq, ha⟩
    · exact ⟨r, List.mem_append_right _ (List.mem_singleton_self r), ha⟩

theorem neverFills_nil : NeverFills [] := by
  intro before r after heq
  exact absurd heq (by simp)

theorem neverFills_concat {l : List Range} {r : Range} :
    NeverFills (l ++ [r]) ↔ NeverFills l ∧ ¬ FillsArray (bytesOf l) r := by
  constructor
  · intro h
    refine ⟨fun before q after heq => h before q (after ++ [r]) (by simp [heq]), ?_⟩
    exact h l r [] rfl
  · rintro ⟨hl, hr⟩ before q after heq
    rcases List.eq_nil_or_concat after with rfl | ⟨after, last, rfl⟩
    · obtain ⟨rfl, hq⟩ := List.append_inj' heq rfl
      obtain rfl := List.singleton_inj.mp hq
      exact hr
    · rw [List.concat_eq_append, ← List.cons_append, ← List.append_assoc] at heq
      obtain ⟨hfront, -⟩ := List.append_inj' heq rfl
      exact hl before q after hfront

/-! ## Where the pieces go -/

/-- A range behind all segments is one piece. -/
theorem fill_behind {b e : ℕ} {x : Tag} (hbe : b < e) {segs : List Area}
    (h : ∀ s ∈ segs, s.lo < s.hi ∧ s.hi ≤ b) : fill b e x segs = segs ++ [⟨b, e, x⟩] := by
  induction segs with
  | nil => exact if_pos hbe
  | cons s segs ih =>
      obtain ⟨hs, hsegs⟩ := List.forall_mem_cons.mp h
      have hlo : ¬ e ≤ s.lo := by omega
      rw [fill, if_neg hlo, if_pos hs.2, ih hsegs]
      rfl

/-- The window of a range that touches no region is that of its one piece. -/
theorem fillWindow_alone {base rangeEnd : ℕ} (hlt : base < rangeEnd) {before : List Area}
    (behind : List Area) (h : Proper (before ++ behind)) (hbefore : ∀ s ∈ before, s.hi < base)
    (hbehind : ∀ s ∈ behind, rangeEnd < s.lo) (i : ℕ) :
    fillWindow rangeEnd i base none ((before ++ behind).map toRegion) =
      some (i + before.length, i + before.length + 1) := by
  induction before generalizing i with
  | nil =>
      cases behind with
      | nil =>
          rw [List.append_nil, List.map_nil, fillWindow, if_pos hlt]
          rfl
      | cons s behind =>
          have hle : rangeEnd ≤ (toRegion s).base := (hbehind s List.mem_cons_self).le
          rw [List.nil_append, List.map_cons, fillWindow, if_pos hle, if_pos hlt]
          rfl
  | cons s before ih =>
      obtain ⟨hs, hrest⟩ := List.forall_mem_cons.mp hbefore
      have hlo : s.lo < s.hi := h.head_lt
      have hnot : ¬ rangeEnd ≤ (toRegion s).base := by
        rw [toRegion_base]
        omega
      have hend : (toRegion s).regionEnd ≤ base := by
        rw [toRegion_regionEnd hlo (h.hi_lt s List.mem_cons_self)]
        exact hs.le
      rw [List.cons_append, List.map_cons, fillWindow, if_neg hnot, if_pos hend,
        ih h.tail hrest, List.length_cons]
      exact congrArg some (Prod.ext (by simp only; omega) (by simp only; omega))

/-- Where nothing is inserted there is no window. -/
theorem fillWindow_eq_none {rangeEnd base : ℕ} (nid : ℤ) (flags : MemblockFlags)
    {live : List MemblockRegion} (i : ℕ)
    (h : (fillRegions rangeEnd nid flags base live).length = live.length) :
    fillWindow rangeEnd i base none live = none := by
  induction live generalizing base i with
  | nil =>
      rw [fillRegions] at h
      split at h
      · exact absurd h (by simp)
      · rename_i hbase
        rw [fillWindow, if_neg hbase]
  | cons r rest ih =>
      have hle := length_le_fillRegions rangeEnd nid flags (min r.regionEnd rangeEnd) rest
      rw [fillRegions] at h
      rw [fillWindow]
      split_ifs at h ⊢ with hbehind hbase hend hbase
      · exact absurd h (by simp)
      · rfl
      · exact ih (i + 1) (Nat.succ.inj h)
      · simp only [List.length_cons] at h
        omega
      · exact ih (i + 1) (Nat.succ.inj h)

/-! ## The last comparison -/

/-- The tag of every byte that the boot code adds. -/
def bootTag : Tag := (MEMBLOCK_NONE, -1)

/-- The table records these addresses, each without a node and without flags. -/
def Records (there : Set ℕ) (m : Memblock) : Prop :=
  ∃ segs slots, Proper segs ∧ Merged segs ∧ segs.length + slots.length = NR_REGIONS ∧
    (∀ z ∈ slots, z.base = 0 ∨ Stale segs z) ∧ m = table (segs.map toRegion) slots 0 ∧
    Uniform bootTag segs ∧ covered segs = there

theorem records_memory : Records ∅ memory := by
  refine ⟨[], List.replicate NR_REGIONS ⟨MEMBLOCK_NONE, 0, 0, 0⟩, proper_nil, .nil, by simp,
    fun z hz => .inl ?_, memory_eq_table, List.forall_mem_nil _, ?_⟩
  · rw [(List.mem_replicate.mp hz).2]
  · ext a
    exact iff_of_false nofun nofun

section Clear

variable {behind : Option MemblockRegion} {segs : List Area} {slots : List MemblockRegion}
  {r : Range}

/-- The segments end before a range that leaves room behind everything covered. -/
theorem hi_lt_of_behind (h : Proper segs) {b : ℕ} (hb : ∀ a ∈ covered segs, a + 1 < b) :
    ∀ s ∈ segs, s.hi < b := by
  intro s hs
  have hlt := h.ordered.lo_lt_hi hs
  have hcov : s.hi - 1 ∈ covered segs := lookup_isSome_iff.mpr ⟨s, hs, by omega, by omega⟩
  have hroom := hb _ hcov
  omega

/-- If the regions of the scan do not join, nothing joins anywhere. -/
theorem merged_of_window {base rangeEnd : ℕ} {nid : ℤ} {flags : MemblockFlags}
    (h : Proper (fill base rangeEnd (flags, nid) segs))
    (hold : Proper segs) (hmerged : Merged segs) (hend : rangeEnd < 2 ^ 64) {window : ℕ × ℕ}
    (hwindow : fillWindow rangeEnd 0 base none (segs.map toRegion) = some window)
    (hlast : window.2 = (fill base rangeEnd (flags, nid) segs).length)
    (hchain : (((fill base rangeEnd (flags, nid) segs).map toRegion).drop
      (window.1 - 1)).IsChain Apart) :
    Merged (fill base rangeEnd (flags, nid) segs) := by
  have hregions := fillRegions_toRegion base hend nid flags hold
  have hlive := (isChain_apart_iff hold).mpr hmerged
  rw [← isChain_apart_iff h]
  rcases fillWindow_none rangeEnd nid flags (segs.map toRegion) base 0 with
    ⟨hnone, -⟩ | ⟨pre, added, old, tail, -, hsegs, hfill, hsome⟩
  · cases hnone.symm.trans hwindow
  · obtain rfl := Option.some.inj (hsome.symm.trans hwindow)
    dsimp only at hlast hchain
    have hlength := congrArg List.length (hregions.symm.trans hfill)
    simp only [List.length_map, List.length_append] at hlength hlast
    obtain rfl : tail = [] := List.eq_nil_of_length_eq_zero (by omega)
    have hwhole : (fill base rangeEnd (flags, nid) segs).map toRegion = pre ++ added := by
      rw [← List.append_nil (pre ++ added)]
      exact hregions.symm.trans hfill
    rw [hsegs] at hlive
    rw [hwhole] at hchain ⊢
    have hpre : pre.IsChain Apart :=
      (List.isChain_append.mp (List.isChain_append.mp hlive).1).1
    rcases List.eq_nil_or_concat pre with rfl | ⟨front, s, rfl⟩
    · exact hchain
    · have hdrop : (front.concat s ++ added).drop (0 + (front.concat s).length - 1) =
          [s] ++ added := by
        simp
      rw [hdrop] at hchain
      rw [List.concat_eq_append] at hpre ⊢
      exact hpre.append_overlap hchain (List.cons_ne_nil _ _)

/-- An addition that does not fill the array from behind does no harm. -/
theorem addClear_of_not_fills (behind : Option MemblockRegion) (h : Proper segs) (hmerged : Merged segs)
    (hlength : segs.length + slots.length = NR_REGIONS)
    (hslots : ∀ z ∈ slots, z.base = 0 ∨ Stale segs z) (hx : Uniform bootTag segs)
    (hr : r.start + r.size < 2 ^ 64) (hfills : ¬ FillsArray (covered segs) r) :
    AddClear behind r.start r.size (-1) MEMBLOCK_NONE (segs.map toRegion) slots := by
  by_cases hroom : (fillRegions (add64 r.start r.size) (-1) MEMBLOCK_NONE r.start
      (segs.map toRegion)).length ≠ segs.length + slots.length
  · exact addClear_of_stale h hslots hr hroom
  have hregions := fillRegions_toRegion r.start hr (-1) MEMBLOCK_NONE h
  have hproper := h.fill hr bootTag (b := r.start)
  have hlen := not_not.mp hroom
  rw [add64_eq hr] at hlen
  simp only [AddClear, add64_eq hr]
  intro hsize hlive hfits window hwindow hlast
  have hbe : r.start < r.start + r.size := by omega
  have hcount := hlen
  rw [hregions, List.length_map] at hcount hlast
  rw [hregions, TailClear]
  split
  · rename_i hchain
    exfalso
    have hall : Merged (fill r.start (r.start + r.size) bootTag segs) :=
      merged_of_window hproper h hmerged hr hwindow hlast hchain
    rcases fill_cases h.ordered hx hbe hall with hsame | ⟨before, after, hsegs, hfill, hb, ha⟩
    · -- nothing was inserted, so there is no window
      have hlen : (fillRegions (r.start + r.size) (-1) MEMBLOCK_NONE r.start
          (segs.map toRegion)).length = (segs.map toRegion).length := by
        rw [hregions]
        exact congrArg (fun l => (List.map toRegion l).length) hsame
      have hnone := fillWindow_eq_none (-1) MEMBLOCK_NONE 0 hlen
      cases hnone.symm.trans hwindow
    · have halone := fillWindow_alone hbe after (hsegs ▸ h) hb ha 0
      rw [← hsegs] at halone
      obtain rfl := Option.some.inj (halone.symm.trans hwindow)
      have hfillLength := congrArg List.length hfill
      simp only [List.length_append, List.length_cons] at hfillLength
      obtain rfl : after = [] := by
        apply List.eq_nil_of_length_eq_zero
        simp only [bootTag] at hfillLength hlast
        omega
      rw [List.append_nil] at hsegs
      subst hsegs
      refine hfills ⟨hsize, ?_, ?_⟩
      · rw [← length_eq_ncard_lasts h.ordered hx hmerged]
        simp only [bootTag, List.length_nil] at hfillLength hcount
        omega
      · intro a hcov
        obtain ⟨s, hs, hsa⟩ := lookup_isSome_iff.mp hcov
        have hhi := hb s hs
        have hlt := hsa.2
        omega
  · -- some regions joined, and the last one is not empty
    have hin := windowIn_fillWindow _ (-1) MEMBLOCK_NONE hwindow
    rw [hregions, List.length_map] at hin
    obtain ⟨hne, heq⟩ := getLastD_window hin
    rw [heq]
    exact regionEnd_ne_base hproper hne

/-- The area of a range that the boot code adds. -/
def Range.area (r : Range) : Area := ⟨r.start, r.start + r.size, bootTag⟩

/-- An addition that fills the array from behind leaves no slot to compare with. -/
theorem not_addClear_of_fills (h : Proper segs) (hmerged : Merged segs)
    (hlength : segs.length + slots.length = NR_REGIONS) (hx : Uniform bootTag segs)
    (hr : r.start + r.size < 2 ^ 64) (hfills : FillsArray (covered segs) r) :
    ¬ AddClear none r.start r.size (-1) MEMBLOCK_NONE (segs.map toRegion) slots := by
  obtain ⟨hsize, hruns, hbehind⟩ := hfills
  rw [← length_eq_ncard_lasts h.ordered hx hmerged] at hruns
  have hbe : r.start < r.start + r.size := by omega
  have hhi := hi_lt_of_behind h hbehind
  have hfill : fill r.start (r.start + r.size) bootTag segs = segs ++ [r.area] :=
    fill_behind hbe fun s hs => ⟨h.ordered.lo_lt_hi hs, (hhi s hs).le⟩
  have hregions := fillRegions_toRegion r.start hr (-1) MEMBLOCK_NONE h
  rw [← bootTag, hfill] at hregions
  have hwindow := fillWindow_alone hbe [] (by rwa [List.append_nil]) hhi
    (List.forall_mem_nil _) 0
  rw [List.append_nil, Nat.zero_add] at hwindow
  obtain ⟨front, s, hsegs⟩ : ∃ front s, segs = front ++ [s] := by
    rcases List.eq_nil_or_concat segs with rfl | ⟨front, s, hconcat⟩
    · exact absurd hruns (by decide)
    · exact ⟨front, s, by rw [hconcat, List.concat_eq_append]⟩
  have hs : s ∈ segs := by
    rw [hsegs]
    exact List.mem_append_right _ (List.mem_singleton_self s)
  have hnew : ((segs ++ [r.area]).map toRegion).length = segs.length + 1 := by
    rw [List.length_map, List.length_append, List.length_singleton]
  intro hclear
  simp only [AddClear, add64_eq hr, hregions, hnew, List.length_map] at hclear
  have hlive : segs.map toRegion ≠ [] := by
    rw [Ne, List.map_eq_nil_iff]
    exact List.ne_nil_of_mem hs
  have htail := hclear hsize hlive (by omega) _ hwindow hnew.symm
  -- the scan compares the last region, the new one, and the slot behind the array
  have hdrop : ((segs ++ [r.area]).map toRegion).drop (segs.length - 1) =
      [toRegion s, toRegion r.area] := by
    rw [hsegs]
    simp
  have hslots : slots.drop (segs.length + 1 - segs.length) = [] :=
    List.drop_eq_nil_of_le (by omega)
  have hchain : [toRegion s, toRegion r.area].IsChain Apart := by
    refine List.isChain_cons_cons.mpr ⟨?_, List.isChain_singleton _⟩
    rw [apart_toRegion_iff (h.ordered.lo_lt_hi hs) (h.hi_lt s hs)]
    exact fun hjoins => absurd hjoins.1 (hhi s hs).ne
  rw [hslots, hdrop, TailClear, if_pos hchain] at htail
  obtain ⟨z, hz, -⟩ := htail
  cases hz

end Clear

/-! ## Runs -/

section Run

variable {behind : Option MemblockRegion} {there : Set ℕ} {m : Memblock} {r : Range}
  {l : List Range}

theorem mergeAdded_ne_outOfSpace (window : Option (ℕ × ℕ)) (live slots : List MemblockRegion)
    (drift : ℕ) : mergeAdded behind window live slots drift ≠ .error .outOfSpace := by
  cases window with
  | none => simp [mergeAdded]
  | some window =>
      rw [mergeAdded, mergeResult]
      split
      · rename_i f hfault
        intro heq
        obtain rfl : f = .outOfSpace := Except.error.inj heq
        exact windowFault_ne_outOfSpace behind window live slots hfault
      · simp

/-- An addition that does not fill the array from behind is recorded. -/
theorem Records.add (behind : Option MemblockRegion) (h : Records there m) (hr : r.start + r.size < 2 ^ 64)
    (hfills : ¬ FillsArray there r) :
    Ends (fun next => Records (there ∪ r.bytes) next.1) (fun f => f = .outOfSpace)
      (memblockAdd behind m r.start r.size (-1) MEMBLOCK_NONE) := by
  obtain ⟨segs, slots, hproper, hmerged, hlength, hslots, rfl, hx, rfl⟩ := h
  have hclear := addClear_of_not_fills behind hproper hmerged hlength hslots hx hr
    hfills
  have hlive : 0 < (segs.map toRegion).length + slots.length := by
    rw [List.length_map, hlength]
    decide
  have hexact := addRange_endsIff behind r.start (show r.size < 2 ^ 64 by omega) (-1)
    MEMBLOCK_NONE (segs.map toRegion) slots 0 hlive
  rw [memblockAdd, show MEMBLOCK_NONE &&& ~~~ MEMBLOCK_RESERVED = MEMBLOCK_NONE from rfl]
  cases hadd : addRange behind (table (segs.map toRegion) slots 0) r.start r.size (-1)
      MEMBLOCK_NONE with
  | error f =>
      rw [hadd] at hexact
      exact hexact.mpr hclear
  | ok next =>
      obtain ⟨m, err⟩ := next
      rw [hadd] at hexact
      obtain ⟨-, segs', hbecomes, hlookup⟩ := addRange_effect hproper hmerged hr hadd
      obtain ⟨hproper', hmerged', slots', drift, hdrift, hstale, rfl⟩ := hbecomes
      obtain rfl : drift = 0 := hdrift.elim id id
      have hsome : ∀ a, (lookup segs' a).isSome ↔ (lookup segs a).isSome ∨ a ∈ r.bytes := by
        intro a
        rw [hlookup, MemoryMap.add, Option.isSome_or, Bool.or_eq_true]
        refine or_congr_right ?_
        split
        · rename_i hin
          exact iff_of_true rfl hin
        · rename_i hin
          exact iff_of_false (by simp) hin
      refine ⟨segs', slots', hproper', hmerged', ?_, ?_, rfl, ?_, ?_⟩
      · have hwithin := hexact.2.2
        simp only [table_max, List.length_map] at hwithin
        omega
      · intro z hz
        rcases hstale z hz with hz | hz
        · exact (hslots z hz).imp id fun hold => hold.mono fun a ha => (hsome a).mpr (.inl ha)
        · exact .inr hz
      · apply uniform_of_lookup hproper'.ordered
        intro a y hy
        rw [hlookup, MemoryMap.add, Option.or_eq_some_iff] at hy
        rcases hy with hy | ⟨-, hy⟩
        · exact hx.lookup hy
        · split at hy
          · exact (Option.some.inj hy).symm
          · cases hy
      · ext a
        exact hsome a

/-- If nothing lies behind the array, an addition that fills it does not return. -/
theorem Records.not_ok (h : Records there m) (hr : r.start + r.size < 2 ^ 64)
    (hfills : FillsArray there r) (next : Memblock × ℤ) :
    memblockAdd none m r.start r.size (-1) MEMBLOCK_NONE ≠ .ok next := by
  obtain ⟨segs, slots, hproper, hmerged, hlength, hslots, rfl, hx, rfl⟩ := h
  have hlive : 0 < (segs.map toRegion).length + slots.length := by
    rw [List.length_map, hlength]
    decide
  have hexact := addRange_endsIff none r.start (show r.size < 2 ^ 64 by omega) (-1)
    MEMBLOCK_NONE (segs.map toRegion) slots 0 hlive
  rw [memblockAdd, show MEMBLOCK_NONE &&& ~~~ MEMBLOCK_RESERVED = MEMBLOCK_NONE from rfl]
  intro hok
  rw [hok] at hexact
  exact not_addClear_of_fills hproper hmerged hlength hx hr hfills hexact.1

/-- An addition behind everything needs one slot. -/
theorem Records.add_room (behind : Option MemblockRegion) (h : Records there m) (hr : r.start + r.size < 2 ^ 64)
    (hbehind : ∀ a ∈ there, a + 1 < r.start) (hroom : (lasts (· ∈ there)).ncard < NR_REGIONS) :
    memblockAdd behind m r.start r.size (-1) MEMBLOCK_NONE ≠ .error .outOfSpace := by
  obtain ⟨segs, slots, hproper, hmerged, hlength, hslots, rfl, hx, rfl⟩ := h
  rw [← length_eq_ncard_lasts hproper.ordered hx hmerged] at hroom
  have hhi := hi_lt_of_behind hproper hbehind
  rw [memblockAdd, show MEMBLOCK_NONE &&& ~~~ MEMBLOCK_RESERVED = MEMBLOCK_NONE from rfl]
  by_cases hsize : r.size = 0
  · rw [hsize, addRange_empty]
    simp
  by_cases hlive : segs.map toRegion = []
  · rw [hlive]
    obtain ⟨z, slots, rfl⟩ : ∃ z slots', slots = z :: slots' := by
      apply List.exists_cons_of_length_pos
      omega
    rw [addRange_first behind hsize (by omega)]
    simp
  · have hbe : r.start < r.start + r.size := by omega
    have hfill : fill r.start (r.start + r.size) bootTag segs = segs ++ [r.area] :=
      fill_behind hbe fun s hs => ⟨hproper.ordered.lo_lt_hi hs, (hhi s hs).le⟩
    have hregions := fillRegions_toRegion r.start hr (-1) MEMBLOCK_NONE hproper
    rw [← bootTag, hfill] at hregions
    have hfits : ((segs ++ [r.area]).map toRegion).length ≤
        (segs.map toRegion).length + slots.length := by
      simp only [List.length_map, List.length_append, List.length_singleton]
      omega
    rw [addRange_table behind hsize hlive, add64_eq hr, hregions, if_pos hfits]
    cases hmerge : mergeAdded behind
        (fillWindow (r.start + r.size) 0 r.start none (segs.map toRegion))
        ((segs ++ [r.area]).map toRegion) (slots.drop (((segs ++ [r.area]).map toRegion).length -
          (segs.map toRegion).length)) 0 with
    | ok m => simp
    | error f =>
        intro heq
        obtain rfl : f = .outOfSpace := Except.error.inj heq
        exact mergeAdded_ne_outOfSpace _ _ _ _ hmerge

theorem addRanges_concat (l : List Range) (r : Range) (m : Memblock) :
    addRanges behind (l ++ [r]) m = (do
      let m ← addRanges behind l m
      let (m, _) ← memblockAdd behind m r.start r.size (-1) MEMBLOCK_NONE
      return m) := by
  rw [addRanges, addRanges, List.foldlM_append]
  refine bind_congr fun m => ?_
  rw [List.foldlM_cons, bind_assoc]
  refine bind_congr fun next => ?_
  rfl

/-- Where no range fills the array, all of them are recorded. -/
theorem addRanges_records (behind : Option MemblockRegion)
    (hl : ∀ r ∈ l, r.start + r.size < 2 ^ 64) (hnever : NeverFills l) :
    Ends (Records (bytesOf l)) (fun f => f = .outOfSpace) (addRanges behind l memory) := by
  induction l using List.reverseRecOn with
  | nil =>
      rw [bytesOf_nil]
      exact records_memory
  | append_singleton l r ih =>
      obtain ⟨hl, hr⟩ := List.forall_mem_append.mp hl
      obtain ⟨hnever, hfills⟩ := neverFills_concat.mp hnever
      rw [addRanges_concat, bytesOf_concat]
      apply (ih hl hnever).bind
      intro m hm
      exact (hm.add behind (hr r (List.mem_singleton_self r)) hfills).map fun _ h => h

/-- If nothing lies behind the array, the additions return only if no range fills it. -/
theorem neverFills_of_ok (hl : ∀ r ∈ l, r.start + r.size < 2 ^ 64)
    (hok : addRanges none l memory = .ok m) : NeverFills l := by
  induction l using List.reverseRecOn generalizing m with
  | nil => exact neverFills_nil
  | append_singleton l r ih =>
      obtain ⟨hl, hr⟩ := List.forall_mem_append.mp hl
      rw [addRanges_concat] at hok
      cases hfront : addRanges none l memory with
      | error f =>
          rw [hfront] at hok
          exact absurd hok nofun
      | ok m' =>
          have hnever := ih hl hfront
          refine neverFills_concat.mpr ⟨hnever, fun hfills => ?_⟩
          have hrecords := addRanges_records none hl hnever
          rw [hfront] at hok hrecords
          cases hadd : memblockAdd none m' r.start r.size (-1) MEMBLOCK_NONE with
          | error f =>
              change (memblockAdd none m' r.start r.size (-1) MEMBLOCK_NONE >>= _) = _ at hok
              rw [hadd] at hok
              exact absurd hok nofun
          | ok next => exact hrecords.not_ok (hr r (List.mem_singleton_self r)) hfills next hadd

end Run

/-! ## Filling the array -/

/-- Every second page from 0 on. -/
def gaps (n : ℕ) : List Range := (List.range n).map fun i => ⟨i * 8192, 4096⟩

theorem gaps_succ (n : ℕ) : gaps (n + 1) = gaps n ++ [⟨n * 8192, 4096⟩] := by
  rw [gaps, gaps, List.range_succ, List.map_append, List.map_singleton]

theorem mem_bytesOf_gaps {n a : ℕ} :
    a ∈ bytesOf (gaps n) ↔ ∃ i < n, i * 8192 ≤ a ∧ a < i * 8192 + 4096 := by
  constructor
  · rintro ⟨r, hr, ha⟩
    obtain ⟨i, hi, rfl⟩ := List.mem_map.mp hr
    exact ⟨i, List.mem_range.mp hi, ha⟩
  · rintro ⟨i, hi, ha⟩
    exact ⟨_, List.mem_map.mpr ⟨i, List.mem_range.mpr hi, rfl⟩, ha⟩

/-- Each of the pages is a run of its own. -/
theorem ncard_lasts_gaps (n : ℕ) : (lasts (· ∈ bytesOf (gaps n))).ncard = n := by
  have hlasts : lasts (· ∈ bytesOf (gaps n)) =
      ↑((Finset.range n).image fun i => i * 8192 + 4095) := by
    ext a
    rw [Finset.coe_image, Set.mem_image]
    constructor
    · rintro ⟨hin, hout⟩
      obtain ⟨i, hi, hle, hlt⟩ := mem_bytesOf_gaps.mp hin
      refine ⟨i, Finset.mem_coe.mpr (Finset.mem_range.mpr hi), ?_⟩
      by_contra hne
      exact hout (mem_bytesOf_gaps.mpr ⟨i, hi, by omega, by omega⟩)
    · rintro ⟨i, hi, rfl⟩
      have hi' := Finset.mem_range.mp (Finset.mem_coe.mp hi)
      refine ⟨mem_bytesOf_gaps.mpr ⟨i, hi', by omega, by omega⟩, ?_⟩
      intro hnext
      obtain ⟨j, -, hle, hlt⟩ := mem_bytesOf_gaps.mp hnext
      omega
  have hinj : Function.Injective fun i : ℕ => i * 8192 + 4095 := by
    intro i j heq
    dsimp only at heq
    omega
  rw [hlasts, Set.ncard_coe_finset, Finset.card_image_of_injective _ hinj, Finset.card_range]

theorem lt_of_mem_gaps {n a : ℕ} (ha : a ∈ bytesOf (gaps n)) : a + 1 < n * 8192 := by
  obtain ⟨i, hi, -, hlt⟩ := mem_bytesOf_gaps.mp ha
  omega

theorem fillsArray_gaps_iff (n : ℕ) :
    FillsArray (bytesOf (gaps n)) ⟨n * 8192, 4096⟩ ↔ n + 1 = NR_REGIONS := by
  constructor
  · intro h
    rw [← ncard_lasts_gaps n]
    exact h.runs
  · intro h
    refine ⟨show 4096 ≠ 0 by decide, ?_, fun a ha => lt_of_mem_gaps ha⟩
    rw [ncard_lasts_gaps]
    exact h

theorem gaps_records {n : ℕ} (hn : n < NR_REGIONS) :
    ∃ m, addRanges none (gaps n) memory = .ok m ∧ Records (bytesOf (gaps n)) m := by
  have hregions : NR_REGIONS = 128 := rfl
  induction n with
  | zero =>
      refine ⟨memory, rfl, ?_⟩
      rw [show gaps 0 = [] from rfl, bytesOf_nil]
      exact records_memory
  | succ n ih =>
      obtain ⟨m, hok, hrecords⟩ := ih (by omega)
      have hlt : n * 8192 + 4096 < 2 ^ 64 := by omega
      have hfills : ¬ FillsArray (bytesOf (gaps n)) ⟨n * 8192, 4096⟩ := by
        rw [fillsArray_gaps_iff]
        omega
      have hroom := hrecords.add_room none (r := ⟨n * 8192, 4096⟩) hlt
        (fun a ha => lt_of_mem_gaps ha) (by rw [ncard_lasts_gaps]; omega)
      have hadd := hrecords.add none (r := ⟨n * 8192, 4096⟩) hlt hfills
      rw [gaps_succ, addRanges_concat, hok, bytesOf_concat]
      change ∃ m', (memblockAdd none m (n * 8192) 4096 (-1) MEMBLOCK_NONE >>= _) = _ ∧ _
      dsimp only at hroom hadd
      cases hresult : memblockAdd none m (n * 8192) 4096 (-1) MEMBLOCK_NONE with
      | error f =>
          rw [hresult] at hroom hadd
          exact absurd (congrArg Except.error hadd) hroom
      | ok next =>
          rw [hresult] at hadd
          exact ⟨next.1, rfl, hadd⟩

/-- 128 separate pages, added in order: the last one fills the array, and the comparison
with what lies behind it stops the call. -/
theorem gaps_fill :
    ∃ f, f ≠ Fault.outOfSpace ∧ addRanges none (gaps NR_REGIONS) memory = .error f := by
  have hregions : NR_REGIONS = 127 + 1 := rfl
  obtain ⟨m, hok, hrecords⟩ := gaps_records (n := 127) (by decide)
  have hlt : 127 * 8192 + 4096 < 2 ^ 64 := by decide
  have hroom := hrecords.add_room none (r := ⟨127 * 8192, 4096⟩) hlt
    (fun a ha => lt_of_mem_gaps ha) (by rw [ncard_lasts_gaps]; decide)
  have hnot := hrecords.not_ok (r := ⟨127 * 8192, 4096⟩) hlt ((fillsArray_gaps_iff 127).mpr rfl)
  rw [hregions, gaps_succ, addRanges_concat, hok]
  dsimp only at hroom hnot
  change ∃ f, f ≠ Fault.outOfSpace ∧
    (memblockAdd none m (127 * 8192) 4096 (-1) MEMBLOCK_NONE >>= _) = _
  cases hresult : memblockAdd none m (127 * 8192) 4096 (-1) MEMBLOCK_NONE with
  | error f =>
      rw [hresult] at hroom
      exact ⟨f, fun heq => hroom (congrArg Except.error heq), rfl⟩
  | ok next => exact absurd hresult (hnot next)

end Cyanea.Memory
