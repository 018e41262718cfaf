/-
# The memory map

What the allocator is for: a partial map from addresses to flags and nodes.
`Effect` says what a call with a given reply may do to that map, without regions
or slots; `step_refines` shows that every completed call of the allocator has
its effect, as long as base and size of a range do not wrap around.
-/

import Cyanea.Memory.Refinement

namespace Cyanea.Memory

open Cyanea.Math Cyanea.Math.Segments

/-! ## The abstract map -/

/-- Which addresses are memory, and what is recorded about them. -/
abbrev MemoryMap := ℕ → Option Tag

namespace MemoryMap

/-- Memory appears where there was none. -/
def add (b e : ℕ) (x : Tag) (f : MemoryMap) : MemoryMap := fun a =>
  (f a).or (if b ≤ a ∧ a < e then some x else none)

/-- The record of a range changes. -/
def change (b e : ℕ) (g : Tag → Tag) (f : MemoryMap) : MemoryMap := fun a =>
  if b ≤ a ∧ a < e then (f a).map g else f a

/-- A range is no longer memory. -/
def remove (b e : ℕ) (f : MemoryMap) : MemoryMap := fun a =>
  if b ≤ a ∧ a < e then none else f a

end MemoryMap

/-- The tag that `memblock_setclr_flag` leaves. -/
def setclrTag (set : Bool) (flags : MemblockFlags) (x : Tag) : Tag :=
  (if set then x.1 ||| flags else x.1 &&& ~~~ flags, x.2)

/-- What a call with the given reply does to the map. A call that reports an error
does nothing; `memblock_free` reports none. -/
def Effect (f f' : MemoryMap) : Call → Reply → Prop
  | .add base size nid flags, r =>
      r = .status SUCCESS ∧
        f' = f.add base.toNat (base.toNat + size.toNat) (flags &&& ~~~ MEMBLOCK_RESERVED, nid)
  | .remove base size, r =>
      r = .status (-ENOSPC) ∧ f' = f ∨
        r = .status SUCCESS ∧ f' = f.remove base.toNat (base.toNat + size.toNat)
  | .setclrFlag base size set flags, r =>
      r = .status (-ENOSPC) ∧ f' = f ∨
        r = .status SUCCESS ∧
          f' = f.change base.toNat (base.toNat + size.toNat) (setclrTag set flags)
  | .setNode base size nid, r =>
      r = .status (-ENOSPC) ∧ f' = f ∨
        r = .status SUCCESS ∧
          f' = f.change base.toNat (base.toNat + size.toNat) (fun x => (x.1, nid))
  | .reserve base size, r =>
      r = .status (-ENOSPC) ∧ f' = f ∨
        r = .status SUCCESS ∧
          f' = f.change base.toNat (base.toNat + size.toNat) (setclrTag true MEMBLOCK_RESERVED)
  | .alloc size _ _ _ _ _, r =>
      r = .address 0 ∧ f' = f ∨
        ∃ paddr, paddr ≠ 0 ∧ r = .address paddr ∧
          f' = f.change paddr (paddr + size.toNat) (setclrTag true MEMBLOCK_RESERVED)
  | .free base size, r =>
      r = .void ∧
        (f' = f ∨
          f' = f.change base.toNat (base.toNat + size.toNat)
            (setclrTag false MEMBLOCK_RESERVED))

/-- The range of the call, if it names one, ends below 2^64. -/
def Call.Bounded : Call → Prop
  | .add base size _ _ | .remove base size | .setclrFlag base size _ _
  | .setNode base size _ | .reserve base size | .free base size =>
      base.toNat + size.toNat ≤ 2 ^ 64 - 1
  | .alloc _ _ _ _ _ _ => True

instance (call : Call) : Decidable call.Bounded :=
  match call with
  | .add _ _ _ _ | .remove _ _ | .setclrFlag _ _ _ _ | .setNode _ _ _ | .reserve _ _
  | .free _ _ => inferInstanceAs (Decidable (_ ≤ _))
  | .alloc _ _ _ _ _ _ => inferInstanceAs (Decidable True)

/-- The call does not take memory away. -/
def Call.KeepsMemory : Call → Prop
  | .remove _ _ => False
  | _ => True

instance (call : Call) : Decidable call.KeepsMemory :=
  match call with
  | .remove _ _ => inferInstanceAs (Decidable False)
  | .add _ _ _ _ | .setclrFlag _ _ _ _ | .setNode _ _ _ | .reserve _ _ | .free _ _
  | .alloc _ _ _ _ _ _ => inferInstanceAs (Decidable True)

/-! ## The map of a table -/

/-- The region covers the address. -/
def MemblockRegion.Covers (r : MemblockRegion) (a : ℕ) : Prop := r.base ≤ a ∧ a < r.base + r.size

instance (r : MemblockRegion) (a : ℕ) : Decidable (r.Covers a) :=
  inferInstanceAs (Decidable (_ ∧ _))

/-- What the live regions record about an address. -/
def Memblock.tagAt (m : Memblock) : MemoryMap := fun a =>
  (m.live.find? fun r => r.Covers a).map fun r => (r.flags, r.nid)

theorem tagAt_isSome_iff {m : Memblock} {a : ℕ} :
    (m.tagAt a).isSome ↔ ∃ r ∈ m.live, r.Covers a := by
  simp [Memblock.tagAt]

theorem tagAt_table_ordered {segs : List Area} (h : Ordered segs) (slots : List MemblockRegion)
    (drift : ℕ) : (table (segs.map toRegion) slots drift).tagAt = lookup segs := by
  funext a
  rw [Memblock.tagAt, live_table]
  induction segs with
  | nil => rfl
  | cons s segs ih =>
      have hlt := h.1
      have hcovers : (toRegion s).Covers a ↔ s.Covers a := by
        simp only [MemblockRegion.Covers, toRegion, Segment.Covers]
        omega
      rw [List.map_cons, List.find?_cons, lookup]
      by_cases hs : s.Covers a
      · rw [decide_eq_true (hcovers.mpr hs), if_pos hs]
        rfl
      · rw [decide_eq_false (mt hcovers.mp hs), if_neg hs]
        exact ih h.2.2

theorem tagAt_table {segs : List Area} (h : Proper segs) (slots : List MemblockRegion)
    (drift : ℕ) : (table (segs.map toRegion) slots drift).tagAt = lookup segs :=
  tagAt_table_ordered h.ordered slots drift

/-! ## Refinement -/

theorem retags_setclr (set : Bool) (flags : MemblockFlags) :
    Retags (setclr set flags) (setclrTag set flags) :=
  ⟨fun _ => rfl, fun _ => rfl⟩

theorem retags_setNode (nid : ℤ) :
    Retags (fun r => { r with nid }) (fun x => (x.1, nid)) :=
  ⟨fun _ => rfl, fun _ => rfl⟩

/-- A leftover slot that begins below the end of the live regions. -/
def Stale (segs : List Area) (z : MemblockRegion) : Prop :=
  ∃ a, z.base ≤ a ∧ (lookup segs a).isSome

/-- The table has become that of `segs'`, and what is new behind its live regions is
stale. The recorded size is as exact as before. -/
def Becomes (slots : List MemblockRegion) (drift : ℕ) (m : Memblock) (segs : List Area) :
    Prop :=
  Proper segs ∧ Merged segs ∧ ∃ slots' drift', (drift' = drift ∨ drift' = 0) ∧
    (∀ z ∈ slots', z ∈ slots ∨ Stale segs z) ∧ m = table (segs.map toRegion) slots' drift'

section Refines

variable {behind : Option MemblockRegion} {segs : List Area} {slots : List MemblockRegion}
  {drift base size : ℕ} {m : Memblock} {err : ℤ}

theorem becomes_self (h : Proper segs) (hmerged : Merged segs) :
    Becomes slots drift (table (segs.map toRegion) slots drift) segs :=
  ⟨h, hmerged, slots, drift, .inl rfl, fun _ hz => .inl hz, rfl⟩

theorem Proper.coalesce (h : Proper segs) : Proper (coalesce segs) := by
  refine ⟨h.ordered.coalesce, fun s hs => ?_⟩
  have hlt := h.ordered.coalesce.lo_lt_hi hs
  have hlast : (lookup (Segments.coalesce segs) (s.hi - 1)).isSome :=
    lookup_isSome_iff.mpr ⟨s, hs, by simp only [Segment.Covers]; omega⟩
  rw [lookup_coalesce h.ordered, lookup_isSome_iff] at hlast
  obtain ⟨t, ht, hcov⟩ := hlast
  have := h.hi_lt t ht
  have := hcov.2
  omega

/-- Copies of regions that were coalesced are stale. -/
theorem stale_of_slotsFrom {changed : List Area} (h : Proper changed)
    {slots' : List MemblockRegion} (hslots : SlotsFrom slots changed slots') :
    ∀ z ∈ slots', z ∈ slots ∨ Stale (coalesce changed) z := by
  intro z hz
  rcases hslots z hz with hz | ⟨s, hs, rfl⟩
  · exact .inl hz
  · refine .inr ⟨s.lo, le_rfl, ?_⟩
    rw [lookup_coalesce h.ordered, lookup_isSome_iff]
    exact ⟨s, hs, le_rfl, h.ordered.lo_lt_hi hs⟩

theorem addRange_effect (h : Proper segs) (hmerged : Merged segs)
    (hlt : base + size < 2 ^ 64) {nid : ℤ} {flags : MemblockFlags}
    (hok : addRange behind (table (segs.map toRegion) slots drift) base size nid flags =
      .ok (m, err)) :
    err = SUCCESS ∧ ∃ segs', Becomes slots drift m segs' ∧
      lookup segs' = MemoryMap.add base (base + size) (flags, nid) (lookup segs) := by
  by_cases hsize : size = 0
  · subst hsize
    rw [addRange_empty] at hok
    simp only [Except.ok.injEq, Prod.mk.injEq] at hok
    obtain ⟨rfl, rfl⟩ := hok
    refine ⟨rfl, segs, becomes_self h hmerged, ?_⟩
    funext a
    have hnone : ¬ (base ≤ a ∧ a < base + 0) := by omega
    rw [MemoryMap.add, if_neg hnone, Option.or_none]
  · obtain ⟨rfl, slots', drift', hdrift, hslots, rfl⟩ :=
      addRange_refines h hmerged hsize hlt hok
    have hproper := h.fill hlt (flags, nid) (b := base)
    refine ⟨rfl, _, ⟨hproper.coalesce, merged_coalesce _, slots', drift', hdrift,
      stale_of_slotsFrom hproper hslots, rfl⟩, ?_⟩
    funext a
    rw [lookup_coalesce hproper.ordered, lookup_fill h.ordered]
    rfl

theorem updateRange_effect (h : Proper segs) (hmerged : Merged segs)
    (hlt : base + size < 2 ^ 64) {f : MemblockRegion → MemblockRegion} {g : Tag → Tag}
    (hfg : Retags f g)
    (hok : updateRange behind f (table (segs.map toRegion) slots drift) base size =
      .ok (m, err)) :
    ∃ segs', Becomes slots drift m segs' ∧
      (err = -ENOSPC ∧ NoSpace size slots ∧ segs' = segs ∨
        err = SUCCESS ∧ ¬ NoSpace size slots ∧
          lookup segs' = MemoryMap.change base (base + size) g (lookup segs)) := by
  by_cases hsize : size = 0
  · subst hsize
    rw [updateRange_empty] at hok
    simp only [Except.ok.injEq, Prod.mk.injEq] at hok
    obtain ⟨rfl, rfl⟩ := hok
    refine ⟨segs, becomes_self h hmerged, .inr ⟨rfl, fun hs => hs.1 rfl, ?_⟩⟩
    funext a
    have hnone : ¬ (base ≤ a ∧ a < base + 0) := by omega
    rw [MemoryMap.change, if_neg hnone]
  · rcases updateRange_refines h hmerged hsize hlt hfg hok with
      ⟨rfl, hspace, rfl⟩ | ⟨rfl, hspace, slots', hslots, rfl⟩
    · exact ⟨segs, becomes_self h hmerged, .inl ⟨rfl, ⟨hsize, hspace⟩, rfl⟩⟩
    · have hproper : Proper (retag base (base + size) g (isolate base (base + size) segs)) :=
        h.isolate.retag
      refine ⟨_, ⟨hproper.coalesce, merged_coalesce _, slots', drift, .inl rfl,
        stale_of_slotsFrom hproper hslots, rfl⟩, .inr ⟨rfl, fun hs => hspace hs.2, ?_⟩⟩
      funext a
      rw [lookup_coalesce hproper.ordered,
        lookup_retag h.ordered.isolate h.ordered.aligned_isolate, lookup_isolate]
      rfl

theorem memblockRemove_effect (h : Proper segs) (hmerged : Merged segs)
    (hlt : base + size < 2 ^ 64)
    (hok : memblockRemove (table (segs.map toRegion) slots drift) base size = .ok (m, err)) :
    ∃ segs', (Proper segs' ∧ Merged segs' ∧
        ∃ slots' drift', m = table (segs'.map toRegion) slots' drift') ∧
      (err = -ENOSPC ∧ segs' = segs ∨
        err = SUCCESS ∧ lookup segs' = MemoryMap.remove base (base + size) (lookup segs)) := by
  by_cases hsize : size = 0
  · subst hsize
    rw [memblockRemove_empty] at hok
    simp only [Except.ok.injEq, Prod.mk.injEq] at hok
    obtain ⟨rfl, rfl⟩ := hok
    refine ⟨segs, ⟨h, hmerged, slots, drift, rfl⟩, .inr ⟨rfl, ?_⟩⟩
    funext a
    have hnone : ¬ (base ≤ a ∧ a < base + 0) := by omega
    rw [MemoryMap.remove, if_neg hnone]
  · rcases memblockRemove_refines h hsize hlt hok with ⟨rfl, rfl⟩ | ⟨rfl, slots', drift', rfl⟩
    · exact ⟨segs, ⟨h, hmerged, slots, drift, rfl⟩, .inl ⟨rfl, rfl⟩⟩
    · have hproper : Proper (erase base (base + size) (isolate base (base + size) segs)) :=
        ⟨h.ordered.isolate.erase, fun s hs => h.isolate.hi_lt s (List.mem_of_mem_filter hs)⟩
      refine ⟨_, ⟨hproper, Merged.erase_isolate h.ordered hmerged (by omega), slots', drift',
        rfl⟩, .inr ⟨rfl, ?_⟩⟩
      funext a
      rw [lookup_erase h.ordered.isolate h.ordered.aligned_isolate, lookup_isolate]
      rfl

/-- The table has become that of `segs'`. -/
def Holds (m : Memblock) (segs : List Area) : Prop :=
  Proper segs ∧ Merged segs ∧ ∃ slots drift, m = table (segs.map toRegion) slots drift

theorem Becomes.holds {m : Memblock} {segs : List Area} (h : Becomes slots drift m segs) :
    Holds m segs :=
  let ⟨hproper, hmerged, slots', drift', _, _, hm⟩ := h
  ⟨hproper, hmerged, slots', drift', hm⟩

theorem Holds.tagAt_eq {m : Memblock} {segs : List Area} (h : Holds m segs) :
    m.tagAt = lookup segs := by
  obtain ⟨hproper, -, slots, drift, rfl⟩ := h
  exact tagAt_table hproper slots drift

/-- Nothing but a removal makes memory disappear. -/
theorem Effect.isSome {f f' : MemoryMap} {call : Call} {r : Reply} (h : Effect f f' call r)
    (hkeeps : call.KeepsMemory) {a : ℕ} (ha : (f a).isSome) : (f' a).isSome := by
  have hchange : ∀ b e g, (MemoryMap.change b e g f a).isSome := by
    intro b e g
    rw [MemoryMap.change]
    split
    · rwa [Option.isSome_map]
    · exact ha
  cases call with
  | add base size nid flags =>
      obtain ⟨-, rfl⟩ := h
      rw [MemoryMap.add, Option.isSome_or, ha, Bool.true_or]
  | remove base size => exact hkeeps.elim
  | setclrFlag base size set flags =>
      obtain ⟨-, rfl⟩ | ⟨-, rfl⟩ := h
      · exact ha
      · exact hchange _ _ _
  | setNode base size nid =>
      obtain ⟨-, rfl⟩ | ⟨-, rfl⟩ := h
      · exact ha
      · exact hchange _ _ _
  | reserve base size =>
      obtain ⟨-, rfl⟩ | ⟨-, rfl⟩ := h
      · exact ha
      · exact hchange _ _ _
  | alloc size align start rangeEnd nid exactNid =>
      obtain ⟨-, rfl⟩ | ⟨paddr, -, -, rfl⟩ := h
      · exact ha
      · exact hchange _ _ _
  | free base size =>
      obtain ⟨-, rfl | rfl⟩ := h
      · exact ha
      · exact hchange _ _ _

/-- A completed call that changes a range, seen from its reply. -/
theorem update_refines (h : Proper segs) (hmerged : Merged segs)
    (hlt : base + size < 2 ^ 64) {f : MemblockRegion → MemblockRegion} {g : Tag → Tag}
    (hfg : Retags f g)
    (hok : updateRange behind f (table (segs.map toRegion) slots drift) base size =
      .ok (m, err)) :
    ∃ segs', Becomes slots drift m segs' ∧
      (err = -ENOSPC ∧ lookup segs' = lookup segs ∨
        err = SUCCESS ∧
          lookup segs' = MemoryMap.change base (base + size) g (lookup segs)) := by
  obtain ⟨segs', hbecomes, ⟨rfl, -, rfl⟩ | ⟨rfl, -, hchange⟩⟩ :=
    updateRange_effect h hmerged hlt hfg hok
  · exact ⟨segs', hbecomes, .inl ⟨rfl, rfl⟩⟩
  · exact ⟨segs', hbecomes, .inr ⟨rfl, hchange⟩⟩

theorem alloc_refines (h : Proper segs) (hmerged : Merged segs)
    {align start rangeEnd : ℕ} (hstart : start < 2 ^ 64) (hend : rangeEnd < 2 ^ 64)
    {nid : ℤ} {exactNid : Bool} {paddr : ℕ}
    (hok : memblockAlloc behind (table (segs.map toRegion) slots drift) size align start
      rangeEnd nid exactNid = .ok (m, paddr)) :
    ∃ segs', Becomes slots drift m segs' ∧
      (paddr = 0 ∧ lookup segs' = lookup segs ∨
        paddr ≠ 0 ∧
          paddr = target size align start rangeEnd nid exactNid (segs.map toRegion) ∧
          lookup segs' = MemoryMap.change paddr (paddr + size)
            (setclrTag true MEMBLOCK_RESERVED) (lookup segs)) := by
  have halloc := memblockAlloc_table behind size align start rangeEnd nid exactNid
    (segs.map toRegion) slots drift
  simp only at halloc
  rw [halloc] at hok
  split_ifs at hok with hnone
  · simp only [Except.ok.injEq, Prod.mk.injEq] at hok
    obtain ⟨rfl, rfl⟩ := hok
    exact ⟨segs, becomes_self h hmerged, .inl ⟨rfl, rfl⟩⟩
  · rw [not_or] at hnone
    obtain ⟨hne, hspace⟩ := hnone
    have hlt := target_add_lt size align start rangeEnd nid hstart hend hne
    obtain ⟨next, hmark, hreply⟩ := Math.bind_eq_ok.mp hok
    obtain ⟨rfl, rfl⟩ := Prod.mk.inj (Except.ok.inj hreply)
    obtain ⟨segs', hbecomes, ⟨-, hnospace, -⟩ | ⟨-, -, hchange⟩⟩ :=
      updateRange_effect h hmerged hlt (retags_setclr true MEMBLOCK_RESERVED) hmark
    · exact absurd hnospace hspace
    · exact ⟨segs', hbecomes, .inr ⟨hne, rfl, hchange⟩⟩

/-- A completed allocation, seen from its reply: it says which block was marked. -/
theorem step_alloc (h : Proper segs) (hmerged : Merged segs)
    {size align start rangeEnd : UInt64} {nid : ℤ} {exactNid : Bool} {r : Reply}
    (hok : step behind (table (segs.map toRegion) slots drift)
      (.alloc size align start rangeEnd nid exactNid) = .ok (m, r)) :
    ∃ paddr segs', r = .address paddr ∧ Becomes slots drift m segs' ∧
      (paddr = 0 ∧ lookup segs' = lookup segs ∨
        paddr ≠ 0 ∧
          paddr = target size.toNat align.toNat start.toNat rangeEnd.toNat nid exactNid
            (segs.map toRegion) ∧
          lookup segs' = MemoryMap.change paddr (paddr + size.toNat)
            (setclrTag true MEMBLOCK_RESERVED) (lookup segs)) := by
  obtain ⟨next, halloc, hreply⟩ := Math.bind_eq_ok.mp hok
  obtain ⟨rfl, rfl⟩ := Prod.mk.inj (Except.ok.inj hreply)
  obtain ⟨segs', hbecomes, hmap⟩ :=
    alloc_refines h hmerged start.toNat_lt rangeEnd.toNat_lt halloc
  exact ⟨next.2, segs', rfl, hbecomes, hmap⟩

/-- Every completed call has its effect on the map. -/
theorem step_refines (h : Proper segs) (hmerged : Merged segs) {call : Call}
    (hbounded : call.Bounded) {r : Reply}
    (hok : step behind (table (segs.map toRegion) slots drift) call = .ok (m, r)) :
    ∃ segs', Holds m segs' ∧ (call.KeepsMemory → Becomes slots drift m segs') ∧
      Effect (lookup segs) (lookup segs') call r := by
  cases call with
  | add base size nid flags =>
      simp only [Call.Bounded] at hbounded
      obtain ⟨next, hadd, hreply⟩ := Math.bind_eq_ok.mp hok
      obtain ⟨rfl, rfl⟩ := Prod.mk.inj (Except.ok.inj hreply)
      obtain ⟨herr, segs', hbecomes, hmap⟩ := addRange_effect h hmerged (by omega) hadd
      exact ⟨segs', hbecomes.holds, fun _ => hbecomes, by rw [herr], hmap⟩
  | remove base size =>
      simp only [Call.Bounded] at hbounded
      obtain ⟨next, hremove, hreply⟩ := Math.bind_eq_ok.mp hok
      obtain ⟨rfl, rfl⟩ := Prod.mk.inj (Except.ok.inj hreply)
      obtain ⟨segs', hholds, hmap⟩ := memblockRemove_effect h hmerged (by omega) hremove
      refine ⟨segs', hholds, False.elim, ?_⟩
      rcases hmap with ⟨herr, rfl⟩ | ⟨herr, hmap⟩
      · exact .inl ⟨by rw [herr], rfl⟩
      · exact .inr ⟨by rw [herr], hmap⟩
  | setclrFlag base size set flags =>
      simp only [Call.Bounded] at hbounded
      obtain ⟨next, hupdate, hreply⟩ := Math.bind_eq_ok.mp hok
      obtain ⟨rfl, rfl⟩ := Prod.mk.inj (Except.ok.inj hreply)
      obtain ⟨segs', hbecomes, hmap⟩ :=
        update_refines h hmerged (by omega) (retags_setclr set flags) hupdate
      refine ⟨segs', hbecomes.holds, fun _ => hbecomes, hmap.imp ?_ ?_⟩
      all_goals
        rintro ⟨herr, hmap⟩
        exact ⟨by rw [herr], hmap⟩
  | setNode base size nid =>
      simp only [Call.Bounded] at hbounded
      obtain ⟨next, hupdate, hreply⟩ := Math.bind_eq_ok.mp hok
      obtain ⟨rfl, rfl⟩ := Prod.mk.inj (Except.ok.inj hreply)
      obtain ⟨segs', hbecomes, hmap⟩ :=
        update_refines h hmerged (by omega) (retags_setNode nid) hupdate
      refine ⟨segs', hbecomes.holds, fun _ => hbecomes, hmap.imp ?_ ?_⟩
      all_goals
        rintro ⟨herr, hmap⟩
        exact ⟨by rw [herr], hmap⟩
  | reserve base size =>
      simp only [Call.Bounded] at hbounded
      obtain ⟨next, hupdate, hreply⟩ := Math.bind_eq_ok.mp hok
      obtain ⟨rfl, rfl⟩ := Prod.mk.inj (Except.ok.inj hreply)
      obtain ⟨segs', hbecomes, hmap⟩ :=
        update_refines h hmerged (by omega) (retags_setclr true MEMBLOCK_RESERVED) hupdate
      refine ⟨segs', hbecomes.holds, fun _ => hbecomes, hmap.imp ?_ ?_⟩
      all_goals
        rintro ⟨herr, hmap⟩
        exact ⟨by rw [herr], hmap⟩
  | alloc size align start rangeEnd nid exactNid =>
      obtain ⟨paddr, segs', rfl, hbecomes, hmap⟩ := step_alloc h hmerged hok
      refine ⟨segs', hbecomes.holds, fun _ => hbecomes, ?_⟩
      rcases hmap with ⟨rfl, hmap⟩ | ⟨hne, -, hmap⟩
      · exact .inl ⟨rfl, hmap⟩
      · exact .inr ⟨paddr, hne, rfl, hmap⟩
  | free base size =>
      simp only [Call.Bounded] at hbounded
      obtain ⟨m', hfree, hreply⟩ := Math.bind_eq_ok.mp hok
      obtain ⟨rfl, rfl⟩ := Prod.mk.inj (Except.ok.inj hreply)
      obtain ⟨next, hupdate, hnext⟩ := Math.bind_eq_ok.mp hfree
      obtain rfl := Except.ok.inj hnext
      obtain ⟨segs', hbecomes, hmap⟩ :=
        update_refines h hmerged (by omega) (retags_setclr false MEMBLOCK_RESERVED) hupdate
      exact ⟨segs', hbecomes.holds, fun _ => hbecomes, rfl, hmap.imp And.right And.right⟩

end Refines

end Cyanea.Memory
