/-
# What the calls do to a reachable table

The tables that a run without removals leads to, and what a completed addition or change
of a range makes of them, address by address: what is covered, which flags and which node
an address has, and how many bytes the table reports.
-/

import Cyanea.Memory.Invariant
import Cyanea.Math.Cover

namespace Cyanea.Memory

open Cyanea.Math Cyanea.Math.Segments

/-- The tables that calls other than removals lead to, each with a range that ends below
2^64. A call may find anything behind a full array. -/
inductive Reachable : Memblock → Prop
  | memory : Reachable memory
  | step {m next : Memblock} {behind : Option MemblockRegion} {call : Call} {r : Reply} :
      Reachable m → call.KeepsMemory → call.Bounded → Memory.step behind m call = .ok (next, r) →
      Reachable next

theorem Reachable.coalesced {m : Memblock} (h : Reachable m) : Coalesced NR_REGIONS m := by
  induction h with
  | memory => exact coalesced_memory
  | @step m next behind call r _ hkeeps hbounded hok ih =>
      have hends : EndsIff _ (fun next => Coalesced NR_REGIONS next.1) _
          (stepRequest m (behind, call)) :=
        coalesced_step (by decide) ih hkeeps hbounded
      rw [stepRequest, hok] at hends
      exact hends.2

/-- A table of which all regions but the first few are as at boot. -/
def tableOf (size : ℕ) (live slots : List MemblockRegion) : Memblock where
  n := live.length
  max := NR_REGIONS
  size := size
  regions := live ++ slots ++ List.replicate (NR_REGIONS - live.length - slots.length)
    ⟨MEMBLOCK_NONE, 0, 0, 0⟩

@[simp]
theorem live_tableOf (size : ℕ) (live slots : List MemblockRegion) :
    (tableOf size live slots).live = live := by
  rw [Memblock.live, tableOf, List.append_assoc]
  exact List.take_left

/-- One region of eight pages. -/
def eightPages : Memblock := tableOf 32768 [⟨MEMBLOCK_NONE, 4096, 32768, 0⟩] []

theorem reachable_eightPages : Reachable eightPages := by
  have hkeeps : Call.KeepsMemory (.add 4096 32768 0 MEMBLOCK_NONE) := trivial
  have hadd : Memory.step none memory (.add 4096 32768 0 MEMBLOCK_NONE) =
      .ok (eightPages, .status SUCCESS) := by
    decide +kernel
  exact .step .memory hkeeps (by decide) hadd

/-- The size of an exact table is the number of the covered addresses. -/
theorem size_table_eq_ncard {segs : List Area} (h : Proper segs) (slots : List MemblockRegion) :
    (table (segs.map toRegion) slots 0).size = (covered segs).ncard := by
  have hle := h.ordered.total_le (Nat.zero_le (2 ^ 64 - 1)) (fun _ _ => Nat.zero_le _)
    (fun s hs => Nat.le_sub_one_of_lt (h.hi_lt s hs))
  have hmod : (total segs + 0) % 2 ^ 64 = total segs := by omega
  rw [← total_eq_ncard h.ordered, ← hmod, ← sizeSum_toRegion]
  rfl

/-- The addresses that are memory. -/
def Memblock.covers (m : Memblock) : Set ℕ := {a | (m.tagAt a).isSome}

section Effects

variable {m m' : Memblock} {behind : Option MemblockRegion} {base size : ℕ}

theorem Becomes.exact {slots : List MemblockRegion} {segs : List Area}
    (h : Becomes slots 0 m segs) : m.tagAt = lookup segs ∧ m.size = m.covers.ncard := by
  have htag := h.holds.tagAt_eq
  obtain ⟨hproper, -, slots', drift', hdrift, -, rfl⟩ := h
  obtain rfl : drift' = 0 := hdrift.elim id id
  refine ⟨htag, ?_⟩
  rw [size_table_eq_ncard hproper, Memblock.covers, htag]
  rfl

theorem finite_covers {segs : List Area} (h : m.tagAt = lookup segs) : m.covers.Finite := by
  rw [Memblock.covers, h]
  exact finite_covered segs

/-! ## Adding -/

/-- The range `[b, e)` is covered: what was memory keeps its tag, what was not gets the
given one, and the size has grown by the latter. -/
structure Added (m m' : Memblock) (b e : ℕ) (x : Tag) : Prop where
  covered : ∀ a, b ≤ a → a < e → ∃ r ∈ m'.live, r.Covers a
  old : ∀ a y, m.tagAt a = some y → m'.tagAt a = some y
  new : ∀ a, m.tagAt a = none → ∀ y, m'.tagAt a = some y → y = x
  outside : ∀ a, ¬ (b ≤ a ∧ a < e) → m'.tagAt a = m.tagAt a
  size_eq : m'.size = m.size + {a | m.tagAt a = none ∧ (m'.tagAt a).isSome}.ncard

/-- A completed addition covers its range and changes nothing else. -/
theorem Reachable.added (h : Reachable m) (hlt : base + size ≤ 2 ^ 64 - 1) {nid : ℤ}
    {flags : MemblockFlags} {err : ℤ}
    (hok : memblockAdd behind m base size nid flags = .ok (m', err)) :
    Added m m' base (base + size) (flags &&& ~~~ MEMBLOCK_RESERVED, nid) := by
  obtain ⟨segs, slots, hproper, hmerged, -, -, hm⟩ := h.coalesced
  have hself : Becomes slots 0 m segs := hm ▸ becomes_self hproper hmerged
  rw [hm] at hok
  obtain ⟨-, segs', hbecomes, hmap⟩ := addRange_effect hproper hmerged (by omega) hok
  obtain ⟨htag, hsize⟩ := hself.exact
  obtain ⟨htag', hsize'⟩ := hbecomes.exact
  rw [← htag, ← htag'] at hmap
  refine ⟨?_, ?_, ?_, ?_, ?_⟩
  · intro a hle hlt
    rw [← tagAt_isSome_iff, hmap, MemoryMap.add, if_pos ⟨hle, hlt⟩, Option.isSome_or]
    exact Bool.or_true _
  · intro a y hy
    rw [hmap, MemoryMap.add, hy, Option.some_or]
  · intro a hnone y hy
    rw [hmap, MemoryMap.add, hnone, Option.none_or] at hy
    split at hy
    · exact (Option.some.inj hy).symm
    · cases hy
  · intro a hout
    rw [hmap, MemoryMap.add, if_neg hout, Option.or_none]
  · have hunion : m'.covers = m.covers ∪ {a | m.tagAt a = none ∧ (m'.tagAt a).isSome} := by
      ext a
      simp only [Memblock.covers, Set.mem_union, Set.mem_ofPred_eq, hmap, MemoryMap.add]
      cases m.tagAt a with
      | none => exact ⟨fun h => .inr ⟨rfl, h⟩, fun h => h.elim (by simp) And.right⟩
      | some y => exact iff_of_true rfl (.inl rfl)
    have hdisjoint : Disjoint m.covers {a | m.tagAt a = none ∧ (m'.tagAt a).isSome} := by
      rw [Set.disjoint_left]
      rintro a ha ⟨hnone, -⟩
      rw [Memblock.covers, Set.mem_ofPred_eq, hnone] at ha
      cases ha
    have hfinite : {a | m.tagAt a = none ∧ (m'.tagAt a).isSome}.Finite :=
      (finite_covers htag').subset fun _ ha => ha.2
    rw [hsize', hunion, Set.ncard_union_eq hdisjoint (finite_covers htag) hfinite, hsize]

/-- Pages are added on both sides of the eight, which keep their node. -/
theorem added_eightPages :
    ∃ m, memblockAdd none eightPages 0 65536 1 MEMBLOCK_NONE = .ok (m, SUCCESS) ∧
      Added eightPages m 0 (0 + 65536) (MEMBLOCK_NONE &&& ~~~ MEMBLOCK_RESERVED, 1) := by
  have hok : memblockAdd none eightPages 0 65536 1 MEMBLOCK_NONE = .ok (tableOf 65536
      [⟨MEMBLOCK_NONE, 0, 4096, 1⟩, ⟨MEMBLOCK_NONE, 4096, 32768, 0⟩,
        ⟨MEMBLOCK_NONE, 36864, 28672, 1⟩] [], SUCCESS) := by
    decide +kernel
  exact ⟨_, hok, reachable_eightPages.added (by decide) hok⟩

/-! ## Changing -/

/-- In the range `[b, e)` the tags of what is memory have changed, and nothing else has. -/
structure Changed (m m' : Memblock) (b e : ℕ) (g : Tag → Tag) : Prop where
  inside : ∀ a, b ≤ a → a < e → ∀ x, m.tagAt a = some x → m'.tagAt a = some (g x)
  outside : ∀ a, ¬ (b ≤ a ∧ a < e) → m'.tagAt a = m.tagAt a
  covered : ∀ a, (∃ r ∈ m'.live, r.Covers a) ↔ ∃ r ∈ m.live, r.Covers a
  size_eq : m'.size = m.size

theorem changed_of_becomes {slots slots' : List MemblockRegion} {segs segs' : List Area} {b e : ℕ}
    {g : Tag → Tag} (h : Becomes slots 0 m segs) (h' : Becomes slots' 0 m' segs')
    (hmap : lookup segs' = MemoryMap.change b e g (lookup segs)) : Changed m m' b e g := by
  obtain ⟨htag, hsize⟩ := h.exact
  obtain ⟨htag', hsize'⟩ := h'.exact
  rw [← htag, ← htag'] at hmap
  have hsome : ∀ a, (m'.tagAt a).isSome ↔ (m.tagAt a).isSome := by
    intro a
    rw [hmap, MemoryMap.change]
    split
    · rw [Option.isSome_map]
    · rfl
  refine ⟨?_, ?_, ?_, ?_⟩
  · intro a hle hlt x hx
    rw [hmap, MemoryMap.change, if_pos ⟨hle, hlt⟩, hx, Option.map_some]
  · intro a hout
    rw [hmap, MemoryMap.change, if_neg hout]
  · intro a
    rw [← tagAt_isSome_iff, ← tagAt_isSome_iff]
    exact hsome a
  · have hcovers : m'.covers = m.covers := by
      ext a
      exact hsome a
    rw [hsize', hsize, hcovers]

theorem Reachable.changed_of_update (h : Reachable m) (hlt : base + size ≤ 2 ^ 64 - 1)
    {f : MemblockRegion → MemblockRegion} {g : Tag → Tag} (hfg : Retags f g)
    (hok : updateRange behind f m base size = .ok (m', SUCCESS)) :
    Changed m m' base (base + size) g := by
  obtain ⟨segs, slots, hproper, hmerged, -, -, hm⟩ := h.coalesced
  have hself : Becomes slots 0 m segs := hm ▸ becomes_self hproper hmerged
  rw [hm] at hok
  obtain ⟨segs', hbecomes, ⟨herr, -⟩ | ⟨-, -, hmap⟩⟩ :=
    updateRange_effect hproper hmerged (by omega) hfg hok
  · exact absurd herr (by decide)
  · exact changed_of_becomes hself hbecomes hmap

/-- `memblock_setclr_flag` changes the flags in its range, `memblock_set_node` the node,
and nothing else. -/
theorem Reachable.changed (h : Reachable m) (hlt : base + size ≤ 2 ^ 64 - 1) :
    (∀ set flags, memblockSetclrFlag behind m base size set flags = .ok (m', SUCCESS) →
      Changed m m' base (base + size) (setclrTag set flags)) ∧
    (∀ nid, memblockSetNode behind m base size nid = .ok (m', SUCCESS) →
      Changed m m' base (base + size) fun x => (x.1, nid)) :=
  ⟨fun set flags hok => h.changed_of_update hlt (retags_setclr set flags) hok,
    fun nid hok => h.changed_of_update hlt (retags_setNode nid) hok⟩

/-- The flags of one page of the eight, and the node of another. -/
theorem changed_eightPages :
    (∃ m, memblockSetclrFlag none eightPages 8192 4096 true 1 = .ok (m, SUCCESS) ∧
      Changed eightPages m 8192 (8192 + 4096) (setclrTag true 1)) ∧
    ∃ m, memblockSetNode none eightPages 4096 4096 1 = .ok (m, SUCCESS) ∧
      Changed eightPages m 4096 (4096 + 4096) fun x => (x.1, 1) := by
  have hflag : memblockSetclrFlag none eightPages 8192 4096 true 1 = .ok (tableOf 32768
      [⟨MEMBLOCK_NONE, 4096, 4096, 0⟩, ⟨1, 8192, 4096, 0⟩, ⟨MEMBLOCK_NONE, 12288, 24576, 0⟩] [],
      SUCCESS) := by
    decide +kernel
  have hnode : memblockSetNode none eightPages 4096 4096 1 = .ok (tableOf 32768
      [⟨MEMBLOCK_NONE, 4096, 4096, 1⟩, ⟨MEMBLOCK_NONE, 8192, 28672, 0⟩] [], SUCCESS) := by
    decide +kernel
  exact ⟨⟨_, hflag, (reachable_eightPages.changed (by decide)).1 true 1 hflag⟩,
    _, hnode, (reachable_eightPages.changed (by decide)).2 1 hnode⟩

end Effects

end Cyanea.Memory
