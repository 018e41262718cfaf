/-
# Sessions with the allocator

A client of the allocator adds memory, reserves ranges, and takes and returns
blocks; it returns only blocks it holds and reserves nothing that overlaps one.
The state of a session is the table together with what the client knows: the
blocks it holds and the bytes it has pinned by reserving them. The blocks it
holds are disjoint and marked reserved, and no allocation ever hands out a
pinned byte.
-/

import Cyanea.Memory.Invariant
import Mathlib.Data.Set.Basic

namespace Cyanea.Memory

open Cyanea.Math Cyanea.Math.Segments

/-! ## The block that is found -/

/-- The record says that the byte is memory and reserved. -/
def Reserved (f : MemoryMap) (a : ℕ) : Prop :=
  ∃ x, f a = some x ∧ x.1 &&& MEMBLOCK_RESERVED = MEMBLOCK_RESERVED

/-- The record says that the byte is memory and not marked in any way. -/
def Free (f : MemoryMap) (a : ℕ) : Prop := ∃ x, f a = some x ∧ x.1 = MEMBLOCK_NONE

theorem Free.not_reserved {f : MemoryMap} {a : ℕ} (h : Free f a) : ¬ Reserved f a := by
  obtain ⟨x, hx, hnone⟩ := h
  rintro ⟨y, hy, hreserved⟩
  obtain rfl := Option.some.inj (hx.symm.trans hy)
  rw [hnone] at hreserved
  exact absurd hreserved (by decide)

theorem offer_inside {s : Area} (hlt : s.lo < s.hi) (hhi : s.hi < 2 ^ 64)
    {size align start rangeEnd paddr : ℕ} {nid : ℤ} {flags : MemblockFlags}
    (halign : ∃ k, align = 2 ^ k) (hword : align < 2 ^ 64) (hend : rangeEnd < 2 ^ 64)
    (hoffer : offer size align start rangeEnd nid flags (toRegion s) = some paddr)
    (hne : paddr ≠ 0) : s.lo ≤ paddr ∧ paddr + size ≤ s.hi ∧ s.tag.1 = flags := by
  obtain ⟨⟨hflags, -⟩, hpaddr, hbelow, hfits⟩ := offer_eq_some _ _ _ _ _ _ hoffer
  obtain ⟨k, rfl⟩ := halign
  have hk : k < 64 := (Nat.pow_lt_pow_iff_right (by decide)).mp hword
  rw [toRegion_regionEnd hlt hhi] at hbelow hfits
  rw [toRegion_base] at hpaddr
  have hclamp : clamp s.lo start rangeEnd ≤ paddr := by
    have hx : clamp s.lo start rangeEnd < 2 ^ 64 := (min_le_right _ _).trans_lt hend
    rcases le_alignKernel hx hk with hle | hzero
    · rwa [hpaddr]
    · exact absurd (hpaddr.trans hzero) hne
  simp only [clamp] at hclamp hbelow hfits
  exact ⟨by omega, by omega, hflags⟩

/-- Every byte of a block that is tried is free. -/
theorem free_of_target {segs : List Area} (h : Proper segs) {size align start rangeEnd : ℕ}
    {nid : ℤ} {exactNid : Bool} (halign : ∃ k, align = 2 ^ k) (hword : align < 2 ^ 64) (hstart : start < 2 ^ 64)
    (hend : rangeEnd < 2 ^ 64) {paddr : ℕ}
    (htarget : paddr = target size align start rangeEnd nid exactNid (segs.map toRegion))
    (hne : paddr ≠ 0) {a : ℕ} (hle : paddr ≤ a) (hlt : a < paddr + size) :
    Free (lookup segs) a := by
  subst htarget
  obtain ⟨nid', hfirst⟩ := exists_firstFit_of_target_ne_zero _ _ _ _ _ hne
  obtain ⟨r, hr, hoffer⟩ := exists_offer_of_firstFit_ne_zero _ _ _ _ _ _ (hfirst.symm ▸ hne)
  obtain ⟨s, hs, rfl⟩ := List.mem_map.mp hr
  have hpage : PAGE_SIZE < 2 ^ 64 := by decide
  have hbound : max (max start PAGE_SIZE) rangeEnd < 2 ^ 64 := by omega
  rw [hfirst] at hoffer
  obtain ⟨hlo, hhi, htag⟩ := offer_inside (h.ordered.lo_lt_hi hs) (h.hi_lt s hs) halign hword
    hbound hoffer hne
  refine ⟨s.tag, (lookup_eq_some_iff h.ordered).mpr ⟨s, hs, ⟨by omega, by omega⟩, rfl⟩, htag⟩

/-! ## Sessions -/

/-- A block is an address and a size. -/
structure Block where
  base : ℕ
  size : ℕ
  deriving DecidableEq, Repr

def Block.Has (b : Block) (a : ℕ) : Prop := b.base ≤ a ∧ a < b.base + b.size

instance Block.decidableHas (b : Block) (a : ℕ) : Decidable (b.Has a) := inferInstanceAs (Decidable (_ ∧ _))

/-- The two blocks have no byte in common. -/
def Block.Disjoint (b b' : Block) : Prop := ∀ a, b.Has a → ¬ b'.Has a

/-- The table, the blocks that the client holds, and the bytes it has pinned. -/
structure Session where
  memory : Memblock
  held : List Block
  pinned : Set ℕ

def Session.start : Session := ⟨Memory.memory, [], ∅⟩

/-- One call of the client. Each may find something else behind a full array. -/
inductive Session.Step : Session → Session → Prop
  | add {s : Session} {behind : Option MemblockRegion} {base size : UInt64} {nid : ℤ}
      {flags : MemblockFlags} {m : Memblock} {r : Reply} :
      0 < size → base.toNat + size.toNat ≤ 2 ^ 64 - 1 →
      step behind s.memory (.add base size nid flags) = .ok (m, r) →
      Session.Step s { s with memory := m }
  /-- The range overlaps no block that is held. What it covers becomes pinned. -/
  | reserve {s : Session} {behind : Option MemblockRegion} {base size : UInt64}
      {m : Memblock} {r : Reply} :
      0 < size → base.toNat + size.toNat ≤ 2 ^ 64 - 1 →
      (∀ b ∈ s.held, Block.Disjoint b ⟨base.toNat, size.toNat⟩) →
      step behind s.memory (.reserve base size) = .ok (m, r) →
      Session.Step s { s with
        memory := m
        pinned := if r = .status SUCCESS then
            s.pinned ∪ {a | Block.Has ⟨base.toNat, size.toNat⟩ a ∧
              ∃ region ∈ s.memory.live, region.Covers a}
          else s.pinned }
  | alloc {s : Session} {behind : Option MemblockRegion} {size align start rangeEnd : UInt64}
      {nid : ℤ} {exactNid : Bool} {m : Memblock} {paddr : ℕ} :
      0 < size → (∃ k, align.toNat = 2 ^ k) →
      step behind s.memory (.alloc size align start rangeEnd nid exactNid) =
        .ok (m, .address paddr) →
      Session.Step s { s with
        memory := m
        held := if paddr = 0 then s.held else ⟨paddr, size.toNat⟩ :: s.held }
  /-- The block that is returned is held. -/
  | free {s : Session} {behind : Option MemblockRegion} {base size : UInt64} {m : Memblock}
      {r : Reply} :
      0 < size → base.toNat + size.toNat ≤ 2 ^ 64 - 1 →
      ⟨base.toNat, size.toNat⟩ ∈ s.held →
      step behind s.memory (.free base size) = .ok (m, r) →
      Session.Step s { s with
        memory := m
        held := s.held.erase ⟨base.toNat, size.toNat⟩ }

/-- The sessions a client can get to. -/
inductive Session.Reachable : Session → Prop
  | start : Session.Reachable .start
  | step {s s' : Session} : Session.Reachable s → Session.Step s s' → Session.Reachable s'

/-- What holds of a session at any time. -/
structure Session.Sound (s : Session) (f : MemoryMap) : Prop where
  disjoint : s.held.Pairwise Block.Disjoint
  held_reserved : ∀ b ∈ s.held, ∀ a, b.Has a → Reserved f a
  held_not_pinned : ∀ b ∈ s.held, ∀ a, b.Has a → a ∉ s.pinned
  pinned_reserved : ∀ a ∈ s.pinned, Reserved f a

theorem reserved_setclrTag (x : Tag) :
    (setclrTag true MEMBLOCK_RESERVED x).1 &&& MEMBLOCK_RESERVED = MEMBLOCK_RESERVED := by
  simp only [setclrTag, if_true]
  ext i hi
  simp only [BitVec.getElem_and, BitVec.getElem_or, Bool.and_eq_right_iff_imp]
  intro hbit
  rw [hbit, Bool.or_true]

/-- Reserving a range keeps what is reserved. -/
theorem Reserved.change {f : MemoryMap} {a : ℕ} (h : Reserved f a) (b e : ℕ) :
    Reserved (f.change b e (setclrTag true MEMBLOCK_RESERVED)) a := by
  obtain ⟨x, hx, hreserved⟩ := h
  by_cases hin : b ≤ a ∧ a < e
  · refine ⟨_, ?_, reserved_setclrTag x⟩
    rw [MemoryMap.change, if_pos hin, hx, Option.map_some]
  · exact ⟨x, by rw [MemoryMap.change, if_neg hin, hx], hreserved⟩

/-- Reserving a range reserves the memory in it. -/
theorem reserved_change {f : MemoryMap} {a b e : ℕ} (hin : b ≤ a ∧ a < e)
    (hsome : (f a).isSome) :
    Reserved (f.change b e (setclrTag true MEMBLOCK_RESERVED)) a := by
  obtain ⟨x, hx⟩ := Option.isSome_iff_exists.mp hsome
  refine ⟨_, ?_, reserved_setclrTag x⟩
  rw [MemoryMap.change, if_pos hin, hx, Option.map_some]

theorem Reserved.add {f : MemoryMap} {a : ℕ} (h : Reserved f a) (b e : ℕ) (x : Tag) :
    Reserved (f.add b e x) a := by
  obtain ⟨y, hy, hreserved⟩ := h
  exact ⟨y, by rw [MemoryMap.add, hy, Option.some_or], hreserved⟩

/-- Outside the range of a change everything stays reserved. -/
theorem Reserved.of_not_mem {f : MemoryMap} {a b e : ℕ} (h : Reserved f a)
    (hout : ¬ (b ≤ a ∧ a < e)) (g : Tag → Tag) : Reserved (f.change b e g) a := by
  obtain ⟨x, hx, hreserved⟩ := h
  exact ⟨x, by rw [MemoryMap.change, if_neg hout, hx], hreserved⟩

theorem Block.Disjoint.symm {b b' : Block} (h : b.Disjoint b') : b'.Disjoint b :=
  fun a hb' hb => h a hb hb'

/-- A block that is held has no byte in common with the others. -/
theorem disjoint_of_mem_erase {held : List Block} (h : held.Pairwise Block.Disjoint)
    {b b' : Block} (hb : b ∈ held) (hb' : b' ∈ held.erase b) : b.Disjoint b' := by
  have hperm := List.perm_cons_erase hb
  have hpairs := (hperm.pairwise_iff fun hab => Block.Disjoint.symm hab).mp h
  exact (List.pairwise_cons.mp hpairs).1 b' hb'

section Step

variable {s s' : Session} {segs : List Area}

/-- One call of the client keeps the session sound. -/
theorem sound_step (hholds : Holds s.memory segs) (hsound : s.Sound (lookup segs))
    (hstep : Session.Step s s') :
    ∃ segs', Holds s'.memory segs' ∧ s'.Sound (lookup segs') := by
  obtain ⟨hproper, hmerged, slots, drift, hmemory⟩ := hholds
  obtain ⟨hdisjoint, hheld, hpinned, hreserved⟩ := hsound
  cases hstep with
  | @add behind base size nid flags m r hsize hbounded hok =>
      have hcall : Call.Bounded (.add base size nid flags) := hbounded
      rw [hmemory] at hok
      obtain ⟨segs', hholds', -, -, hmap⟩ := step_refines hproper hmerged hcall hok
      refine ⟨segs', hholds', hdisjoint, fun b hb a ha => ?_, hpinned, fun a ha => ?_⟩
      · rw [hmap]
        exact (hheld b hb a ha).add _ _ _
      · rw [hmap]
        exact (hreserved a ha).add _ _ _
  | @reserve behind base size m r hsize hbounded hapart hok =>
      have htagAt : s.memory.tagAt = lookup segs := by
        rw [hmemory, tagAt_table hproper]
      have hcall : Call.Bounded (.reserve base size) := hbounded
      rw [hmemory] at hok
      obtain ⟨segs', hholds', -, heffect⟩ := step_refines hproper hmerged hcall hok
      refine ⟨segs', hholds', ?_⟩
      obtain ⟨rfl, hmap⟩ | ⟨rfl, hmap⟩ := heffect
      · rw [hmap, if_neg (by decide)]
        exact ⟨hdisjoint, hheld, hpinned, hreserved⟩
      · rw [hmap, if_pos rfl]
        refine ⟨hdisjoint, fun b hb a ha => (hheld b hb a ha).change _ _, ?_, ?_⟩
        · rintro b hb a ha (hold | ⟨hin, -⟩)
          · exact hpinned b hb a ha hold
          · exact hapart b hb a ha hin
        · rintro a (hold | ⟨hin, hcovered⟩)
          · exact (hreserved a hold).change _ _
          · refine reserved_change hin ?_
            rw [← htagAt, tagAt_isSome_iff]
            exact hcovered
  | @alloc behind size align start rangeEnd nid exactNid m paddr hsize halign hok =>
      rw [hmemory] at hok
      obtain ⟨paddr', segs', hreply, hbecomes, hmap⟩ := step_alloc hproper hmerged hok
      obtain rfl := Reply.address.inj hreply
      refine ⟨segs', hbecomes.holds, ?_⟩
      obtain ⟨rfl, hmap⟩ | ⟨hne, htarget, hmap⟩ := hmap
      · rw [hmap, if_pos rfl]
        exact ⟨hdisjoint, hheld, hpinned, hreserved⟩
      · have hfree : ∀ a, Block.Has ⟨paddr, size.toNat⟩ a → Free (lookup segs) a := fun a ha =>
          free_of_target hproper halign align.toNat_lt start.toNat_lt rangeEnd.toNat_lt htarget
            hne ha.1 ha.2
        rw [hmap, if_neg hne]
        refine ⟨List.pairwise_cons.mpr ⟨fun b hb a ha hba => ?_, hdisjoint⟩, ?_, ?_,
          fun a ha => (hreserved a ha).change _ _⟩
        · exact (hfree a ha).not_reserved (hheld b hb a hba)
        · intro b hb a ha
          rcases List.mem_cons.mp hb with rfl | hb
          · obtain ⟨x, hx, -⟩ := hfree a ha
            exact reserved_change ha (by rw [hx]; rfl)
          · exact (hheld b hb a ha).change _ _
        · intro b hb a ha hpin
          rcases List.mem_cons.mp hb with rfl | hb
          · exact (hfree a ha).not_reserved (hreserved a hpin)
          · exact hpinned b hb a ha hpin
  | @free behind base size m r hsize hbounded hmem hok =>
      have hcall : Call.Bounded (.free base size) := hbounded
      rw [hmemory] at hok
      obtain ⟨segs', hholds', -, -, hmap⟩ := step_refines hproper hmerged hcall hok
      have houtside : ∀ a, ¬ Block.Has ⟨base.toNat, size.toNat⟩ a → Reserved (lookup segs) a →
          Reserved (lookup segs') a := by
        intro a hout ha
        rcases hmap with hmap | hmap
        · rwa [hmap]
        · rw [hmap]
          exact ha.of_not_mem hout _
      refine ⟨segs', hholds', hdisjoint.erase _, ?_, ?_, ?_⟩
      · intro b hb a ha
        have hout := disjoint_of_mem_erase hdisjoint hmem hb
        exact houtside a (hout.symm a ha) (hheld b (List.mem_of_mem_erase hb) a ha)
      · exact fun b hb => hpinned b (List.mem_of_mem_erase hb)
      · intro a ha
        exact houtside a (fun hin => hpinned _ hmem a hin ha) (hreserved a ha)

end Step

theorem Session.Reachable.sound {s : Session} (h : s.Reachable) :
    ∃ segs, Holds s.memory segs ∧ s.Sound (lookup segs) := by
  induction h with
  | start =>
      refine ⟨[], ⟨proper_nil, .nil, _, _, memory_eq_table⟩, .nil, ?_, ?_, ?_⟩
      · exact fun b hb => absurd hb List.not_mem_nil
      · exact fun b hb => absurd hb List.not_mem_nil
      · exact fun a ha => absurd ha (Set.notMem_empty a)
  | step _ hstep ih =>
      obtain ⟨segs, hholds, hsound⟩ := ih
      exact sound_step hholds hsound hstep

/-- At any time the blocks that are held are disjoint, memory, and reserved; and the
next allocation hands out no byte that was pinned before it. -/
theorem Session.Reachable.safe {s : Session} (h : s.Reachable) :
    s.held.Pairwise Block.Disjoint ∧
      (∀ b ∈ s.held, ∀ a, b.Has a → Reserved s.memory.tagAt a) ∧
      ∀ (behind : Option MemblockRegion) (size align start rangeEnd : UInt64) (nid : ℤ)
        (exactNid : Bool) (m : Memblock) (paddr : ℕ), (∃ k, align.toNat = 2 ^ k) →
        Memory.step behind s.memory (.alloc size align start rangeEnd nid exactNid) =
          .ok (m, .address paddr) → paddr ≠ 0 →
        ∀ a, Block.Has ⟨paddr, size.toNat⟩ a → a ∉ s.pinned := by
  obtain ⟨segs, hholds, hsound⟩ := h.sound
  refine ⟨hsound.disjoint, ?_, ?_⟩
  · rw [hholds.tagAt_eq]
    exact hsound.held_reserved
  · intro behind size align start rangeEnd nid exactNid m paddr halign hok hne a ha hpin
    obtain ⟨hproper, hmerged, slots, drift, hmemory⟩ := hholds
    rw [hmemory] at hok
    obtain ⟨paddr', segs', hreply, -, hmap⟩ := step_alloc hproper hmerged hok
    obtain rfl := Reply.address.inj hreply
    obtain ⟨hzero, -⟩ | ⟨-, htarget, -⟩ := hmap
    · exact hne hzero
    · have hfree := free_of_target hproper halign align.toNat_lt start.toNat_lt
        rangeEnd.toNat_lt htarget hne ha.1 ha.2
      exact hfree.not_reserved (hsound.pinned_reserved a hpin)

/-- After one page of eight is reserved, an allocation of a page avoids it. -/
theorem Session.safe_after_reserve :
    ∃ (s : Session) (m : Memblock), 4096 ∈ s.pinned ∧
      Memory.step none s.memory (.alloc 4096 4096 0 65536 (-1) false) = .ok (m, .address 8192) ∧
      ∀ a, Block.Has ⟨8192, 4096⟩ a → a ∉ s.pinned := by
  obtain ⟨m₁, hm₁, hadd⟩ : ∃ m, m =
      (⟨1, 128, 32768, ⟨0, 4096, 32768, 0⟩ :: List.replicate 127 ⟨0, 0, 0, 0⟩⟩ : Memblock) ∧
      Memory.step none Session.start.memory (.add 4096 32768 0 MEMBLOCK_NONE) =
        .ok (m, .status SUCCESS) :=
    ⟨_, rfl, by decide +kernel⟩
  obtain ⟨m₂, hm₂, hreserve⟩ : ∃ m, m =
      (⟨2, 128, 32768, ⟨0xFFFF, 4096, 4096, 0⟩ :: ⟨0, 8192, 28672, 0⟩ ::
        List.replicate 126 ⟨0, 0, 0, 0⟩⟩ : Memblock) ∧
      Memory.step none m₁ (.reserve 4096 4096) = .ok (m, .status SUCCESS) :=
    ⟨_, rfl, by rw [hm₁]; decide +kernel⟩
  obtain ⟨m₃, hm₃, halloc⟩ : ∃ m, m =
      (⟨2, 128, 32768, ⟨0xFFFF, 4096, 8192, 0⟩ :: ⟨0, 12288, 24576, 0⟩ ::
        ⟨0, 12288, 24576, 0⟩ :: List.replicate 125 ⟨0, 0, 0, 0⟩⟩ : Memblock) ∧
      Memory.step none m₂ (.alloc 4096 4096 0 65536 (-1) false) = .ok (m, .address 8192) :=
    ⟨_, rfl, by rw [hm₂]; decide +kernel⟩
  have hreach := Session.Reachable.step
    (.step .start (.add (by decide) (by decide) hadd))
    (.reserve (by decide) (by decide) (fun b hb => absurd hb List.not_mem_nil) hreserve)
  refine ⟨_, m₃, ?_, halloc,
    hreach.safe.2.2 none 4096 4096 0 65536 (-1) false m₃ 8192 ⟨12, by decide⟩ halloc (by decide)⟩
  rw [if_pos rfl]
  refine .inr ⟨by decide, ⟨0, 4096, 32768, 0⟩, ?_, by decide⟩
  rw [hm₁]
  exact List.mem_cons_self

end Cyanea.Memory
