/-
# The table without removals

As long as nothing is removed, the table stays sorted, disjoint and fully merged
and its size is exact. The slot behind the last region, which `merge_regions`
looks at as well, does no harm there: whatever earlier moves have left in the
array begins below the end of the live regions, so it continues none of them.
Only when an addition takes the very last slot is there no such slot.
-/

import Cyanea.Memory.MemoryMap

namespace Cyanea.Memory

open Cyanea.Math Cyanea.Math.Segments

/-- The live regions are in order, disjoint, not empty and fully merged, and the
recorded size is their sum. -/
structure Inv (m : Memblock) : Prop where
  n_le : m.n ≤ m.max
  nonempty : ∀ r ∈ m.live, 0 < r.size
  sorted : m.live.Pairwise fun r r' => r.base + r.size ≤ r'.base
  merged : m.live.IsChain fun r r' =>
    ¬ (r.base + r.size = r'.base ∧ r.nid = r'.nid ∧ r.flags = r'.flags)
  size_eq : m.size = (m.live.map MemblockRegion.size).sum

/-- The invariant that carries `Inv` through a run: it describes the slots too. -/
def Coalesced (max : ℕ) (m : Memblock) : Prop :=
  ∃ segs slots, Proper segs ∧ Merged segs ∧ segs.length + slots.length = max ∧
    (∀ z ∈ slots, z.base = 0 ∨ Stale segs z) ∧ m = table (segs.map toRegion) slots 0

theorem sizeSum_toRegion (segs : List Area) : sizeSum (segs.map toRegion) = total segs := by
  induction segs with
  | nil => rfl
  | cons s segs ih => rw [List.map_cons, sizeSum_cons, ih, total_cons]; rfl

theorem pairwise_toRegion {segs : List Area} (h : Ordered segs) :
    (segs.map toRegion).Pairwise fun r r' => r.base + r.size ≤ r'.base := by
  induction segs with
  | nil => exact .nil
  | cons s segs ih =>
      refine List.pairwise_cons.mpr ⟨fun r hr => ?_, ih h.2.2⟩
      obtain ⟨t, ht, rfl⟩ := List.mem_map.mp hr
      have hlt := h.1
      have hle := h.2.1 t ht
      simp only [toRegion]
      omega

theorem Coalesced.inv {max : ℕ} {m : Memblock} (h : Coalesced max m) : Inv m := by
  obtain ⟨segs, slots, hproper, hmerged, hlength, -, rfl⟩ := h
  have hsize := hproper.ordered.total_le (Nat.zero_le (2 ^ 64 - 1)) (fun _ _ => Nat.zero_le _)
    (fun s hs => Nat.le_sub_one_of_lt (hproper.hi_lt s hs))
  refine ⟨by simp, ?_, ?_, ?_, ?_⟩
  · rw [live_table]
    intro r hr
    obtain ⟨s, hs, rfl⟩ := List.mem_map.mp hr
    exact Nat.sub_pos_of_lt (hproper.ordered.lo_lt_hi hs)
  · rw [live_table]
    exact pairwise_toRegion hproper.ordered
  · rw [live_table]
    rw [List.isChain_map]
    refine List.IsChain.imp_of_mem_imp (fun s t hs _ hjoin hadjacent => hjoin ?_) hmerged
    obtain ⟨hend, hnid, hflags⟩ := hadjacent
    have hlt := hproper.ordered.lo_lt_hi hs
    simp only [toRegion] at hend hnid hflags
    exact ⟨by omega, Prod.ext hflags hnid⟩
  · have hmod : (total segs + 0) % 2 ^ 64 = total segs := by omega
    rw [live_table, ← sizeSum, sizeSum_toRegion]
    simp only [table, sizeSum_toRegion]
    exact hmod

/-! ## The last comparison -/

theorem getLastD_map_toRegion {segs : List Area} (hne : segs ≠ []) :
    (segs.map toRegion).getLastD noRegion = toRegion (segs.getLast hne) := by
  rw [List.getLastD_eq_getLast?, List.getLast?_map, List.getLast?_eq_some_getLast hne]
  rfl

/-- No address from the end of the last area on is memory. -/
theorem lt_getLast_hi {segs : List Area} (h : Ordered segs) (hne : segs ≠ []) {a : ℕ}
    (ha : (lookup segs a).isSome) : a < (segs.getLast hne).hi := by
  obtain ⟨s, hs, hcov⟩ := lookup_isSome_iff.mp ha
  refine hcov.2.trans_le ?_
  obtain ⟨front, hfront⟩ : ∃ front, segs = front ++ [segs.getLast hne] :=
    ⟨segs.dropLast, (List.dropLast_append_getLast hne).symm⟩
  rw [hfront] at h hs
  rcases List.mem_append.mp hs with hs | hs
  · have hle := (ordered_append.mp h).2.2 s hs _ (List.mem_singleton_self _)
    have hlt := h.lo_lt_hi (List.mem_append_right front (List.mem_singleton_self _))
    omega
  · rw [List.mem_singleton.mp hs]

/-- The last region that the scan of a window reads is the last of all. -/
theorem getLastD_window {segs : List Area} {window : ℕ × ℕ}
    (hwindow : WindowIn segs.length window) :
    ∃ hne : segs ≠ [], ((segs.map toRegion).drop (window.1 - 1)).getLastD noRegion =
      toRegion (segs.getLast hne) := by
  have hcount : window.1 - 1 < segs.length := by
    have := hwindow.1
    have := hwindow.2
    omega
  have hne : segs ≠ [] := List.ne_nil_of_length_pos (by omega)
  have hdrop : segs.drop (window.1 - 1) ≠ [] := by
    apply List.ne_nil_of_length_pos
    rw [List.length_drop]
    omega
  refine ⟨hne, ?_⟩
  rw [← List.map_drop, getLastD_map_toRegion hdrop, List.getLast_drop hdrop]

/-- A region of a proper table is not empty. -/
theorem regionEnd_ne_base {segs : List Area} (h : Proper segs) (hne : segs ≠ []) :
    (toRegion (segs.getLast hne)).regionEnd ≠ (toRegion (segs.getLast hne)).base := by
  have hlt := h.ordered.lo_lt_hi (List.getLast_mem hne)
  rw [toRegion_regionEnd hlt (h.hi_lt _ (List.getLast_mem hne)), toRegion_base]
  exact hlt.ne'

/-- A slot that begins below the end of the areas does not continue the last of
them. -/
theorem windowClear_of_lt {behind : Option MemblockRegion} {segs : List Area}
    (h : Proper segs) {window : ℕ × ℕ} (hwindow : WindowIn segs.length window)
    {z : MemblockRegion} (hz : z.base = 0 ∨ Stale segs z) {slots : List MemblockRegion}
    (hslot : slots.head?.or behind = some z) :
    WindowClear behind window (segs.map toRegion) slots := by
  intro _
  obtain ⟨hne, hlast⟩ := getLastD_window hwindow
  have hlt := h.ordered.lo_lt_hi (List.getLast_mem hne)
  have hhi := h.hi_lt _ (List.getLast_mem hne)
  rw [TailClear, hlast]
  split
  · refine ⟨z, hslot, .inl ?_⟩
    rw [toRegion_regionEnd hlt hhi]
    rcases hz with hz | ⟨a, hle, ha⟩
    · omega
    · have := lt_getLast_hi h.ordered hne ha
      omega
  · exact regionEnd_ne_base h hne

/-- The call is an addition that takes the last slot of the array. -/
def TakesLastSlot (m : Memblock) : Call → Prop
  | .add base size nid flags =>
      (fillRegions (add64 base.toNat size.toNat) nid (flags &&& ~~~ MEMBLOCK_RESERVED)
        base.toNat m.live).length = m.max
  | _ => False

instance (m : Memblock) (call : Call) : Decidable (TakesLastSlot m call) :=
  match call with
  | .add _ _ _ _ => inferInstanceAs (Decidable (_ = _))
  | .remove _ _ | .setclrFlag _ _ _ _ | .setNode _ _ _ | .reserve _ _ | .free _ _
  | .alloc _ _ _ _ _ _ => inferInstanceAs (Decidable False)

section Clear

variable {behind : Option MemblockRegion} {segs : List Area} {slots : List MemblockRegion}

theorem Stale.mono {segs segs' : List Area} {z : MemblockRegion} (h : Stale segs z)
    (hle : ∀ a, (lookup segs a).isSome → (lookup segs' a).isSome) : Stale segs' z :=
  let ⟨a, ha, hsome⟩ := h
  ⟨a, ha, hle a hsome⟩

theorem addClear_of_stale (h : Proper segs)
    (hslots : ∀ z ∈ slots, z.base = 0 ∨ Stale segs z) {base size : ℕ}
    (hlt : base + size < 2 ^ 64) {nid : ℤ} {flags : MemblockFlags}
    (hroom : (fillRegions (add64 base size) nid flags base (segs.map toRegion)).length ≠
      segs.length + slots.length) :
    AddClear behind base size nid flags (segs.map toRegion) slots := by
  have hregions := fillRegions_toRegion base hlt nid flags h
  have hproper := h.fill hlt (flags, nid) (b := base)
  rw [add64_eq hlt] at hroom
  simp only [AddClear, add64_eq hlt]
  intro _ _ hfits window hwindow
  have hin := windowIn_fillWindow _ nid flags hwindow
  have hle := length_le_fillRegions (base + size) nid flags base (segs.map toRegion)
  rw [hregions, List.length_map] at hin hfits hroom hle
  rw [hregions, List.length_map, List.length_map]
  rw [List.length_map] at hfits hle
  obtain ⟨z, rest, hz⟩ : ∃ z rest, slots.drop
      ((fill base (base + size) (flags, nid) segs).length - segs.length) = z :: rest := by
    apply List.exists_cons_of_length_pos
    rw [List.length_drop]
    omega
  have hmem : z ∈ slots := List.mem_of_mem_drop (hz ▸ List.mem_cons_self)
  rw [hz]
  refine windowClear_of_lt hproper hin ?_ rfl
  exact (hslots z hmem).imp id fun hstale => hstale.mono fun a ha => by
    rw [lookup_fill h.ordered, Option.isSome_or, ha, Bool.true_or]

/-- When the window of a change reaches the end, only its start was cut. -/
theorem length_isolate_le {b e : ℕ} (hbe : b < e) (h : Proper segs)
    {before inside : List Area} (hisolate : isolate b e segs = before ++ inside)
    (hparts : Parts b e before inside []) : (isolate b e segs).length ≤ segs.length + 1 := by
  have hcut : isolate b e segs = splitAt b segs := by
    apply splitAt_eq_self_of_lt
    intro s hs
    have hlt := h.ordered.isolate.lo_lt_hi hs
    rw [← isolate, hisolate] at hs
    rcases List.mem_append.mp hs with hs | hs
    · have := hparts.before_le s hs
      omega
    · have := (hparts.inside s hs).2
      omega
  rw [hcut]
  exact length_splitAt_le b segs

theorem updateClear_of_stale (h : Proper segs)
    (hslots : ∀ z ∈ slots, z.base = 0 ∨ Stale segs z) {base size : ℕ}
    (hlt : base + size < 2 ^ 64) {f : MemblockRegion → MemblockRegion} {g : Tag → Tag}
    (hfg : Retags f g) : UpdateClear behind f base size (segs.map toRegion) slots := by
  by_cases hsize : size = 0
  · exact fun hne => absurd hsize hne
  have hbe : base < base + size := by omega
  obtain ⟨before, inside, after, hisolate, hparts, hindices⟩ :=
    isolateIndices_toRegion hbe h 0
  have hregions := isolateRegions_toRegion hbe hlt h
  rw [hisolate] at hregions
  have hproper : Proper (retag base (base + size) g (isolate base (base + size) segs)) :=
    h.isolate.retag
  rw [Nat.zero_add] at hindices
  simp only [UpdateClear, add64_eq hlt, hindices, hregions]
  intro _ hspace hfits hrange
  have hinside : inside ≠ [] := fun h => hrange (if_pos h)
  have hwindow : windowOf before.length inside =
      (before.length, before.length + inside.length) := if_neg hinside
  rw [hwindow, updateWindow_toRegion (hisolate ▸ h.isolate.ordered) hparts hfg, ← hisolate]
  intro hend
  have hafter : after = [] := by
    have hlength : (retag base (base + size) g (isolate base (base + size) segs)).length =
        before.length + inside.length + after.length := by
      rw [retag, List.length_map, hisolate, List.length_append, List.length_append]
    rw [List.length_map, hlength] at hend
    simp only at hend
    exact List.length_eq_zero_iff.mp (by omega)
  subst hafter
  rw [List.append_nil] at hisolate
  have hcut := length_isolate_le hbe h hisolate hparts
  obtain ⟨z, rest, hz⟩ : ∃ z rest, slots.drop
      ((isolate base (base + size) segs).length - segs.length) = z :: rest := by
    apply List.exists_cons_of_length_pos
    rw [List.length_drop]
    omega
  have hmem : z ∈ slots := List.mem_of_mem_drop (hz ▸ List.mem_cons_self)
  have hin : WindowIn (retag base (base + size) g (isolate base (base + size) segs)).length
      (before.length, before.length + inside.length) := by
    rw [List.length_map] at hend
    have hpos := List.length_pos_iff.mpr hinside
    exact ⟨by simp only; omega, hend.le⟩
  refine windowClear_of_lt hproper hin (z := z) ?_ ?_ hend
  · refine (hslots z hmem).imp id fun hstale => hstale.mono fun a ha => ?_
    rw [lookup_retag h.ordered.isolate h.ordered.aligned_isolate, lookup_isolate]
    split
    · rwa [Option.isSome_map]
    · exact ha
  · rw [List.length_map, List.length_map, hz]
    rfl

end Clear

/-! ## Runs -/

/-- A call of the interface together with what a read behind a full array finds. -/
abbrev Request := Option MemblockRegion × Call

def stepRequest (m : Memblock) (request : Request) : Except Fault (Memblock × Reply) :=
  step request.1 m request.2

/-- Where all slots are stale only an addition that takes the last one can do harm. -/
theorem clear_of_stale {behind : Option MemblockRegion} {segs : List Area}
    {slots : List MemblockRegion} (h : Proper segs)
    (hslots : ∀ z ∈ slots, z.base = 0 ∨ Stale segs z) {call : Call} (hbounded : call.Bounded)
    (hlast : ¬ TakesLastSlot (table (segs.map toRegion) slots 0) call) :
    Clear behind (table (segs.map toRegion) slots 0) call := by
  cases call with
  | add base size nid flags =>
      simp only [Call.Bounded] at hbounded
      simp only [TakesLastSlot, live_table, table_max, List.length_map] at hlast
      simp only [Clear, live_table, unused_table]
      exact addClear_of_stale h hslots (by omega) hlast
  | remove base size => trivial
  | setclrFlag base size set flags =>
      simp only [Call.Bounded] at hbounded
      simp only [Clear, live_table, unused_table]
      exact updateClear_of_stale h hslots (by omega) (retags_setclr set flags)
  | setNode base size nid =>
      simp only [Call.Bounded] at hbounded
      simp only [Clear, live_table, unused_table]
      exact updateClear_of_stale h hslots (by omega) (retags_setNode nid)
  | reserve base size =>
      simp only [Call.Bounded] at hbounded
      simp only [Clear, live_table, unused_table]
      exact updateClear_of_stale h hslots (by omega) (retags_setclr true MEMBLOCK_RESERVED)
  | alloc size align start rangeEnd nid exactNid =>
      simp only [Clear, live_table, unused_table]
      intro hne
      exact updateClear_of_stale h hslots
        (target_add_lt _ _ _ _ _ start.toNat_lt rangeEnd.toNat_lt hne)
        (retags_setclr true MEMBLOCK_RESERVED)
  | free base size =>
      simp only [Call.Bounded] at hbounded
      simp only [Clear, live_table, unused_table]
      exact updateClear_of_stale h hslots (by omega) (retags_setclr false MEMBLOCK_RESERVED)

/-- The step of `Coalesced`: what is asked of a call is only that, if it takes the last
slot, the scan behind it does no harm. -/
theorem coalesced_step {max : ℕ} (hmax : 0 < max) {m : Memblock} (hm : Coalesced max m)
    {request : Request} (hkeeps : request.2.KeepsMemory) (hbounded : request.2.Bounded) :
    EndsIff (TakesLastSlot m request.2 → Clear request.1 m request.2)
      (fun next => Coalesced max next.1) (fun f => f = .outOfSpace)
      (stepRequest m request) := by
  obtain ⟨behind, call⟩ := request
  obtain ⟨segs, slots, hproper, hmerged, hlength, hslots, rfl⟩ := hm
  have hexact := step_endsIff behind hmax (table (segs.map toRegion) slots 0) call
    (within_table (by simpa using hlength))
  have hclear : Clear behind (table (segs.map toRegion) slots 0) call ↔
      (TakesLastSlot (table (segs.map toRegion) slots 0) call →
        Clear behind (table (segs.map toRegion) slots 0) call) := by
    refine ⟨fun h _ => h, fun h => ?_⟩
    by_cases hlast : TakesLastSlot (table (segs.map toRegion) slots 0) call
    · exact h hlast
    · exact clear_of_stale hproper hslots hbounded hlast
  refine EndsIff.congr ?_ hclear
  rw [stepRequest]
  cases hstep : step behind (table (segs.map toRegion) slots 0) call with
  | error f =>
      rw [hstep] at hexact
      exact hexact
  | ok next =>
      rw [hstep] at hexact
      obtain ⟨hc, -, hwithin⟩ := hexact
      refine ⟨hc, ?_⟩
      obtain ⟨segs', -, hbecomes, heffect⟩ := step_refines hproper hmerged hbounded hstep
      obtain ⟨hproper', hmerged', slots', drift', hdrift, hstale, hnext⟩ := hbecomes hkeeps
      obtain rfl : drift' = 0 := hdrift.elim id id
      refine ⟨segs', slots', hproper', hmerged', ?_, fun z hz => ?_, hnext⟩
      · rw [hnext, table_max, List.length_map] at hwithin
        exact hwithin
      · rcases hstale z hz with hz | hz
        · exact (hslots z hz).imp id fun hold =>
            hold.mono fun a ha => heffect.isSome hkeeps ha
        · exact .inr hz

theorem memory_eq_table :
    memory = table [] (List.replicate NR_REGIONS ⟨MEMBLOCK_NONE, 0, 0, 0⟩) 0 := by
  simp [memory, table]

theorem coalesced_memory : Coalesced NR_REGIONS memory := by
  refine ⟨[], List.replicate NR_REGIONS ⟨MEMBLOCK_NONE, 0, 0, 0⟩, proper_nil, .nil, by simp,
    fun z hz => .inl ?_, memory_eq_table⟩
  rw [(List.mem_replicate.mp hz).2]

/-- A run without removals keeps the table sorted, disjoint and merged after every step
exactly if the scan behind an addition that takes the last slot does no harm. -/
theorem always_inv_iff {requests : List Request}
    (h : ∀ request ∈ requests, request.2.KeepsMemory ∧ request.2.Bounded) :
    Always stepRequest Inv (fun f => f = .outOfSpace) memory requests ↔
      Along stepRequest
        (fun m request => TakesLastSlot m request.2 → Clear request.1 m request.2)
        memory requests :=
  always_iff_along (fun m (hm : Coalesced NR_REGIONS m) => hm.inv)
    (fun _ request hrequest hm =>
      coalesced_step (by decide) hm (h request hrequest).1 (h request hrequest).2)
    coalesced_memory

/-- Where a run returns, no scan has done harm. -/
theorem along_clear_of_run {m : Memblock} (hm : Within NR_REGIONS m) {requests : List Request}
    (hrun : (run stepRequest m requests).isOk = true) :
    Along stepRequest (fun m request => Clear request.1 m request.2) m requests := by
  induction requests generalizing m with
  | nil => trivial
  | cons request requests ih =>
      have hexact := step_endsIff request.1 (by decide) m request.2 hm
      rw [run] at hrun
      cases hstep : stepRequest m request with
      | error f =>
          rw [hstep] at hrun
          cases hrun
      | ok next =>
          rw [← stepRequest, hstep] at hexact
          obtain ⟨hclear, hwithin⟩ := hexact
          rw [hstep] at hrun
          refine ⟨hclear, fun m' reply hnext => ?_⟩
          obtain rfl := Except.ok.inj (hstep.symm.trans hnext)
          refine ih hwithin ?_
          dsimp only at hrun
          cases hrest : run stepRequest m' requests with
          | error f =>
              rw [hrest] at hrun
              cases hrun
          | ok last => rfl

/-- Two regions become one, of which a part is reserved, which splits it, and released, which
merges it again. -/
def splitAndMerge : List Request :=
  [(none, .add 0 0x8000 0 MEMBLOCK_NONE), (none, .add 0x8000 0x8000 0 MEMBLOCK_NONE),
    (none, .reserve 0x4000 0x4000), (none, .free 0x4000 0x4000)]

theorem always_inv_splitAndMerge :
    Always stepRequest Inv (fun f => f = .outOfSpace) memory splitAndMerge := by
  have hrun : (run stepRequest memory splitAndMerge).isOk = true := by decide +kernel
  exact (always_inv_iff (by decide)).mpr
    ((along_clear_of_run within_memory hrun).mono fun _ _ _ hclear _ => hclear)

/-- The additions that fill the table are in the scope of `always_inv_iff`, and the
last of them does not return. -/
theorem not_always_inv :
    (∀ request ∈ fillingAdds.map (Prod.mk (none : Option MemblockRegion)),
        request.2.KeepsMemory ∧ request.2.Bounded) ∧
      ¬ Always stepRequest Inv (fun f => f = .outOfSpace) memory
        (fillingAdds.map (Prod.mk none)) := by
  constructor
  · decide +kernel
  · rw [always_map]
    exact not_always_of_run run_fillingAdds (by decide)

end Cyanea.Memory
