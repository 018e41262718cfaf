/-
# Sessions with the fixmap

Calls that map and unmap follow each other in any order. The spans that `mapping`
records stay disjoint and inside the 512 slots, every mapping that is held is one of
them, and the entries of its slots are those that `__ioremap` wrote.
-/

import Cyanea.Mm.Fixmap

namespace Cyanea.Mm

open X86 Cyanea.Math.Spans

/-- The functions that map. -/
inductive Mapper where
  | ioremap
  | ioremapProt
  | memremap
  deriving DecidableEq, Repr

/-- The protection that a function maps with; only `ioremap_prot` is given one. -/
def Mapper.protection (modes : CachemodeToPte) (prot : ℕ) : Mapper → ℕ
  | .ioremap => PAGE_KERNEL_NOCACHE modes
  | .ioremapProt => prot
  | .memremap => PAGE_KERNEL

def Mapper.run (modes : CachemodeToPte) (s : Fixmap) (phys size prot : ℕ) :
    Mapper → Except Fault (ℕ × Fixmap)
  | .ioremap => Mm.ioremap modes s phys size
  | .ioremapProt => Mm.ioremapProt s phys size prot
  | .memremap => Mm.memremap s phys size

/-- A mapping: the call that made it and the address that the call returned. -/
structure Mapping where
  mapper : Mapper
  phys : ℕ
  size : ℕ
  prot : ℕ
  virt : ℕ
  deriving DecidableEq, Repr

/-- The entry of a mapping's first slot. -/
def Mapping.first (m : Mapping) : ℕ := FIX_BITMAP_BEGIN - virtToFix m.virt

/-- The state, and the mappings that have not been passed to an unmap call. -/
structure Session where
  fixmap : Fixmap
  live : List Mapping

def Session.start : Session := ⟨.start, []⟩

/-- One call. The PAT may have been programmed in any way before it. -/
inductive Call where
  | map (mapper : Mapper) (modes : CachemodeToPte) (phys size prot : ℕ)
  | unmap (m : Mapping)

/-- What a caller keeps to. -/
def Session.Allowed (s : Session) : Call → Prop
  | .map _ _ phys size _ => phys + size ≤ 2 ^ 52 ∧ pageCount phys size < 2 ^ 32 ∧
      ∃ first, FreeRun TOTAL_FIX_BITMAPS s.fixmap.record first (pageCount phys size)
  | .unmap m => m ∈ s.live

def Session.call (s : Session) : Call → Except Fault Session
  | .map mapper modes phys size prot => do
    let (virt, fixmap) ← mapper.run modes s.fixmap phys size prot
    if virt = 0 then pure ⟨fixmap, s.live⟩
    else pure ⟨fixmap, ⟨mapper, phys, size, mapper.protection modes prot, virt⟩ :: s.live⟩
  | .unmap m => do
    let fixmap ← iounmap s.fixmap m.virt m.size
    pure ⟨fixmap, s.live.erase m⟩

/-- The sessions that calls lead to. -/
inductive Session.Reachable : Session → Prop
  | start : Session.Reachable .start
  | call {s s' : Session} {c : Call} : Session.Reachable s → s.Allowed c → s.call c = .ok s' →
      Session.Reachable s'

/-! ## The invariant -/

variable {modes : CachemodeToPte} {f f' : Fixmap} {s s' : Session} {m m' : Mapping}
  {phys size prot first : ℕ}

theorem Mapper.run_eq (mapper : Mapper) :
    mapper.run modes f phys size prot =
      Mm.ioremapProt f phys size (mapper.protection modes prot) := by
  cases mapper with
  | ioremap => rfl
  | ioremapProt => rfl
  | memremap => rfl

theorem Mapper.maps_protection {mapper : Mapper}
    (h : mapper = .ioremapProt → Maps prot) : Maps (mapper.protection modes prot) := by
  cases mapper with
  | ioremap => exact maps_PAGE_KERNEL_NOCACHE modes
  | ioremapProt => exact h rfl
  | memremap => exact maps_PAGE_KERNEL

/-- A mapping that is held: its span is recorded and its entries are in place. -/
structure Mapping.Held (m : Mapping) (f : Fixmap) : Prop where
  size_ne : m.size ≠ 0
  phys_le : m.phys + m.size ≤ 2 ^ 52
  virt_eq : m.virt = pageOf m.first + m.phys % 2 ^ 12
  recorded : f.record m.first = some (pageCount m.phys m.size)
  ptes : ∀ j < pageCount m.phys m.size, f.level1_fixmap_pgt 0 (m.first + j) =
    fixmapPte (2 ^ 12 * (m.phys / 2 ^ 12 + j)) m.prot
  prot_maps : m.mapper ≠ .ioremapProt → Maps m.prot

/-- What holds of a session at any time. -/
structure Session.Sound (s : Session) : Prop where
  laid : Laid 512 s.fixmap.record
  held : ∀ m ∈ s.live, m.Held s.fixmap
  distinct : s.live.Pairwise fun m m' => m.first ≠ m'.first

/-- A mapping stays held through what happens to other slots. -/
theorem Mapping.Held.congr (h : m.Held f) (hrecord : f'.record m.first = f.record m.first)
    (hptes : ∀ j < pageCount m.phys m.size,
      f'.level1_fixmap_pgt 0 (m.first + j) = f.level1_fixmap_pgt 0 (m.first + j)) :
    m.Held f' where
  size_ne := h.size_ne
  phys_le := h.phys_le
  virt_eq := h.virt_eq
  recorded := hrecord.trans h.recorded
  ptes := fun j hj => (hptes j hj).trans (h.ptes j hj)
  prot_maps := h.prot_maps

theorem first_eq {i : ℕ} (hi : i < 512) (hvirt : m.virt = pageOf i + m.phys % 2 ^ 12) :
    m.first = i := by
  rw [Mapping.first, hvirt, virtToFix_entry hi (Nat.mod_lt _ (by decide))]
  exact Nat.sub_sub_self (show i ≤ 1023 by omega)

/-- A span that shares no slot with a mapping keeps clear of its entries. -/
theorem Mapping.Held.apart (h : m.Held f) (hlaid : Laid 512 f.record) {i len : ℕ}
    (hi : f.record i = some len) (hne : i ≠ m.first) {j : ℕ}
    (hj : j < pageCount m.phys m.size) : m.first + j < i ∨ i + len ≤ m.first + j := by
  rcases Nat.lt_trichotomy i m.first with hless | heq | hmore
  · have hapart := hlaid.apart hi h.recorded hless
    omega
  · exact absurd heq hne
  · have hapart := hlaid.apart h.recorded hi hmore
    omega

theorem sound_start : Session.start.Sound where
  laid := laid_start
  held := fun _ hm => absurd hm List.not_mem_nil
  distinct := .nil

/-- A mapping that is made is held, and so are those that were. -/
theorem sound_map (h : s.Sound) (hsize : m.size ≠ 0) (hphys : m.phys + m.size ≤ 2 ^ 52)
    (hfree : FreeRun 512 s.fixmap.record first (pageCount m.phys m.size))
    (hvirt : m.virt = pageOf first + m.phys % 2 ^ 12)
    (hprot : m.mapper ≠ .ioremapProt → Maps m.prot) :
    Session.Sound ⟨s.fixmap.mapped first m.phys m.size m.prot, m :: s.live⟩ := by
  have hpos := pageCount_pos m.phys hsize
  have hwithin := hfree.within
  have hlt : first < 512 := by omega
  have hfirst : m.first = first := first_eq hlt hvirt
  have hrecord := s.fixmap.record_mapped m.phys m.size m.prot hlt
  -- no mapping that is held begins where the new one does
  have hfresh : ∀ m' ∈ s.live, m'.first ≠ first := by
    intro m' hm' heq
    have hrec := (h.held m' hm').recorded
    rw [heq] at hrec
    exact hfree.free first (Nat.le_refl _) (by omega)
      ⟨first, _, hrec, Nat.le_refl _, Nat.lt_add_of_pos_right (h.laid.pos hrec)⟩
  constructor
  · rw [hrecord]
    exact h.laid.record hfree hpos
  · intro m' hm'
    rcases List.mem_cons.mp hm' with rfl | hmem
    · constructor
      · exact hsize
      · exact hphys
      · rw [hvirt, hfirst]
      · rw [hfirst, hrecord, Function.update_self]
      · intro j hj
        rw [hfirst]
        exact Fixmap.mapped_inside _ _ _ hj
      · exact hprot
    · have hheld := h.held m' hmem
      apply hheld.congr
      · rw [hrecord, Function.update_of_ne (hfresh m' hmem)]
      · intro j hj
        apply Fixmap.mapped_outside
        by_contra hnot
        exact hfree.free (m'.first + j) (by omega) (by omega) ⟨m'.first, _, hheld.recorded,
          Nat.le_add_right _ _, Nat.add_lt_add_left hj _⟩
  · apply List.Pairwise.cons _ h.distinct
    intro m' hm'
    rw [hfirst]
    exact (hfresh m' hm').symm

/-- The others are still held when a mapping has been passed to an unmap call. -/
theorem sound_erase (h : s.Sound) (m : Mapping) : Session.Sound ⟨s.fixmap, s.live.erase m⟩ where
  laid := h.laid
  held := fun m' hm' => h.held m' (List.mem_of_mem_erase hm')
  distinct := h.distinct.sublist List.erase_sublist

/-- The mappings that are left begin elsewhere. -/
theorem first_ne_of_mem_erase (h : s.Sound) (hm : m ∈ s.live) (hm' : m' ∈ s.live.erase m) :
    m.first ≠ m'.first := by
  have hperm := List.perm_cons_erase hm
  have hpairs := (hperm.pairwise_iff fun hne => Ne.symm hne).mp h.distinct
  exact (List.pairwise_cons.mp hpairs).1 m' hm'

theorem sound_clear (h : s.Sound) (hm : m ∈ s.live) :
    Session.Sound ⟨s.fixmap.cleared m.first (pageCount m.phys m.size), s.live.erase m⟩ := by
  have hheld := h.held m hm
  constructor
  · rw [Fixmap.record_cleared]
    exact h.laid.forget m.first
  · intro m' hm'
    have hne := first_ne_of_mem_erase h hm hm'
    have hheld' := h.held m' (List.mem_of_mem_erase hm')
    apply hheld'.congr
    · rw [Fixmap.record_cleared, Function.update_of_ne hne.symm]
    · intro j hj
      exact Fixmap.cleared_outside (hheld'.apart h.laid hheld.recorded hne hj)
  · exact h.distinct.sublist List.erase_sublist

/-- A call that keeps to the rules returns, and the session stays sound. -/
theorem sound_call {c : Call} (h : s.Sound) (hallowed : s.Allowed c) :
    ∃ s', s.call c = .ok s' ∧ s'.Sound := by
  cases c with
  | map mapper modes phys size prot =>
    obtain ⟨hphys, -, hrun⟩ := hallowed
    by_cases hsize : size = 0
    · have hnull : mapper.run modes s.fixmap phys size prot = .ok (0, s.fixmap) := by
        rw [Mapper.run_eq, Mm.ioremapProt]
        exact if_pos hsize
      refine ⟨s, ?_, h⟩
      rw [Session.call, hnull]
      rfl
    · obtain ⟨first, hfree, hmap⟩ := ioremapProt_eq
        (mapper.protection modes prot) h.laid hsize hphys hrun
      have hvirt : pageOf first + phys % 2 ^ 12 ≠ 0 := by
        rw [pageOf]
        omega
      refine ⟨_, ?_, sound_map (m := ⟨mapper, phys, size, mapper.protection modes prot,
        pageOf first + phys % 2 ^ 12⟩) h hsize hphys hfree rfl fun hne =>
          Mapper.maps_protection fun heq => absurd heq hne⟩
      rw [Session.call, Mapper.run_eq, hmap]
      exact if_neg hvirt
  | unmap m =>
    have hheld := h.held m hallowed
    have hpos := h.laid.pos hheld.recorded
    have hwithin := h.laid.within hheld.recorded
    have hmapping := Fixmap.mapping_of_record hheld.recorded hpos
    rcases iounmap_eq hmapping.1 hheld.size_ne hwithin hheld.phys_le hmapping.2 with heq | heq
    · refine ⟨_, ?_, sound_erase h m⟩
      rw [Session.call, hheld.virt_eq, heq]
      rfl
    · refine ⟨_, ?_, sound_clear h hallowed⟩
      rw [Session.call, hheld.virt_eq, heq]
      rfl

theorem Session.Reachable.sound (h : s.Reachable) : s.Sound := by
  induction h with
  | start => exact sound_start
  | call _ hallowed hcall ih =>
    obtain ⟨s', hok, hsound⟩ := sound_call ih hallowed
    obtain rfl := Except.ok.inj (hok.symm.trans hcall)
    exact hsound

/-! ## What a session promises -/

/-- Entry `i` of `mapping` records a span that takes the slot. -/
def Fixmap.Takes (f : Fixmap) (i slot : ℕ) : Prop :=
  i < TOTAL_FIX_BITMAPS ∧ f.mapping i ≠ -1 ∧ slot ≤ FIX_BITMAP_BEGIN - i ∧
    (FIX_BITMAP_BEGIN - i : ℕ) < slot + f.mapping i

/-- The mapping is the span that the entry of its first slot records. -/
def Mapping.Recorded (m : Mapping) (f : Fixmap) : Prop :=
  m.first < TOTAL_FIX_BITMAPS ∧ f.mapping m.first = pageCount m.phys m.size ∧
    m.virt = fixToVirt (FIX_BITMAP_BEGIN - m.first) + offsetInPage m.phys

/-- Every byte of the mapping translates to the byte that it is a mapping of. -/
def Mapping.Translates (m : Mapping) (f : Fixmap) : Prop :=
  ∀ k < m.size, f.translate (m.virt + k) = some (m.phys + k)

theorem Fixmap.Takes.recorded {i slot : ℕ} (h : f.Takes i slot) (hlaid : Laid 512 f.record) :
    ∃ len, f.record i = some len ∧ i + len ≤ 512 ∧ 1023 - slot < i + len ∧ slot ≤ 1023 - i ∧
      i < 512 := by
  obtain ⟨hi, hne, hle, hlt⟩ := h
  have hi' : i < 512 := hi
  have hrec : f.record i = some (f.mapping i).toNat := if_pos ⟨hi, hne⟩
  have hpos := hlaid.pos hrec
  rw [show FIX_BITMAP_BEGIN = 1023 from rfl] at hle hlt
  exact ⟨_, hrec, hlaid.within hrec, by omega, hle, hi⟩

theorem Session.Sound.takes_range (h : s.Sound) {i slot : ℕ} (htakes : s.fixmap.Takes i slot) :
    FIX_BITMAP_END ≤ slot ∧ slot ≤ FIX_BITMAP_BEGIN := by
  obtain ⟨len, -, hwithin, hlt, hle, hi⟩ := htakes.recorded h.laid
  exact ⟨show 512 ≤ slot by omega, show slot ≤ 1023 by omega⟩

theorem Session.Sound.takes_unique (h : s.Sound) {i j slot : ℕ} (hi : s.fixmap.Takes i slot)
    (hj : s.fixmap.Takes j slot) : i = j := by
  obtain ⟨len, hrec, hwithin, hlt, hle, hi'⟩ := hi.recorded h.laid
  obtain ⟨len', hrec', hwithin', hlt', hle', hj'⟩ := hj.recorded h.laid
  have hle : i ≤ 1023 - slot := by omega
  exact h.laid.eq_of_shared hrec hrec' hle hlt (by omega) hlt'

theorem Mapping.Held.record (h : m.Held f) (hlaid : Laid 512 f.record) : m.Recorded f := by
  have hmapping := Fixmap.mapping_of_record h.recorded (hlaid.pos h.recorded)
  refine ⟨hmapping.1, hmapping.2, ?_⟩
  rw [show FIX_BITMAP_BEGIN = 1023 from rfl, fixToVirt_entry hmapping.1, offsetInPage_eq]
  exact h.virt_eq

theorem Mapping.Held.translates (h : m.Held f) (hlaid : Laid 512 f.record)
    (hmaps : m.mapper = .ioremapProt → Maps m.prot) : m.Translates f := by
  have hprot : Maps m.prot := by
    by_cases hmapper : m.mapper = .ioremapProt
    · exact hmaps hmapper
    · exact h.prot_maps hmapper
  intro k hk
  rw [h.virt_eq]
  exact translate_range hprot (hlaid.within h.recorded) h.phys_le h.ptes hk

/-- What callers rely on. -/
structure Session.Faithful (s : Session) : Prop where
  /-- A call that keeps to the rules returns. -/
  returns : ∀ c, s.Allowed c → ∃ s', s.call c = .ok s'
  /-- The recorded spans lie in the slots of the bitmap. -/
  within : ∀ i slot, s.fixmap.Takes i slot → FIX_BITMAP_END ≤ slot ∧ slot ≤ FIX_BITMAP_BEGIN
  /-- No slot belongs to two of them. -/
  disjoint : ∀ i j slot, s.fixmap.Takes i slot → s.fixmap.Takes j slot → i = j
  /-- Every mapping that is held is one of them, and no two mappings are the same one. -/
  recorded : ∀ m ∈ s.live, m.Recorded s.fixmap
  distinct : s.live.Pairwise fun m m' => m.first ≠ m'.first
  /-- A mapping translates, if `ioremap_prot` was not given a protection that prevents it. -/
  translates : ∀ m ∈ s.live, (m.mapper = .ioremapProt → Maps m.prot) → m.Translates s.fixmap

/-- Every session that calls lead to is faithful. -/
theorem Session.Reachable.faithful (h : s.Reachable) : s.Faithful := by
  have hsound := h.sound
  constructor
  · intro c hallowed
    obtain ⟨s', hok, -⟩ := sound_call hsound hallowed
    exact ⟨s', hok⟩
  · exact fun i slot htakes => hsound.takes_range htakes
  · exact fun i j slot hi hj => hsound.takes_unique hi hj
  · exact fun m hm => (hsound.held m hm).record hsound.laid
  · exact hsound.distinct
  · exact fun m hm hmaps => (hsound.held m hm).translates hsound.laid hmaps

/-- A call that maps where there is room. -/
theorem Session.Reachable.exists_map (h : s.Reachable) (mapper : Mapper) (modes : CachemodeToPte)
    (prot : ℕ) (hsize : size ≠ 0) (hphys : phys + size ≤ 2 ^ 52)
    (hrun : ∃ a, FreeRun 512 s.fixmap.record a (pageCount phys size)) :
    ∃ first, FreeRun 512 s.fixmap.record first (pageCount phys size) ∧ first < 512 ∧
      Session.Reachable ⟨s.fixmap.mapped first phys size (mapper.protection modes prot),
        ⟨mapper, phys, size, mapper.protection modes prot, pageOf first + phys % 2 ^ 12⟩ ::
          s.live⟩ := by
  obtain ⟨first, hfree, hmap⟩ := ioremapProt_eq (mapper.protection modes prot) h.sound.laid hsize
    hphys hrun
  have hwithin := hfree.within
  have hpos := pageCount_pos phys hsize
  have hvirt : pageOf first + phys % 2 ^ 12 ≠ 0 := by
    rw [pageOf]
    omega
  have hcall : s.call (.map mapper modes phys size prot) = .ok ⟨
      s.fixmap.mapped first phys size (mapper.protection modes prot),
      ⟨mapper, phys, size, mapper.protection modes prot, pageOf first + phys % 2 ^ 12⟩ ::
        s.live⟩ := by
    rw [Session.call, Mapper.run_eq, hmap]
    exact if_neg hvirt
  have hallowed : s.Allowed (.map mapper modes phys size prot) := ⟨hphys, by omega, hrun⟩
  exact ⟨first, hfree, by omega, h.call hallowed hcall⟩

/-- A call that unmaps. -/
theorem Session.Reachable.exists_unmap (h : s.Reachable) (hm : m ∈ s.live) :
    ∃ f, Session.Reachable ⟨f, s.live.erase m⟩ := by
  obtain ⟨s', hcall, -⟩ := sound_call h.sound (c := .unmap m) hm
  have hreachable := h.call (c := .unmap m) hm hcall
  rw [Session.call] at hcall
  cases hunmap : iounmap s.fixmap m.virt m.size with
  | error fault =>
      rw [hunmap] at hcall
      cases hcall
  | ok f =>
      rw [hunmap] at hcall
      obtain rfl := Except.ok.inj hcall
      exact ⟨f, hreachable⟩

/-- The memory of the video adapter and a page of registers are mapped, and the first is unmapped
again. -/
theorem faithful_twoMappings : ∃ s : Session, s.live.length = 1 ∧ s.Faithful := by
  obtain ⟨first, -, hlt, hreachable⟩ := Session.Reachable.start.exists_map .memremap
    (fun _ => 0) 0 (show 0x20000 ≠ 0 by decide) (show 0xA0000 + 0x20000 ≤ 2 ^ 52 by decide)
    ⟨0, freeRun_start (by decide)⟩
  have hrecord := Fixmap.start.record_mapped 0xA0000 0x20000 PAGE_KERNEL hlt
  have hroom : ∀ a < 512, a < first ∨ first + 32 ≤ a →
      FreeRun 512 (Fixmap.start.mapped first 0xA0000 0x20000 PAGE_KERNEL).record a
        (pageCount 0xFEC00000 0x1000) := by
    intro a ha hapart
    have hcount : pageCount 0xFEC00000 0x1000 = 1 := by decide
    have hcount' : pageCount 0xA0000 0x20000 = 32 := by decide
    refine ⟨by omega, ?_⟩
    rintro slot hle hend ⟨i, len, hi, hfrom, hto⟩
    rw [hrecord, hcount'] at hi
    by_cases hsame : i = first
    · rw [hsame, Function.update_self] at hi
      obtain rfl := Option.some.inj hi
      omega
    · rw [Function.update_of_ne hsame, Fixmap.record_start] at hi
      cases hi
  have hrun : ∃ a, FreeRun 512 (Fixmap.start.mapped first 0xA0000 0x20000 PAGE_KERNEL).record a
      (pageCount 0xFEC00000 0x1000) := by
    by_cases hzero : first = 0
    · exact ⟨32, hroom 32 (by decide) (.inr (by omega))⟩
    · exact ⟨0, hroom 0 (by decide) (.inl (by omega))⟩
  obtain ⟨second, -, -, hreachable'⟩ := hreachable.exists_map .ioremap (fun _ => 0) 0
    (show 0x1000 ≠ 0 by decide) (show 0xFEC00000 + 0x1000 ≤ 2 ^ 52 by decide) hrun
  obtain ⟨f, hlast⟩ := hreachable'.exists_unmap (List.mem_cons_of_mem _ List.mem_cons_self)
  exact ⟨_, by rw [List.length_erase_of_mem (List.mem_cons_of_mem _ List.mem_cons_self)]; rfl,
    Session.Reachable.faithful hlast⟩

/-- The first byte of a mapping without any protection does not translate. -/
theorem not_translates_of_unprotected (hfirst : first < 512) (hsize : m.size ≠ 0)
    (hvirt : m.virt = pageOf first + m.phys % 2 ^ 12) :
    ¬ m.Translates (f.mapped first m.phys m.size 0) := by
  intro htranslates
  have hoff : m.phys % 2 ^ 12 < 2 ^ 12 := Nat.mod_lt _ (by decide)
  have hempty := f.mapped_inside first 0 (pageCount_pos m.phys hsize)
  rw [Nat.add_zero, fixmapPte_zero] at hempty
  have hentry : entry 0 ((f.mapped first m.phys m.size 0).level1_fixmap_pgt 0
      (index 0 (pageOf first + m.phys % 2 ^ 12))) = .absent := by
    rw [index_pageOf hfirst hoff, hempty, entry_zero]
  have hnone : (f.mapped first m.phys m.size 0).translate
      (pageOf first + m.phys % 2 ^ 12) = none := by
    rw [Fixmap.translate]
    split
    · exact translate_leaf_absent _ _ hentry
    · rfl
  have hsome := htranslates 0 (Nat.pos_of_ne_zero hsize)
  rw [hvirt, Nat.add_zero, hnone] at hsome
  cases hsome

/-- `ioremap_prot` of one byte without any protection leaves the entry of its page empty. -/
theorem not_translates_ioremapProt :
    ¬ ∀ s : Session, s.Reachable → ∀ m ∈ s.live, m.Translates s.fixmap := by
  intro hall
  obtain ⟨first, -, hlt, hreachable⟩ := Session.Reachable.start.exists_map .ioremapProt
    (fun _ => 0) 0 (show 1 ≠ 0 by decide) (show 0x1000 + 1 ≤ 2 ^ 52 by decide)
    ⟨0, freeRun_start (by decide)⟩
  have htranslates := hall _ hreachable _ List.mem_cons_self
  exact not_translates_of_unprotected hlt Nat.one_ne_zero rfl htranslates

end Cyanea.Mm
