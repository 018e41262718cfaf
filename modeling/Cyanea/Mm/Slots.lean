/-
# Slots that are found, and slots that are given back

Calls that map and unmap can come in any order and with any arguments. The spans that
`mapping` records stay apart, but three slips show. The scan for a free range asks whether it
has come past the last slot only one slot too late. A number of pages is cut to 32 bits
before it is compared with the number of slots, so that a request of `2 ^ 32` pages reserves
a span of none, in the first slot, which no later scan gets over. And `iounmap` takes an
address inside the last page for one that is not its own.
-/

import Cyanea.Math.Run
import Cyanea.Math.Simulation
import Cyanea.Mm.Fixmap

namespace Cyanea.Mm

open X86 Cyanea.Math.Spans
open Cyanea.Math.Simulation (ok_bind error_bind)

variable {s s' s₁ : Fixmap} {first count i n phys size prot virt : ℕ}

/-! ## The scan -/

/-- Without a free range the scan reads behind the last entry. -/
theorem freeRangeLoop_none (hlaid : Laid 512 s.record)
    (hnone : ∀ a, ¬ FreeRun 512 s.record a count) {turns start : ℕ}
    (hscan : Scanned s.record n i start) (hn : n ≤ count) (hturns : 513 - i ≤ turns)
    (hi : i ≤ 512) : freeRangeLoop s count turns n i start = .error .outOfBounds := by
  induction turns generalizing n i start with
  | zero => omega
  | succ turns ih =>
      have hlt : n < count := by
        refine lt_of_le_of_ne hn ?_
        rintro rfl
        exact hnone start (hscan.freeRun hi)
      have hguard : ¬ TOTAL_FIX_BITMAPS < i := show ¬ 512 < i by omega
      rw [freeRangeLoop, if_pos hlt, if_neg hguard]
      by_cases hend : i = 512
      · have hload : s.load i = .error .outOfBounds := if_neg (show ¬ i < 512 by omega)
        rw [hload]
        rfl
      · have hload : s.load i = .ok (s.mapping i) := if_pos (show i < 512 by omega)
        rw [hload]
        change (if s.mapping i ≠ -1 then _ else _) = _
        by_cases hfree : s.mapping i = -1
        · have hrecord : s.record i = none := by simp [Fixmap.record, hfree]
          rw [if_neg (not_not.mpr hfree)]
          exact ih (hscan.free hrecord) (by omega) (by omega) (by omega)
        · have hrecord : s.record i = some (s.mapping i).toNat := if_pos ⟨by omega, hfree⟩
          have hpos := hlaid.pos hrecord
          have hwithin := hlaid.within hrecord
          rw [if_pos hfree]
          exact ih (hscan.jump hlaid hrecord) (Nat.zero_le _) (by omega) hwithin

/-- A span of no slots holds the scan, however long it goes on. -/
theorem freeRangeLoop_stuck (hzero : s.mapping 0 = 0) (hcount : 0 < count) (turns : ℕ) :
    freeRangeLoop s count turns 0 0 0 = .error .stuck := by
  induction turns with
  | zero => rfl
  | succ turns ih =>
      have hguard : ¬ TOTAL_FIX_BITMAPS < 0 := Nat.not_lt_zero _
      have hload : s.load 0 = .ok 0 := by
        rw [← hzero]
        exact if_pos (show 0 < 512 by decide)
      rw [freeRangeLoop, if_pos hcount, if_neg hguard, hload, ok_bind]
      exact ih

/-- The spans are laid out, but the first entry can hold one of no slots. -/
def Fixmap.Sound (s : Fixmap) : Prop :=
  Laid 512 s.record ∨ s.mapping 0 = 0 ∧ Laid 512 (Function.update s.record 0 none)

theorem Fixmap.Sound.laid (h : s.Sound) (hzero : s.mapping 0 ≠ 0) : Laid 512 s.record := by
  rcases h with hlaid | ⟨hheld, -⟩
  · exact hlaid
  · exact absurd hheld hzero

/-- What `find_free_range` is to do: reserve the lowest free range, or say that there is
none. -/
def FindsFirst (s : Fixmap) (nrpages : ℕ) : Prop :=
  ∃ result s', findFreeRange s nrpages = .ok (result, s') ∧
    match result with
    | some slot => ∃ first, slot = FIX_BITMAP_BEGIN - first ∧
        FreeRun TOTAL_FIX_BITMAPS s.record first nrpages ∧
        (∀ a, FreeRun TOTAL_FIX_BITMAPS s.record a nrpages → first ≤ a) ∧
        s' = { s with mapping := Function.update s.mapping first nrpages }
    | none => s' = s ∧ ∀ a, ¬ FreeRun TOTAL_FIX_BITMAPS s.record a nrpages

theorem findFreeRange_error {f : Fault}
    (h : freeRangeLoop s count (TOTAL_FIX_BITMAPS + 2) 0 0 0 = .error f) :
    findFreeRange s count = .error f := by
  rw [findFreeRange, h, error_bind]

/-- There is no other way for it to end than to find a range. -/
theorem Fixmap.Sound.findFreeRange_fails (h : s.Sound) (hcount : 0 < count)
    (hnot : ¬ (s.mapping 0 ≠ 0 ∧ ∃ a, FreeRun 512 s.record a count)) :
    ∃ f, findFreeRange s count = .error f := by
  by_cases hzero : s.mapping 0 = 0
  · exact ⟨_, findFreeRange_error (freeRangeLoop_stuck hzero hcount _)⟩
  · have hnone : ∀ a, ¬ FreeRun 512 s.record a count := fun a hfree => hnot ⟨hzero, a, hfree⟩
    exact ⟨_, findFreeRange_error (freeRangeLoop_none (h.laid hzero) hnone scanned_zero
      (Nat.zero_le _) (show 513 - 0 ≤ 514 by decide) (Nat.zero_le _))⟩

theorem Fixmap.Sound.findsFirst (h : s.Sound) (hcount : 0 < count) :
    FindsFirst s count ↔
      s.mapping 0 ≠ 0 ∧ ∃ a, FreeRun TOTAL_FIX_BITMAPS s.record a count := by
  constructor
  · rintro ⟨result, s', hrun, -⟩
    by_contra hnot
    obtain ⟨f, hfails⟩ := h.findFreeRange_fails hcount hnot
    rw [hfails] at hrun
    cases hrun
  · rintro ⟨hzero, hrun⟩
    obtain ⟨first, hfree, hlowest, hfind⟩ := findFreeRange_lowest (h.laid hzero) hcount hrun
    exact ⟨_, _, hfind, first, rfl, hfree, hlowest, rfl⟩

/-! ## One call -/

theorem nrpages_eq (hphys : phys < 2 ^ 64) (hsize : size < 2 ^ 64) (hne : size ≠ 0) :
    (sub64 (pageAlign (add64 phys size)) (phys &&& PAGE_MASK) >>> PAGE_SHIFT) % 2 ^ 32 =
      narrowed phys size := by
  have hfin : pageAlign (add64 phys size) =
      2 ^ 12 * ((((phys + size) % 2 ^ 64 + (2 ^ 12 - 1)) % 2 ^ 64) / 2 ^ 12) := by
    rw [pageAlign, show PAGE_SIZE = 2 ^ 12 from rfl]
    exact and_not64_eq (add64_lt _ _) (by decide)
  rw [narrowed, pageCount, if_neg hne, hfin, and_PAGE_MASK hphys, sub64,
    show PAGE_SHIFT = 12 from rfl, Nat.shiftRight_eq_div_pow]
  omega

/-- `__ioremap` behind the tests of the size. -/
theorem ioremapProt_run (hphys : phys < 2 ^ 64) (hsize : size < 2 ^ 64) (hne : size ≠ 0)
    (s : Fixmap) (prot : ℕ) : ioremapProt s phys size prot =
      if 512 < narrowed phys size then .ok (0, s)
      else findFreeRange s (narrowed phys size) >>= fun p => match p with
        | (none, s) => .ok (0, s)
        | (some slot, s) => mapLoop prot (narrowed phys size) slot (phys &&& PAGE_MASK) s >>=
            fun s => .ok (add64 (fixToVirt slot) (offsetInPage phys), s) := by
  simp only [ioremapProt, if_neg hne, nrpages_eq hphys hsize hne]
  rfl

/-- Whatever the addresses, mapping pages leaves `mapping` alone. -/
theorem mapLoop_mapping (prot : ℕ) (hslots : first + count ≤ 512) (s : Fixmap) (phys : ℕ) :
    ∃ s', mapLoop prot count (1023 - first) phys s = .ok s' ∧ s'.mapping = s.mapping := by
  induction count generalizing first phys s with
  | zero => exact ⟨s, rfl, rfl⟩
  | succ count ih =>
      obtain ⟨s', hrun, hmapping⟩ := ih (show first + 1 + count ≤ 512 by omega)
        (s.setPte 0 first (fixmapPte phys prot)) (add64 phys PAGE_SIZE)
      refine ⟨s', ?_, hmapping⟩
      rw [mapLoop, setFixmap_entry (by omega), ok_bind, Nat.sub_sub]
      exact hrun

theorem setFixmap_mapping {idx pte : ℕ} (h : setFixmap s idx phys pte = .ok s') :
    s'.mapping = s.mapping := by
  rw [setFixmap] at h
  split at h
  · obtain rfl := Except.ok.inj h
    rfl
  · cases h

theorem unmapLoop_mapping (h : unmapLoop count i s = .ok s') : s'.mapping = s.mapping := by
  induction count generalizing i s with
  | zero =>
      obtain rfl := Except.ok.inj h
      rfl
  | succ count ih =>
      obtain ⟨s₁, hset, hrest⟩ := Math.bind_eq_ok.mp h
      rw [ih hrest, setFixmap_mapping hset]

/-- With no pages to find, the first entry is taken, whatever it holds. -/
theorem findFreeRange_zero (s : Fixmap) : findFreeRange s 0 =
    .ok (some 1023, { s with mapping := Function.update s.mapping 0 0 }) := by
  have hloop : freeRangeLoop s 0 (TOTAL_FIX_BITMAPS + 2) 0 0 0 = .ok (some 0) := rfl
  have hstore : s.store 0 (0 : ℕ) = .ok { s with mapping := Function.update s.mapping 0 0 } :=
    if_pos (show 0 < 512 by decide)
  rw [findFreeRange, hloop, ok_bind]
  dsimp only
  rw [hstore]
  rfl

theorem virt_eq (hfirst : first < 512) (phys : ℕ) :
    add64 (fixToVirt (1023 - first)) (offsetInPage phys) = pageOf first + phys % 2 ^ 12 := by
  have hoff : phys % 2 ^ 12 < 2 ^ 12 := Nat.mod_lt _ (by decide)
  rw [fixToVirt_entry hfirst, offsetInPage_eq, add64_eq]
  rw [pageOf]
  omega

/-- What a call for at least a byte that returns has left behind. -/
inductive Outcome (s : Fixmap) (phys size prot : ℕ) : ℕ → Fixmap → Prop
  | null : 512 < narrowed phys size → Outcome s phys size prot 0 s
  | empty : narrowed phys size = 0 → Outcome s phys size prot (pageOf 0 + phys % 2 ^ 12)
      { s with mapping := Function.update s.mapping 0 0 }
  | span {first : ℕ} {s' : Fixmap} : 0 < narrowed phys size → s.mapping 0 ≠ 0 →
      FreeRun 512 s.record first (narrowed phys size) →
      (∀ a, FreeRun 512 s.record a (narrowed phys size) → first ≤ a) →
      s'.mapping = Function.update s.mapping first (narrowed phys size) →
      (phys + size ≤ 2 ^ 52 → s' = Fixmap.fill
        { s with mapping := Function.update s.mapping first (narrowed phys size) } first
        (narrowed phys size) fun j => fixmapPte (2 ^ 12 * (phys / 2 ^ 12 + j)) prot) →
      Outcome s phys size prot (pageOf first + phys % 2 ^ 12) s'

theorem Fixmap.Sound.outcome (h : s.Sound) (hphys : phys < 2 ^ 64) (hsize : size < 2 ^ 64)
    (hne : size ≠ 0) (hok : ioremapProt s phys size prot = .ok (virt, s')) :
    Outcome s phys size prot virt s' := by
  rw [ioremapProt_run hphys hsize hne] at hok
  split at hok
  · rename_i hmany
    obtain ⟨rfl, rfl⟩ := Prod.mk.inj (Except.ok.inj hok)
    exact .null hmany
  · rename_i hfew
    rcases Nat.eq_zero_or_pos (narrowed phys size) with hnone | hpos
    · rw [hnone, findFreeRange_zero, ok_bind] at hok
      dsimp only at hok
      rw [mapLoop, ok_bind] at hok
      obtain ⟨rfl, rfl⟩ := Prod.mk.inj (Except.ok.inj hok)
      rw [virt_eq (show 0 < 512 by decide)]
      exact .empty hnone
    · by_cases hfinds : s.mapping 0 ≠ 0 ∧ ∃ a, FreeRun 512 s.record a (narrowed phys size)
      · obtain ⟨hzero, hrun⟩ := hfinds
        obtain ⟨first, hfree, hlowest, hfind⟩ := findFreeRange_lowest (h.laid hzero) hpos hrun
        have hwithin := hfree.within
        obtain ⟨s₂, hmap, hmapping⟩ := mapLoop_mapping prot hwithin
          { s with mapping := Function.update s.mapping first (narrowed phys size) }
          (phys &&& PAGE_MASK)
        rw [hfind, ok_bind] at hok
        dsimp only at hok
        rw [hmap, ok_bind, virt_eq (by omega)] at hok
        obtain ⟨rfl, rfl⟩ := Prod.mk.inj (Except.ok.inj hok)
        refine .span hpos hzero hfree hlowest hmapping fun hend => ?_
        have hle : narrowed phys size ≤ pageCount phys size := Nat.mod_le _ _
        have hcount : pageCount phys size =
            (phys + size + (2 ^ 12 - 1)) / 2 ^ 12 - phys / 2 ^ 12 := if_neg hne
        have hstep : ∀ j, 2 ^ 12 * (phys / 2 ^ 12) + 2 ^ 12 * j = 2 ^ 12 * (phys / 2 ^ 12 + j) :=
          fun j => (Nat.mul_add _ _ _).symm
        have hmasked : (phys &&& PAGE_MASK) + 2 ^ 12 * narrowed phys size ≤ 2 ^ 52 := by
          rw [and_PAGE_MASK hphys]
          omega
        have hfilled := mapLoop_eq
          { s with mapping := Function.update s.mapping first (narrowed phys size) } prot
          hwithin hmasked
        rw [hmap, and_PAGE_MASK hphys] at hfilled
        simp only [hstep] at hfilled
        exact Except.ok.inj hfilled
      · obtain ⟨f, hfails⟩ := h.findFreeRange_fails hpos hfinds
        rw [hfails, error_bind] at hok
        cases hok

/-! ## Any calls -/

/-- The states that mapping and unmapping lead to, with any arguments. -/
inductive Fixmap.Reachable : Fixmap → Prop
  | start : Reachable .start
  | map {s s' : Fixmap} {phys size prot virt : ℕ} : Reachable s → phys < 2 ^ 64 →
      size < 2 ^ 64 → ioremapProt s phys size prot = .ok (virt, s') → Reachable s'
  | unmap {s s' : Fixmap} {virt size : ℕ} : Reachable s → iounmap s virt size = .ok s' →
      Reachable s'

theorem iounmap_mapping (h : iounmap s virt size = .ok s') :
    s'.mapping = s.mapping ∨ ∃ i, s'.mapping = Function.update s.mapping i (-1) := by
  rw [iounmap] at h
  split at h
  · obtain rfl := Except.ok.inj h
    exact .inl rfl
  · split at h
    · obtain rfl := Except.ok.inj h
      exact .inl rfl
    · dsimp only at h
      generalize FIX_BITMAP_BEGIN - virtToFix virt = i at h
      obtain ⟨len, -, h⟩ := Math.bind_eq_ok.mp h
      split at h
      · obtain rfl := Except.ok.inj h
        exact .inl rfl
      · obtain ⟨s₁, hloop, h⟩ := Math.bind_eq_ok.mp h
        rw [Fixmap.store] at h
        split at h
        · obtain rfl := Except.ok.inj h
          refine .inr ⟨i, ?_⟩
          dsimp only
          rw [unmapLoop_mapping hloop]
        · cases h

/-- Only `mapping` matters. -/
theorem Fixmap.Sound.congr (h : s.Sound) (hmapping : s'.mapping = s.mapping) : s'.Sound := by
  rw [Fixmap.Sound, Fixmap.record_congr hmapping, hmapping]
  exact h

theorem Fixmap.Sound.forget (h : s.Sound)
    (hmapping : s'.mapping = Function.update s.mapping i (-1)) : s'.Sound := by
  have hrecord : s'.record = Function.update s.record i none :=
    (Fixmap.record_congr hmapping).trans (record_forget s.level1_fixmap_pgt)
  rcases h with hlaid | ⟨hzero, hlaid⟩
  · left
    rw [hrecord]
    exact hlaid.forget i
  · by_cases hi : i = 0
    · subst hi
      left
      rwa [hrecord]
    · right
      refine ⟨?_, ?_⟩
      · rw [hmapping, Function.update_of_ne (Ne.symm hi), hzero]
      · rw [hrecord, Function.update_comm hi]
        exact hlaid.forget i

theorem Fixmap.Sound.map (h : s.Sound) (hphys : phys < 2 ^ 64) (hsize : size < 2 ^ 64)
    (hok : ioremapProt s phys size prot = .ok (virt, s')) : s'.Sound := by
  by_cases hne : size = 0
  · rw [ioremapProt] at hok
    dsimp only at hok
    rw [if_pos hne] at hok
    obtain ⟨-, rfl⟩ := Prod.mk.inj (Except.ok.inj hok)
    exact h
  · cases h.outcome hphys hsize hne hok with
    | null => exact h
    | empty =>
        right
        refine ⟨Function.update_self 0 (0 : ℤ) s.mapping, ?_⟩
        have hrecord : Fixmap.record { s with mapping := Function.update s.mapping 0 0 } =
            Function.update s.record 0 (some 0) := record_store _ 0 (by decide)
        rw [hrecord, Function.update_idem]
        rcases h with hlaid | ⟨-, hlaid⟩
        · exact hlaid.forget 0
        · exact hlaid
    | @span first s' hpos hzero hfree _ hmapping _ =>
        left
        have hwithin := hfree.within
        have hrecord : s'.record = Function.update s.record first (some (narrowed phys size)) :=
          (Fixmap.record_congr hmapping).trans
            (record_store s.level1_fixmap_pgt _ (by omega))
        rw [hrecord]
        exact (h.laid hzero).record hfree hpos

theorem Fixmap.Reachable.sound (h : s.Reachable) : s.Sound := by
  induction h with
  | start => exact .inl laid_start
  | map _ hphys hsize hok ih => exact ih.map hphys hsize hok
  | unmap _ hok ih =>
      rcases iounmap_mapping hok with hsame | ⟨i, hforget⟩
      · exact ih.congr hsame
      · exact ih.forget hforget

/-- `find_free_range` is right in every state exactly where no span of no slots is recorded
and there is a free range. -/
theorem Fixmap.Reachable.findsFirst_iff (h : s.Reachable) (hcount : 0 < count) :
    FindsFirst s count ↔
      s.mapping 0 ≠ 0 ∧ ∃ a, FreeRun TOTAL_FIX_BITMAPS s.record a count :=
  h.sound.findsFirst hcount

/-! ## Giving back -/

/-- Unmapping makes `mapping` what it was, and empties the entries of the slots that had been
reserved. -/
structure GivenBack (s s₁ : Fixmap) (virt size : ℕ) : Prop where
  run : ∃ s₂, iounmap s₁ virt size = .ok s₂ ∧ s₂.mapping = s.mapping ∧
    ∀ j, s₁.record.Covers j → ¬ s.record.Covers j → s₂.level1_fixmap_pgt 0 j = 0

/-- A free run begins with an entry that records nothing. -/
theorem mapping_of_freeRun (hlaid : Laid 512 s.record) (hcount : 0 < count)
    (hfree : FreeRun 512 s.record first count) : s.mapping first = -1 := by
  have hwithin := hfree.within
  by_contra hne
  have hrecord : s.record first = some (s.mapping first).toNat := if_pos ⟨by omega, hne⟩
  exact hfree.free first (Nat.le_refl _) (by omega)
    ⟨first, _, hrecord, Nat.le_refl _, Nat.lt_add_of_pos_right (hlaid.pos hrecord)⟩

theorem update_mapping_eq (f : ℕ → ℤ) (i : ℕ) (n : ℤ) :
    Function.update (Function.update f i n) i (-1) = f ↔ f i = -1 := by
  rw [Function.update_idem, eq_comm, Function.eq_update_iff]
  exact and_iff_left fun j _ => rfl

/-- A slot that a span from `first` on has added lies in that span. -/
theorem covers_of_update {r : Record} {j : ℕ}
    (h : Record.Covers (Function.update r first (some n)) j) (hnot : ¬ r.Covers j) :
    first ≤ j ∧ j < first + n := by
  obtain ⟨a, len, hrecord, hle, hlt⟩ := h
  by_cases ha : a = first
  · subst ha
    rw [Function.update_self] at hrecord
    obtain rfl := Option.some.inj hrecord
    exact ⟨hle, hlt⟩
  · rw [Function.update_of_ne ha] at hrecord
    exact absurd ⟨a, len, hrecord, hle, hlt⟩ hnot

theorem Fixmap.cleared_inside {j : ℕ} (hle : first ≤ j) (hlt : j < first + count) :
    (s.cleared first count).level1_fixmap_pgt 0 j = 0 := by
  obtain ⟨k, rfl⟩ := Nat.exists_eq_add_of_le hle
  exact fill_inside (f := fun _ => 0) (by omega)

/-- A span that has been recorded over an entry is cleared again. -/
theorem givenBack_of_cleared (hmapping : s₁.mapping = Function.update s.mapping first n)
    (hfirst : first < 512) (hrun : iounmap s₁ virt size = .ok (s₁.cleared first n)) :
    GivenBack s s₁ virt size ↔ s.mapping first = -1 := by
  have hback : (s₁.cleared first n).mapping =
      Function.update (Function.update s.mapping first n) first (-1) := by
    rw [← hmapping]
    rfl
  constructor
  · rintro ⟨s₂, hrun', hsame, -⟩
    obtain rfl := Except.ok.inj (hrun.symm.trans hrun')
    rw [hback] at hsame
    exact (update_mapping_eq s.mapping first n).mp hsame
  · intro hfree
    refine ⟨_, hrun, hback.trans ((update_mapping_eq s.mapping first n).mpr hfree), ?_⟩
    intro j hcovers hnot
    have hrecord : s₁.record = Function.update s.record first (some n) :=
      (Fixmap.record_congr hmapping).trans (Fixmap.record_store s.level1_fixmap_pgt _ hfirst)
    rw [hrecord] at hcovers
    obtain ⟨hle, hlt⟩ := covers_of_update hcovers hnot
    exact Fixmap.cleared_inside hle hlt

/-- A mapping is given back exactly if its number of pages is not cut to zero over a span that
is recorded in the first entry, and if it does not begin inside the last page. -/
theorem Fixmap.Reachable.givenBack_iff (h : s.Reachable) (hsize : size ≠ 0)
    (hphys : phys + size ≤ 2 ^ 52) (hok : ioremapProt s phys size prot = .ok (virt, s₁))
    (hvirt : virt ≠ 0) :
    GivenBack s s₁ virt size ↔ (narrowed phys size = 0 → s.mapping 0 = -1) ∧
      (phys % 2 ^ 12 = 0 ∨
        ∃ a < 511, FreeRun TOTAL_FIX_BITMAPS s.record a (narrowed phys size)) := by
  cases h.sound.outcome (by omega) (by omega) hsize hok with
  | null => exact absurd rfl hvirt
  | empty hzero =>
      have hcut : (narrowed phys size : ℤ) = 0 := congrArg Nat.cast hzero
      have hmapping : ({ s with mapping := Function.update s.mapping 0 0 } : Fixmap).mapping =
          Function.update s.mapping 0 (narrowed phys size) := by rw [hcut]
      have hrun := iounmap_span (s := { s with mapping := Function.update s.mapping 0 0 })
        (i := 0) (by decide) hsize (by rw [hzero]; decide) hphys
        (by rw [hmapping, Function.update_self])
      rw [if_neg (by omega)] at hrun
      have hroom : FreeRun TOTAL_FIX_BITMAPS s.record 0 (narrowed phys size) := by
        rw [hzero]
        exact ⟨by decide, fun slot hle hlt => absurd hlt (by omega)⟩
      rw [givenBack_of_cleared hmapping (by decide) hrun, and_iff_left (.inr ⟨0, by decide, hroom⟩)]
      exact ⟨fun hfree _ => hfree, fun hfree => hfree hzero⟩
  | @span first _ hpos hzero hfree hlowest hmapping _ =>
      have hwithin := hfree.within
      have hlaid := h.sound.laid hzero
      have hnothing := mapping_of_freeRun hlaid hpos hfree
      have hrun := iounmap_span (s := s₁) (i := first) (by omega) hsize hwithin hphys
        (by rw [hmapping, Function.update_self])
      rw [and_iff_right fun hcut => absurd hcut hpos.ne']
      by_cases hlast : first = 511 ∧ phys % 2 ^ 12 ≠ 0
      · rw [if_pos hlast] at hrun
        refine iff_of_false ?_ ?_
        · rintro ⟨s₂, hrun', hsame, -⟩
          obtain rfl := Except.ok.inj (hrun.symm.trans hrun')
          rw [hmapping] at hsame
          have hentry := congrFun hsame first
          rw [Function.update_self, hnothing] at hentry
          omega
        · rintro (haligned | ⟨a, ha, hfree'⟩)
          · exact hlast.2 haligned
          · have hle := hlowest a hfree'
            omega
      · rw [if_neg hlast] at hrun
        refine iff_of_true ((givenBack_of_cleared hmapping (by omega) hrun).mpr hnothing) ?_
        by_cases hoff : phys % 2 ^ 12 = 0
        · exact .inl hoff
        · exact .inr ⟨first, by omega, hfree⟩

/-! ## Large requests -/

/-- The whole range is mapped, and `mapping` records how many pages that are. -/
structure MapsAll (s : Fixmap) (virt phys size prot : ℕ) : Prop where
  recorded : ∃ first, first < TOTAL_FIX_BITMAPS ∧
    virt = fixToVirt (FIX_BITMAP_BEGIN - first) + offsetInPage phys ∧
    s.mapping first = pageCount phys size ∧ 0 < s.mapping first ∧
    ∀ j < pageCount phys size, s.level1_fixmap_pgt 0 (first + j) =
      fixmapPte (2 ^ 12 * (phys / 2 ^ 12 + j)) prot
  translates : Maps prot → ∀ k < size, s.translate (virt + k) = some (phys + k)

/-- What `__ioremap` is to do with a range: refuse it if it has too many pages, and otherwise
map all of it if it returns an address. -/
structure Limited (s : Fixmap) (phys size prot : ℕ) : Prop where
  null : TOTAL_FIX_BITMAPS < pageCount phys size → ioremapProt s phys size prot = .ok (0, s)
  mapsAll : ∀ virt s', ioremapProt s phys size prot = .ok (virt, s') → virt ≠ 0 →
    MapsAll s' virt phys size prot

theorem Outcome.many (h : Outcome s phys size prot virt s') (hnull : virt = 0) :
    512 < narrowed phys size := by
  cases h with
  | null hmany => exact hmany
  | empty => exact absurd hnull (by rw [pageOf]; omega)
  | span => exact absurd hnull (by rw [pageOf]; omega)

/-- That holds exactly if the number of pages fits into 32 bits, or is too large after it has
been cut to them as well. -/
theorem Fixmap.Reachable.limited_iff (h : s.Reachable) (hsize : size ≠ 0)
    (hphys : phys + size ≤ 2 ^ 52) : Limited s phys size prot ↔
      pageCount phys size < 2 ^ 32 ∨ TOTAL_FIX_BITMAPS < pageCount phys size % 2 ^ 32 := by
  have hphys' : phys < 2 ^ 64 := by omega
  have hsize' : size < 2 ^ 64 := by omega
  constructor
  · intro hlimited
    by_contra hnot
    obtain ⟨hlarge, hfew⟩ := not_or.mp hnot
    have hmany : 512 < pageCount phys size := by omega
    exact hfew ((h.sound.outcome hphys' hsize' hsize (hlimited.null hmany)).many rfl)
  · intro hcond
    constructor
    · intro hmany
      have hcut : 512 < narrowed phys size := by
        rcases hcond with hsmall | hcut
        · rw [narrowed_eq hsmall]
          exact hmany
        · exact hcut
      rw [ioremapProt_run hphys' hsize' hsize, if_pos hcut]
    · intro virt s' hok hvirt
      have hpos := pageCount_pos phys hsize
      have hwhole (hfew : narrowed phys size ≤ 512) :
          narrowed phys size = pageCount phys size := by
        rcases hcond with hsmall | hcut
        · exact narrowed_eq hsmall
        · exact absurd hcut (not_lt.mpr hfew)
      cases h.sound.outcome hphys' hsize' hsize hok with
      | null => exact absurd rfl hvirt
      | empty hzero =>
          have hsame := hwhole (by omega)
          omega
      | @span first _ _ _ hfree _ hmapping hfilled =>
          have hwithin := hfree.within
          have hsame := hwhole (by omega)
          rw [hsame] at hwithin hmapping hfilled
          have hptes : ∀ j < pageCount phys size, s'.level1_fixmap_pgt 0 (first + j) =
              fixmapPte (2 ^ 12 * (phys / 2 ^ 12 + j)) prot := by
            intro j hj
            rw [hfilled hphys]
            exact Fixmap.fill_inside hj
          constructor
          · refine ⟨first, show first < 512 by omega, ?_, ?_, ?_, hptes⟩
            · rw [show FIX_BITMAP_BEGIN = 1023 from rfl, fixToVirt_entry (by omega),
                offsetInPage_eq]
            · rw [hmapping, Function.update_self]
            · rw [hmapping, Function.update_self]
              exact Int.natCast_pos.mpr hpos
          · exact fun hmaps k hk => translate_range hmaps hwithin hphys hptes hk

/-! ## The slips -/

/-- The first request at boot takes the first slots. -/
theorem ioremapProt_start (prot : ℕ) (hsize : size ≠ 0) (hphys : phys + size ≤ 2 ^ 52)
    (hcount : pageCount phys size ≤ 512) : ioremapProt .start phys size prot =
      .ok (pageOf 0 + phys % 2 ^ 12, Fixmap.start.mapped 0 phys size prot) := by
  have hrun := freeRun_start hcount
  obtain ⟨first, -, hlowest, hmap⟩ := ioremapProt_lowest prot laid_start hsize hphys ⟨0, hrun⟩
  obtain rfl := Nat.le_zero.mp (hlowest 0 hrun)
  exact hmap

/-- The first `512 - k` slots are taken. -/
def leaving (k : ℕ) : Fixmap := Fixmap.start.mapped 0 0 (2 ^ 21 - 2 ^ 12 * k) PAGE_KERNEL

theorem pageCount_leaving {k : ℕ} (hk : k < 512) :
    pageCount 0 (2 ^ 21 - 2 ^ 12 * k) = 512 - k := by
  rw [pageCount, if_neg (by omega)]
  omega

theorem reachable_leaving {k : ℕ} (hk : k < 512) : (leaving k).Reachable := by
  have hrun := ioremapProt_start PAGE_KERNEL (show 2 ^ 21 - 2 ^ 12 * k ≠ 0 by omega)
    (show 0 + (2 ^ 21 - 2 ^ 12 * k) ≤ 2 ^ 52 by omega) (by rw [pageCount_leaving hk]; omega)
  exact .map .start (by decide) (by omega) hrun

theorem record_leaving {k : ℕ} (hk : k < 512) :
    (leaving k).record = Function.update (fun _ => none) 0 (some (512 - k)) := by
  rw [leaving, Fixmap.record_mapped _ _ _ _ (by decide), pageCount_leaving hk,
    Fixmap.record_start]

theorem laid_leaving {k : ℕ} (hk : k < 512) : Laid 512 (leaving k).record := by
  rw [record_leaving hk]
  refine laid_nil.record ⟨by omega, ?_⟩ (by omega)
  rintro slot - - ⟨first, len, hnone, -⟩
  cases hnone

/-- The free runs are those behind. -/
theorem freeRun_leaving {k a : ℕ} (hk : k < 512) (hcount : 0 < count) :
    FreeRun 512 (leaving k).record a count ↔ 512 - k ≤ a ∧ a + count ≤ 512 := by
  rw [record_leaving hk]
  constructor
  · intro hfree
    have hwithin := hfree.within
    refine ⟨?_, hwithin⟩
    by_contra hlt
    exact hfree.free a (Nat.le_refl _) (by omega)
      ⟨0, 512 - k, Function.update_self _ _ _, Nat.zero_le _, by omega⟩
  · rintro ⟨hle, hwithin⟩
    refine ⟨hwithin, fun slot hslot _ hcovers => ?_⟩
    obtain ⟨-, hlt⟩ := covers_of_update hcovers nofun
    omega

theorem findsFirst_start : FindsFirst Fixmap.start 1 :=
  (Fixmap.Reachable.start.findsFirst_iff (by decide)).mpr ⟨by decide, 0, freeRun_start (by decide)⟩

/-- With every slot taken, a scan for one reads behind the last entry. -/
theorem not_findsFirst_full : (leaving 0).Reachable ∧
    (∀ a, ¬ FreeRun TOTAL_FIX_BITMAPS (leaving 0).record a 1) ∧
    findFreeRange (leaving 0) 1 = .error .outOfBounds := by
  have hnone : ∀ a, ¬ FreeRun 512 (leaving 0).record a 1 := by
    intro a hfree
    obtain ⟨hle, hwithin⟩ := (freeRun_leaving (by decide) (by decide)).mp hfree
    omega
  refine ⟨reachable_leaving (by decide), hnone, findFreeRange_error ?_⟩
  exact freeRangeLoop_none (laid_leaving (by decide)) hnone scanned_zero (Nat.zero_le _)
    (show 513 - 0 ≤ 514 by decide) (Nat.zero_le _)

/-- One byte in the middle of a page, mapped and unmapped at boot. -/
theorem givenBack_start : ∃ virt s₁, memremap .start 0xA0001 1 = .ok (virt, s₁) ∧
    GivenBack .start s₁ virt 1 := by
  have hrun := ioremapProt_start PAGE_KERNEL (show 1 ≠ 0 by decide)
    (show 0xA0001 + 1 ≤ 2 ^ 52 by decide) (by decide)
  refine ⟨_, _, hrun, (Fixmap.Reachable.start.givenBack_iff (by decide) (by decide) hrun
    (by decide)).mpr ⟨fun hcut => absurd hcut (by decide), .inr ⟨0, by decide, ?_⟩⟩⟩
  exact freeRun_start (by decide)

/-- In the last slot the same byte stays mapped. -/
theorem not_givenBack_last : (leaving 1).Reachable ∧ ∃ virt s₁,
    memremap (leaving 1) 0xA0001 1 = .ok (virt, s₁) ∧ virt ≠ 0 ∧
      ¬ GivenBack (leaving 1) s₁ virt 1 := by
  have hlast : FreeRun 512 (leaving 1).record 511 (pageCount 0xA0001 1) :=
    (freeRun_leaving (by decide) (by decide)).mpr (by decide)
  obtain ⟨first, hfree, hlowest, hrun⟩ := ioremapProt_lowest PAGE_KERNEL
    (laid_leaving (k := 1) (by decide)) (show 1 ≠ 0 by decide)
    (show 0xA0001 + 1 ≤ 2 ^ 52 by decide)
    ⟨511, hlast⟩
  obtain ⟨hle, -⟩ := (freeRun_leaving (by decide) (by decide)).mp hfree
  obtain rfl : first = 511 := Nat.le_antisymm (hlowest 511 hlast) hle
  refine ⟨reachable_leaving (by decide), _, _, hrun, by decide, ?_⟩
  rintro ⟨s₂, hrun', hsame, -⟩
  have hstays := iounmap_span (s := (leaving 1).mapped 511 0xA0001 1 PAGE_KERNEL)
    (show 511 < 512 by decide) (show 1 ≠ 0 by decide) (by decide)
    (show 0xA0001 + 1 ≤ 2 ^ 52 by decide)
    (Function.update_self 511 _ (leaving 1).mapping)
  rw [if_pos (by decide)] at hstays
  obtain rfl := Except.ok.inj (hstays.symm.trans hrun')
  have hbefore : (leaving 1).mapping 511 = -1 :=
    mapping_of_freeRun (laid_leaving (by decide)) (by decide) hlast
  have hafter : ((leaving 1).mapped 511 0xA0001 1 PAGE_KERNEL).mapping 511 = 1 :=
    Function.update_self 511 _ (leaving 1).mapping
  exact absurd (hafter.symm.trans ((congrFun hsame 511).trans hbefore)) (by decide)

theorem limited_start : Limited .start 0xA0000 0x20000 PAGE_KERNEL :=
  (Fixmap.Reachable.start.limited_iff (by decide) (by decide)).mpr (.inl (by decide))

/-- A request for `2 ^ 32` pages is granted none, and no scan gets over the span of none. -/
theorem not_limited_large : ∃ s, memremap .start 0 (2 ^ 44) = .ok (pageOf 0, s) ∧
    s.mapping 0 = 0 ∧ (∀ turns, freeRangeLoop s 1 turns 0 0 0 = .error .stuck) ∧
    ¬ Limited .start 0 (2 ^ 44) PAGE_KERNEL := by
  have hcut : narrowed 0 (2 ^ 44) = 0 := by decide
  have hrun : ioremapProt .start 0 (2 ^ 44) PAGE_KERNEL =
      .ok (pageOf 0, { Fixmap.start with mapping := Function.update Fixmap.start.mapping 0 0 }) := by
    rw [ioremapProt_run (by decide) (by decide) (by decide), hcut, if_neg (by decide),
      findFreeRange_zero, ok_bind]
    dsimp only
    rw [mapLoop, ok_bind, virt_eq (show 0 < 512 by decide)]
    rfl
  have hzero : ({ Fixmap.start with
      mapping := Function.update Fixmap.start.mapping 0 0 } : Fixmap).mapping 0 = 0 := by
    exact Function.update_self 0 (0 : ℤ) Fixmap.start.mapping
  refine ⟨_, hrun, hzero, freeRangeLoop_stuck hzero (by decide), fun hlimited => ?_⟩
  have hnull := hlimited.null (by decide)
  rw [hrun] at hnull
  have hvirt := (Prod.mk.inj (Except.ok.inj hnull)).1
  exact absurd hvirt (by decide)

end Cyanea.Mm
