/-
# The page attribute table

The model of `arch/x86/ukernel/cache.c`. The PAT register gives each of its eight slots a
cache mode. `init_cache_modes` goes over the slots and enters each into two tables, one from
the modes to the page flags of a slot, the other from the slots to the modes. A mode that
several slots have keeps the entry that was made last.
-/

import Mathlib.Data.List.FinRange
import Cyanea.Math.Run
import Cyanea.Mm.Pgtable

namespace Cyanea.Mm

/-- `_PAGE_CACHE_MASK`. -/
def PAGE_CACHE_MASK : ℕ := 1 <<< PAGE_BIT_PWT ||| 1 <<< PAGE_BIT_PCD ||| 1 <<< PAGE_BIT_PAT

/-- `__pte2pat`: the entry of the PAT that the flags select. -/
def pte2pat (m : ℕ) : ℕ :=
  (m >>> (PAGE_BIT_PAT - 2)) &&& 4 ||| (m >>> (PAGE_BIT_PCD - 1)) &&& 2 |||
    (m >>> PAGE_BIT_PWT) &&& 1

theorem pte2pat_lt (m : ℕ) : pte2pat m < 8 := by
  have h4 : (m >>> (PAGE_BIT_PAT - 2)) &&& 4 < 2 ^ 3 := Nat.and_lt_two_pow _ (by decide)
  have h2 : (m >>> (PAGE_BIT_PCD - 1)) &&& 2 < 2 ^ 3 := Nat.and_lt_two_pow _ (by decide)
  have h1 : (m >>> PAGE_BIT_PWT) &&& 1 < 2 ^ 3 := Nat.and_lt_two_pow _ (by decide)
  exact Nat.or_lt_two_pow (Nat.or_lt_two_pow h4 h2) h1

/-- The tables `__cachemode_to_pte` and `__pat_idx_to_cachemode`. -/
structure CacheModes where
  cachemode_to_pte : CachemodeToPte
  pat_idx_to_cachemode : Fin 8 → PageCacheMode

/-- The tables in the image, for the setting of the PAT following a power up or reset. -/
def CacheModes.loaded : CacheModes where
  cachemode_to_pte
    | .WB => 0
    | .WT => 1
    | .UC_MINUS => 2
    | .UC => 3
    | .WC => 2
    | .WP => 2
  pat_idx_to_cachemode
    | 0 => .WB
    | 1 => .WT
    | 2 => .UC_MINUS
    | 3 => .UC
    | 4 => .WB
    | 5 => .WT
    | 6 => .UC_MINUS
    | 7 => .UC

def pgprot2cachemode (t : CacheModes) (pgprot : ℕ) : PageCacheMode :=
  let masked := pgprot &&& PAGE_CACHE_MASK
  if masked = 0 then .WB else t.pat_idx_to_cachemode ⟨pte2pat masked, pte2pat_lt masked⟩

/-- An assertion that fails logs its message and never returns. -/
def updateCacheModeEntry (t : CacheModes) (idx : Fin 8) (cache : PageCacheMode) :
    Except String CacheModes :=
  if idx = 0 ∧ cache ≠ .WB then
    .error "entry 0 must be WB (hardwired to speed up translations)."
  else
    .ok
      { cachemode_to_pte := Function.update t.cachemode_to_pte cache idx
        pat_idx_to_cachemode := Function.update t.pat_idx_to_cachemode idx cache }

/-- `pat_get_cache_mode`, with the four characters that it copies to `msg`. -/
def patGetCacheMode (pat_val : ℕ) : PageCacheMode × String :=
  match pat_val with
  | 0 => (.UC, "UC  ")
  | 1 => (.WC, "WC  ")
  | 4 => (.WT, "WT  ")
  | 5 => (.WP, "WP  ")
  | 6 => (.WB, "WB  ")
  | 7 => (.UC_MINUS, "UC- ")
  | _ => (.WB, "WB  ")

/-- The body of the loop of `init_cache_modes`, with the part of `pat_msg` that is written. -/
def initCacheMode (pat : ℕ) (s : CacheModes × String) (i : Fin 8) :
    Except String (CacheModes × String) := do
  let mode := patGetCacheMode ((pat >>> (i.val * 8)) &&& 7)
  let t ← updateCacheModeEntry s.1 i mode.1
  pure (t, s.2 ++ mode.2)

/-- `init_cache_modes`, with the line that it logs. -/
def initCacheModes (t : CacheModes) (pat : ℕ) : Except String (CacheModes × String) := do
  let s ← (List.finRange 8).foldlM (initCacheMode pat) (t, "")
  pure (s.1, "x86/PAT: Configuration [0-7]: " ++ s.2 ++ "\n")

/-- `X86_MEMTYPE_UC` and the others. -/
def x86Memtype : PageCacheMode → ℕ
  | .UC => 0
  | .WC => 1
  | .WT => 4
  | .WP => 5
  | .WB => 6
  | .UC_MINUS => 7

def PAT_VALUE (p0 p1 p2 p3 p4 p5 p6 p7 : PageCacheMode) : ℕ :=
  x86Memtype p0 ||| x86Memtype p1 <<< 8 ||| x86Memtype p2 <<< 16 ||| x86Memtype p3 <<< 24 |||
    x86Memtype p4 <<< 32 ||| x86Memtype p5 <<< 40 ||| x86Memtype p6 <<< 48 |||
    x86Memtype p7 <<< 56

/-- The value that `pat_bp_init` keeps in `pat_msr_val` and sets the tables up for. -/
def pat_msr_val : ℕ := PAT_VALUE .WB .WC .UC_MINUS .UC .WB .WP .UC_MINUS .WT

/-! ## What is asked for -/

/-- The cache mode that is programmed in a slot. -/
def slotMode (pat : ℕ) (i : Fin 8) : PageCacheMode :=
  (patGetCacheMode ((pat >>> (i.val * 8)) &&& 7)).1

/-- The tables hand out a cache mode of the PAT as its lowest slot, and lead back from it. -/
structure LowestSlots (pat : ℕ) (t : CacheModes) : Prop where
  same_mode : ∀ i, pgprot2cachemode t (cachemode2protval t.cachemode_to_pte (slotMode pat i)) =
    slotMode pat i
  lowest : ∀ i, (∀ j < i, slotMode pat j ≠ slotMode pat i) →
    cachemode2protval t.cachemode_to_pte (slotMode pat i) = idxPat2pte i
  upper_unused : ∀ i j k, i < j → slotMode pat i = slotMode pat j →
    cachemode2protval t.cachemode_to_pte (slotMode pat k) ≠ idxPat2pte j

/-! ## The pass over the slots -/

/-- The tables after the slots below `n`: the second has their modes, and the first leads
from each of these modes to the last slot below `n` that has it. -/
structure Entered (pat n : ℕ) (t : CacheModes) : Prop where
  slot : ∀ i : Fin 8, i < n → t.pat_idx_to_cachemode i = slotMode pat i
  mode : ∀ i : Fin 8, i < n → slotMode pat (t.cachemode_to_pte (slotMode pat i)) = slotMode pat i
  last : ∀ i : Fin 8, i < n → i ≤ t.cachemode_to_pte (slotMode pat i)

/-- The tables with one more slot entered. -/
def CacheModes.enter (t : CacheModes) (pat : ℕ) (i : Fin 8) : CacheModes where
  cachemode_to_pte := Function.update t.cachemode_to_pte (slotMode pat i) i
  pat_idx_to_cachemode := Function.update t.pat_idx_to_cachemode i (slotMode pat i)

theorem initCacheMode_eq {pat : ℕ} (h0 : slotMode pat 0 = .WB) (s : CacheModes × String)
    (i : Fin 8) : ∃ pat_msg, initCacheMode pat s i = .ok (s.1.enter pat i, pat_msg) := by
  have hassert : ¬ (i = 0 ∧ slotMode pat i ≠ .WB) := by
    rintro ⟨rfl, hne⟩
    exact hne h0
  refine ⟨s.2 ++ (patGetCacheMode ((pat >>> (i.val * 8)) &&& 7)).2, ?_⟩
  have hupdate : updateCacheModeEntry s.1 i (slotMode pat i) = .ok (s.1.enter pat i) :=
    if_neg hassert
  rw [initCacheMode]
  show (updateCacheModeEntry s.1 i (slotMode pat i) >>= _) = _
  rw [hupdate]
  rfl

theorem Entered.enter {pat : ℕ} {t : CacheModes} {i : Fin 8} (h : Entered pat i t) :
    Entered pat (i + 1) (t.enter pat i) := by
  have hbelow : ∀ j : Fin 8, j.val < i.val + 1 → j ≠ i → j.val < i.val := fun j hj hne =>
    Nat.lt_of_le_of_ne (Nat.le_of_lt_succ hj) fun heq => hne (Fin.ext heq)
  -- a mode other than the one entered keeps its entry, and was in a slot below
  have hcases : ∀ j : Fin 8, j.val < i.val + 1 →
      (slotMode pat j = slotMode pat i ∧ (t.enter pat i).cachemode_to_pte (slotMode pat j) = i) ∨
      (j.val < i.val ∧ (t.enter pat i).cachemode_to_pte (slotMode pat j) =
        t.cachemode_to_pte (slotMode pat j)) := by
    intro j hj
    by_cases hmode : slotMode pat j = slotMode pat i
    · refine .inl ⟨hmode, ?_⟩
      rw [hmode]
      exact Function.update_self _ _ _
    · refine .inr ⟨hbelow j hj ?_, Function.update_of_ne hmode _ _⟩
      rintro rfl
      exact hmode rfl
  constructor
  · intro j hj
    by_cases hji : j = i
    · subst hji
      exact Function.update_self _ _ _
    · exact (Function.update_of_ne hji _ _).trans (h.slot j (hbelow j hj hji))
  · intro j hj
    obtain ⟨hmode, hentry⟩ | ⟨hlt, hentry⟩ := hcases j hj
    · rw [hentry, hmode]
    · rw [hentry, h.mode j hlt]
  · intro j hj
    obtain ⟨-, hentry⟩ | ⟨hlt, hentry⟩ := hcases j hj
    · rw [hentry]
      exact Fin.le_def.mpr (Nat.le_of_lt_succ hj)
    · rw [hentry]
      exact h.last j hlt

/-- The pass ends, with all eight slots entered. -/
theorem initCacheModes_entered {pat : ℕ} (h0 : slotMode pat 0 = .WB) (t : CacheModes) :
    ∃ t' line, initCacheModes t pat = .ok (t', line) ∧ Entered pat 8 t' := by
  obtain ⟨s, hrun, hs⟩ := Math.foldlM_finRange (f := initCacheMode pat) (a := (t, ""))
    (I := fun n s => Entered pat n s.1) ⟨by simp, by simp, by simp⟩ (by
      intro i s hI
      obtain ⟨pat_msg, hstep⟩ := initCacheMode_eq h0 s i
      exact ⟨_, hstep, hI.enter⟩)
  refine ⟨s.1, "x86/PAT: Configuration [0-7]: " ++ s.2 ++ "\n", ?_, hs⟩
  rw [initCacheModes, hrun]
  rfl

/-! ## From the modes to the flags and back -/

theorem pte2pat_idxPat2pte : ∀ i : Fin 8,
    pte2pat (idxPat2pte i &&& PAGE_CACHE_MASK) = i := by decide

theorem idxPat2pte_masked_eq_zero : ∀ i : Fin 8,
    idxPat2pte i &&& PAGE_CACHE_MASK = 0 → i = 0 := by decide

theorem idxPat2pte_inj {i j : Fin 8} (h : idxPat2pte i = idxPat2pte j) : i = j := by
  have hi := pte2pat_idxPat2pte i
  rw [h, pte2pat_idxPat2pte j] at hi
  exact (Fin.ext hi).symm

/-- The flags of a slot lead back to the mode of the slot. -/
theorem pgprot2cachemode_idxPat2pte {t : CacheModes} (h0 : t.pat_idx_to_cachemode 0 = .WB)
    (i : Fin 8) : pgprot2cachemode t (idxPat2pte i) = t.pat_idx_to_cachemode i := by
  rw [pgprot2cachemode]
  split
  next hzero => rw [idxPat2pte_masked_eq_zero i hzero, h0]
  next => exact congrArg t.pat_idx_to_cachemode (Fin.ext (pte2pat_idxPat2pte i))

section Tables

variable {pat : ℕ} {t : CacheModes} (h : Entered pat 8 t) (h0 : slotMode pat 0 = .WB)
include h h0

/-- A mode of the PAT is handed out as slot 0 if it is write-back, and else as its last
slot. -/
theorem Entered.handed_out (i : Fin 8) :
    ∃ j : Fin 8, cachemode2protval t.cachemode_to_pte (slotMode pat i) = idxPat2pte j ∧
      slotMode pat j = slotMode pat i ∧ (slotMode pat i = .WB → j = 0) ∧
      (slotMode pat i ≠ .WB → ∀ k, slotMode pat k = slotMode pat i → k ≤ j) := by
  by_cases hWB : slotMode pat i = .WB
  · refine ⟨0, ?_, h0.trans hWB.symm, fun _ => rfl, fun hne => absurd hWB hne⟩
    rw [hWB]
    rfl
  · refine ⟨t.cachemode_to_pte (slotMode pat i), if_neg hWB, h.mode i i.isLt,
      fun heq => absurd heq hWB, fun _ k hk => ?_⟩
    rw [← hk]
    exact h.last k k.isLt

/-- The round trip, whatever slot is handed out. -/
theorem Entered.same_mode (i : Fin 8) :
    pgprot2cachemode t (cachemode2protval t.cachemode_to_pte (slotMode pat i)) =
      slotMode pat i := by
  obtain ⟨j, hj, hmode, -⟩ := h.handed_out h0 i
  have hslot0 : t.pat_idx_to_cachemode 0 = .WB := (h.slot 0 (by decide)).trans h0
  rw [hj, pgprot2cachemode_idxPat2pte hslot0, h.slot j j.isLt, hmode]

theorem Entered.lowestSlots_iff :
    LowestSlots pat t ↔ ∀ i j, slotMode pat i = slotMode pat j → slotMode pat i ≠ .WB → i = j := by
  constructor
  · intro hlow i j hij hWB
    obtain ⟨k, hk, hmode, -, hlast⟩ := h.handed_out h0 i
    -- a slot in front of the one handed out would make that one a duplicate
    have heq : ∀ l, slotMode pat l = slotMode pat i → l = k := fun l hl =>
      (hlast hWB l hl).eq_or_lt.resolve_right fun hlt =>
        hlow.upper_unused l k i hlt (hl.trans hmode.symm) hk
    exact (heq i rfl).trans (heq j hij.symm).symm
  · intro hdistinct
    refine ⟨h.same_mode h0, fun i hfirst => ?_, fun i j k hij hsame hout => ?_⟩
    · obtain ⟨j, hj, hmode, hzero, -⟩ := h.handed_out h0 i
      by_cases hWB : slotMode pat i = .WB
      · have hi : i = 0 := by
          by_contra hne
          exact hfirst 0 (Fin.pos_of_ne_zero hne) (h0.trans hWB.symm)
        rw [hj, hzero hWB, hi]
      · rw [hj, hdistinct i j hmode.symm hWB]
    · obtain ⟨l, hl, hmode, hzero, -⟩ := h.handed_out h0 k
      obtain rfl : j = l := idxPat2pte_inj (hout.symm.trans hl)
      by_cases hWB : slotMode pat k = .WB
      · rw [hzero hWB] at hij
        exact absurd hij (Fin.not_lt_zero i)
      · have hne : slotMode pat i ≠ .WB := fun heq => hWB (hmode.symm.trans (hsame.symm.trans heq))
        exact absurd (hdistinct i j hsame hne) (Fin.ne_of_lt hij)

end Tables

/-- The tables hand out the lowest slots exactly if the slots have different modes, those
with write-back left aside. -/
theorem initCacheModes_lowestSlots_iff (t : CacheModes) {pat : ℕ} (h0 : slotMode pat 0 = .WB) :
    ∃ t' line, initCacheModes t pat = .ok (t', line) ∧
      (LowestSlots pat t' ↔
        ∀ i j, slotMode pat i = slotMode pat j → slotMode pat i ≠ .WB → i = j) := by
  obtain ⟨t', line, hrun, hentered⟩ := initCacheModes_entered h0 t
  exact ⟨t', line, hrun, hentered.lowestSlots_iff h0⟩

/-- The setting following a power up, with its upper half replaced. -/
theorem initCacheModes_lowestSlots_iff_distinct :
    ∃ t' line, initCacheModes .loaded (PAT_VALUE .WB .WT .UC_MINUS .UC .WB .WP .WC .WB) =
        .ok (t', line) ∧ LowestSlots (PAT_VALUE .WB .WT .UC_MINUS .UC .WB .WP .WC .WB) t' := by
  obtain ⟨t', line, hrun, hiff⟩ := @initCacheModes_lowestSlots_iff .loaded
    (PAT_VALUE .WB .WT .UC_MINUS .UC .WB .WP .WC .WB) (by decide)
  exact ⟨t', line, hrun, hiff.mpr (by decide)⟩

/-- With the value that the kernel programs, `UC_MINUS` is handed out as slot 6, not 2. -/
theorem not_lowestSlots_pat_msr_val :
    slotMode pat_msr_val 0 = .WB ∧ slotMode pat_msr_val 2 = .UC_MINUS ∧
      ∃ t' line, initCacheModes .loaded pat_msr_val = .ok (t', line) ∧
        cachemode2protval t'.cachemode_to_pte .UC_MINUS = idxPat2pte 6 ∧
        idxPat2pte 6 &&& PAGE_PSE ≠ 0 ∧ ¬ LowestSlots pat_msr_val t' := by
  have h0 : slotMode pat_msr_val 0 = .WB := by decide
  have h2 : slotMode pat_msr_val 2 = .UC_MINUS := by decide
  have h6 : slotMode pat_msr_val 6 = slotMode pat_msr_val 2 := by decide
  have hlast : ∀ j, slotMode pat_msr_val j = slotMode pat_msr_val 2 → 6 ≤ j → j = 6 := by decide
  obtain ⟨t', line, hrun, hentered⟩ := initCacheModes_entered h0 .loaded
  obtain ⟨j, hj, hmode, -, hle⟩ := hentered.handed_out h0 2
  have hne : slotMode pat_msr_val 2 ≠ .WB := by decide
  rw [hlast j hmode (hle hne 6 h6)] at hj
  refine ⟨h0, h2, t', line, hrun, h2 ▸ hj, by decide, fun hlow => ?_⟩
  exact hlow.upper_unused 2 6 2 (by decide) h6.symm hj

end Cyanea.Mm
