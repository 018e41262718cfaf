/-
# The ranges that are mapped

`init_range_memory_mapping` walks the page frames of the memory and maps each range that
the walk yields, in up to five pieces: with pages of 1 GiB in the middle, with pages of
2 MiB around these, and with pages of 4 KiB at both ends. The pieces leave no frame of the
range out, and use a large page wherever one fits, but the walk leaves some out: a frame that
several regions share is in none of its ranges.
-/

import Cyanea.Memory.Effects
import Cyanea.Memory.Frames
import Cyanea.Mm.Pgtable

namespace Cyanea.Mm

open Cyanea.Math.Simulation (ok_bind)
open Memory (Memblock MemblockRegion Fault PfnRange Walks Listed alignKernel roundUp roundDown
  roundUp_eq roundDown_eq pfnDown pfnDown_eq forEachMemPfnRange clamp tableOf live_tableOf
  eightPages memblockReserve MEMBLOCK_NONE MEMBLOCK_RESERVED)

/-- `PFN_PHYS(x)`. -/
def pfnPhys (x : ℕ) : ℕ := (x <<< Memory.PAGE_SHIFT) % 2 ^ 64

/-- A call of `physical_mapping_init`. -/
structure MappingCall where
  start : ℕ
  rangeEnd : ℕ
  ps : PageSize
  deriving DecidableEq, Repr

/-- `pfn`, and the calls made so far. -/
structure Progress where
  pfn : ℕ
  calls : List MappingCall

/-- `if (start_pfn < end_pfn) { physical_mapping_init(…); pfn = end_pfn; }` -/
def mapPiece (start_pfn end_pfn : ℕ) (ps : PageSize) (s : Progress) : Progress :=
  if start_pfn < end_pfn then
    ⟨end_pfn, s.calls ++ [⟨pfnPhys start_pfn, pfnPhys end_pfn, ps⟩]⟩
  else s

/-- `ROUND_UP(pfn, PFN_DOWN(PMD_SIZE))`. -/
def pmdUp (pfn : ℕ) : ℕ := roundUp pfn (pfnDown PMD_SIZE)

/-- `ROUND_DOWN(pfn, PFN_DOWN(PMD_SIZE))`. -/
def pmdDown (pfn : ℕ) : ℕ := roundDown pfn (pfnDown PMD_SIZE)

/-- `ROUND_UP(pfn, PFN_DOWN(PUD_SIZE))`. -/
def pudUp (pfn : ℕ) : ℕ := roundUp pfn (pfnDown PUD_SIZE)

/-- `ROUND_DOWN(pfn, PFN_DOWN(PUD_SIZE))`. -/
def pudDown (pfn : ℕ) : ℕ := roundDown pfn (pfnDown PUD_SIZE)

/-- 4 KiB mapping to the next multiple of 2 MiB. -/
def headPages (limit_pfn : ℕ) (s : Progress) : Progress :=
  mapPiece s.pfn (min (pmdUp s.pfn) limit_pfn) .PAGE_SIZE_4K s

/-- 2 MiB mapping to the next multiple of 1 GiB. -/
def headLarge (limit_pfn : ℕ) (s : Progress) : Progress :=
  mapPiece (pmdUp s.pfn) (min (pudUp s.pfn) (pmdDown limit_pfn)) .PAGE_SIZE_2M s

/-- 1 GiB mapping as much as possible. -/
def huge (limit_pfn : ℕ) (s : Progress) : Progress :=
  mapPiece (pudUp s.pfn) (pudDown limit_pfn) .PAGE_SIZE_1G s

/-- 2 MiB mapping as much as possible. -/
def tailLarge (limit_pfn : ℕ) (s : Progress) : Progress :=
  mapPiece (pmdUp s.pfn) (pmdDown limit_pfn) .PAGE_SIZE_2M s

/-- 4 KiB mapping until the end. -/
def tailPages (limit_pfn : ℕ) (s : Progress) : Progress :=
  mapPiece s.pfn limit_pfn .PAGE_SIZE_4K s

/-- The pieces of the range `[start, rangeEnd)`. -/
def mapRange (start rangeEnd : ℕ) : Progress :=
  tailPages (pfnDown rangeEnd) (tailLarge (pfnDown rangeEnd) (huge (pfnDown rangeEnd)
    (headLarge (pfnDown rangeEnd) (headPages (pfnDown rangeEnd) ⟨pfnDown start, []⟩))))

/-- `max_pfn_mapped` and `max_low_pfn_mapped`. -/
structure Mapped where
  max_pfn_mapped : ℕ
  max_low_pfn_mapped : ℕ
  deriving DecidableEq, Repr

def addRangeMapped (start_pfn end_pfn : ℕ) (s : Mapped) : Mapped where
  max_pfn_mapped := max s.max_pfn_mapped end_pfn
  max_low_pfn_mapped :=
    if start_pfn < 1 <<< (32 - Memory.PAGE_SHIFT) then
      max s.max_low_pfn_mapped (min end_pfn (1 <<< (32 - Memory.PAGE_SHIFT)))
    else s.max_low_pfn_mapped

/-- The body of the loop for one range. -/
def mapTurn (range_start range_end : ℕ) (s : List MappingCall × Mapped) (r : PfnRange) :
    List MappingCall × Mapped :=
  let start := clamp (pfnPhys r.start_pfn) range_start range_end
  let rangeEnd := clamp (pfnPhys r.end_pfn) range_start range_end
  if rangeEnd ≤ start then s
  else
    (s.1 ++ (mapRange start rangeEnd).calls,
      addRangeMapped (start >>> Memory.PAGE_SHIFT) (rangeEnd >>> Memory.PAGE_SHIFT) s.2)

/-- `init_range_memory_mapping`: the calls it makes, and the highest frames it has mapped. -/
def initRangeMemoryMapping (m : Memblock) (range_start range_end : ℕ) (s : Mapped) :
    Except Fault (List MappingCall × Mapped) := do
  let ranges ← forEachMemPfnRange m (-1) (m.n + 1) (-1)
  return ranges.foldl (mapTurn range_start range_end) ([], s)

/-! ## The pieces of a range -/

/-- The call is to map the page frame. -/
def MappingCall.Has (c : MappingCall) (f : ℕ) : Prop :=
  c.start ≤ f * 4096 ∧ f * 4096 + 4096 ≤ c.rangeEnd

/-- The calls so far are to map the frames from `a` up to `pfn`. -/
structure Tiles (a : ℕ) (s : Progress) : Prop where
  le : a ≤ s.pfn
  has_iff : ∀ f, (∃ c ∈ s.calls, c.Has f) ↔ a ≤ f ∧ f < s.pfn

theorem pfnPhys_eq {x : ℕ} (hx : x < 2 ^ 52) : pfnPhys x = x * 4096 := by
  rw [pfnPhys, Nat.shiftLeft_eq]
  exact Nat.mod_eq_of_lt (by rw [Memory.PAGE_SHIFT]; omega)

theorem mapPiece_pfn (b e : ℕ) (ps : PageSize) (s : Progress) :
    (mapPiece b e ps s).pfn = if b < e then e else s.pfn := by
  rw [mapPiece]
  split <;> rfl

/-- A piece that starts where the last one ended. -/
theorem Tiles.mapPiece {a b e : ℕ} {ps : PageSize} {s : Progress} (h : Tiles a s)
    (hb : b < e → b = s.pfn) (he : e < 2 ^ 52) : Tiles a (mapPiece b e ps s) := by
  rw [Mm.mapPiece]
  split
  · rename_i hlt
    obtain rfl := hb hlt
    refine ⟨h.le.trans hlt.le, fun f => ?_⟩
    have hcall : (∃ c ∈ [(⟨pfnPhys s.pfn, pfnPhys e, ps⟩ : MappingCall)], c.Has f) ↔
        s.pfn ≤ f ∧ f < e := by
      simp only [List.mem_singleton, exists_eq_left, MappingCall.Has, pfnPhys_eq he,
        pfnPhys_eq (hlt.trans he)]
      omega
    have hle := h.le
    simp only [List.mem_append, or_and_right, exists_or, h.has_iff f, hcall]
    omega
  · exact h

theorem pfnDown_sizes : pfnDown PMD_SIZE = 2 ^ 9 ∧ pfnDown PUD_SIZE = 2 ^ 18 := by
  decide

theorem tiles_nil (a : ℕ) : Tiles a ⟨a, []⟩ := by
  refine ⟨le_rfl, fun f => iff_of_false ?_ ?_⟩
  · rintro ⟨c, hc, -⟩
    exact List.not_mem_nil hc
  · rintro ⟨hle, hlt⟩
    exact absurd hle (not_le.mpr hlt)

section Pieces

variable {a b x : ℕ} {s : Progress}

theorem pmdUp_spec (hx : x < 2 ^ 52) :
    x ≤ pmdUp x ∧ pmdUp x < x + 512 ∧ pmdUp x % 512 = 0 := by
  rw [pmdUp, pfnDown_sizes.1, roundUp_eq (by decide) (by omega)]
  omega

theorem pmdDown_spec (hx : x < 2 ^ 52) :
    pmdDown x ≤ x ∧ x < pmdDown x + 512 ∧ pmdDown x % 512 = 0 := by
  rw [pmdDown, pfnDown_sizes.1, roundDown_eq (by decide) (by omega)]
  omega

theorem pudUp_spec (hx : x < 2 ^ 52) :
    x ≤ pudUp x ∧ pudUp x < x + 262144 ∧ pudUp x % 262144 = 0 := by
  rw [pudUp, pfnDown_sizes.2, roundUp_eq (by decide) (by omega)]
  omega

theorem pudDown_spec (hx : x < 2 ^ 52) :
    pudDown x ≤ x ∧ x < pudDown x + 262144 ∧ pudDown x % 262144 = 0 := by
  rw [pudDown, pfnDown_sizes.2, roundDown_eq (by decide) (by omega)]
  omega

/-- Between two pieces: there is nothing left, or the next large page can start. -/
structure Between (a b : ℕ) (s : Progress) : Prop where
  tiles : Tiles a s
  le : s.pfn ≤ b
  aligned : s.pfn = b ∨ s.pfn % 512 = 0

theorem Between.headPages (hb : b < 2 ^ 52) (hab : a ≤ b) :
    Between a b (headPages b ⟨a, []⟩) := by
  obtain ⟨hup, -, haligned⟩ := pmdUp_spec (show a < 2 ^ 52 by omega)
  have hpfn := mapPiece_pfn a (min (pmdUp a) b) .PAGE_SIZE_4K ⟨a, []⟩
  have hle := min_le_right (pmdUp a) b
  have hchoice := min_choice (pmdUp a) b
  show Between a b (mapPiece a (min (pmdUp a) b) .PAGE_SIZE_4K ⟨a, []⟩)
  generalize min (pmdUp a) b = e at hpfn hle hchoice ⊢
  dsimp only at hpfn
  refine ⟨(tiles_nil a).mapPiece (fun _ => rfl) (by omega), ?_, ?_⟩
  · split at hpfn <;> omega
  · split at hpfn <;> omega

/-- What is left for pages of 1 GiB starts at one of them. -/
theorem Between.headLarge (hb : b < 2 ^ 52) (h : Between a b s) :
    Between a b (headLarge b s) ∧ ((headLarge b s).pfn = b ∨ (headLarge b s).pfn % 262144 = 0 ∨
      pmdDown b ≤ (headLarge b s).pfn) := by
  obtain ⟨htiles, hle, haligned⟩ := h
  obtain ⟨hup, hup_lt, hup_aligned⟩ := pmdUp_spec (show s.pfn < 2 ^ 52 by omega)
  obtain ⟨hpud, -, hpud_aligned⟩ := pudUp_spec (show s.pfn < 2 ^ 52 by omega)
  obtain ⟨hdown, -, hdown_aligned⟩ := pmdDown_spec hb
  have hpfn := mapPiece_pfn (pmdUp s.pfn) (min (pudUp s.pfn) (pmdDown b)) .PAGE_SIZE_2M s
  have hle_left := min_le_left (pudUp s.pfn) (pmdDown b)
  have hle_right := min_le_right (pudUp s.pfn) (pmdDown b)
  have hchoice := min_choice (pudUp s.pfn) (pmdDown b)
  rw [Mm.headLarge]
  generalize min (pudUp s.pfn) (pmdDown b) = e at hpfn hle_left hle_right hchoice ⊢
  have hstart : pmdUp s.pfn < e → pmdUp s.pfn = s.pfn := by omega
  refine ⟨⟨htiles.mapPiece hstart (by omega), ?_, ?_⟩, ?_⟩
  · split at hpfn <;> omega
  · split at hpfn <;> omega
  · split at hpfn <;> omega

theorem Between.huge (hb : b < 2 ^ 52) (h : Between a b s)
    (hnext : s.pfn = b ∨ s.pfn % 262144 = 0 ∨ pmdDown b ≤ s.pfn) : Between a b (huge b s) := by
  obtain ⟨htiles, hle, haligned⟩ := h
  obtain ⟨hup, hup_lt, hup_aligned⟩ := pudUp_spec (show s.pfn < 2 ^ 52 by omega)
  obtain ⟨hdown, hdown_lt, hdown_aligned⟩ := pudDown_spec hb
  obtain ⟨hpmd, hpmd_lt, hpmd_aligned⟩ := pmdDown_spec hb
  have hpfn := mapPiece_pfn (pudUp s.pfn) (pudDown b) .PAGE_SIZE_1G s
  rw [← Mm.huge] at hpfn
  have hstart : pudUp s.pfn < pudDown b → pudUp s.pfn = s.pfn := by omega
  refine ⟨htiles.mapPiece hstart (by omega), ?_, ?_⟩
  · split at hpfn <;> omega
  · split at hpfn <;> omega

theorem Between.tailLarge (hb : b < 2 ^ 52) (h : Between a b s) :
    Between a b (tailLarge b s) := by
  obtain ⟨htiles, hle, haligned⟩ := h
  obtain ⟨hup, hup_lt, hup_aligned⟩ := pmdUp_spec (show s.pfn < 2 ^ 52 by omega)
  obtain ⟨hdown, hdown_lt, hdown_aligned⟩ := pmdDown_spec hb
  have hpfn := mapPiece_pfn (pmdUp s.pfn) (pmdDown b) .PAGE_SIZE_2M s
  rw [← Mm.tailLarge] at hpfn
  have hstart : pmdUp s.pfn < pmdDown b → pmdUp s.pfn = s.pfn := by omega
  refine ⟨htiles.mapPiece hstart (by omega), ?_, ?_⟩
  · split at hpfn <;> omega
  · split at hpfn <;> omega

/-- What is left for the last piece has no large page in it. -/
theorem Between.le_tailLarge (hb : b < 2 ^ 52) (h : Between a b s) :
    pmdDown b ≤ (Mm.tailLarge b s).pfn := by
  obtain ⟨-, hle, haligned⟩ := h
  obtain ⟨hup, hup_lt, hup_aligned⟩ := pmdUp_spec (show s.pfn < 2 ^ 52 by omega)
  obtain ⟨hdown, -, -⟩ := pmdDown_spec hb
  rw [Mm.tailLarge, mapPiece_pfn]
  split <;> omega

/-- The last piece takes what is left. -/
theorem Between.tailPages (hb : b < 2 ^ 52) (h : Between a b s) :
    Tiles a (tailPages b s) ∧ (tailPages b s).pfn = b := by
  refine ⟨h.tiles.mapPiece (fun _ => rfl) hb, ?_⟩
  have hle := h.le
  rw [Mm.tailPages, mapPiece_pfn]
  split <;> omega

end Pieces

/-- The pieces of a range make up its frames. -/
theorem mapRange_has_iff {start rangeEnd : ℕ} (hle : start ≤ rangeEnd) (hend : rangeEnd < 2 ^ 64)
    (f : ℕ) : (∃ c ∈ (mapRange start rangeEnd).calls, c.Has f) ↔
      pfnDown start ≤ f ∧ f < pfnDown rangeEnd := by
  have hstart := pfnDown_eq (hle.trans_lt hend)
  have hlimit := pfnDown_eq hend
  have hab : pfnDown start ≤ pfnDown rangeEnd := by omega
  have hb : pfnDown rangeEnd < 2 ^ 52 := by omega
  obtain ⟨hlarge, hnext⟩ := (Between.headPages hb hab).headLarge hb
  obtain ⟨htiles, hpfn⟩ := ((hlarge.huge hb hnext).tailLarge hb).tailPages hb
  rw [mapRange, htiles.has_iff, hpfn]

theorem mapRange_has {a b : ℕ} (hab : a ≤ b) (hb : b < 2 ^ 52) (f : ℕ) :
    (∃ c ∈ (mapRange (a * 4096) (b * 4096)).calls, c.Has f) ↔ a ≤ f ∧ f < b := by
  have hstart : pfnDown (a * 4096) = a := by
    rw [pfnDown_eq (by omega)]
    omega
  have hlimit : pfnDown (b * 4096) = b := by
    rw [pfnDown_eq (by omega)]
    omega
  rw [mapRange_has_iff (by omega) (by omega), hstart, hlimit]

/-! ## Large pages -/

/-- A piece of the frames from `a` up to `b`: large pages start and end at one, and small
pages are left for the frames around these only. -/
def Fits (a b : ℕ) (c : MappingCall) : Prop :=
  match c.ps with
  | .PAGE_SIZE_4K => c.rangeEnd ≤ pmdUp a * 4096 ∨ pmdDown b * 4096 ≤ c.start
  | .PAGE_SIZE_2M => c.start % PMD_SIZE = 0 ∧ c.rangeEnd % PMD_SIZE = 0
  | .PAGE_SIZE_1G => c.start % PUD_SIZE = 0 ∧ c.rangeEnd % PUD_SIZE = 0

/-- The calls so far ascend, and fit. -/
structure Ascends (a b : ℕ) (s : Progress) : Prop where
  whole : ∀ c ∈ s.calls, c.start % 4096 = 0 ∧ c.rangeEnd % 4096 = 0
  nonempty : ∀ c ∈ s.calls, c.start < c.rangeEnd
  below : ∀ c ∈ s.calls, c.rangeEnd ≤ s.pfn * 4096
  ascending : s.calls.Pairwise (fun c c' => c.rangeEnd ≤ c'.start)
  fits : ∀ c ∈ s.calls, Fits a b c

theorem ascends_nil (a b : ℕ) (pfn : ℕ) : Ascends a b ⟨pfn, []⟩ :=
  ⟨nofun, nofun, nofun, List.Pairwise.nil, nofun⟩

theorem mapPiece_length_le (b e : ℕ) (ps : PageSize) (s : Progress) :
    (mapPiece b e ps s).calls.length ≤ s.calls.length + 1 := by
  rw [mapPiece]
  split
  · exact List.length_append.le
  · exact Nat.le_succ _

theorem mapRange_length_le (start rangeEnd : ℕ) :
    (mapRange start rangeEnd).calls.length ≤ 5 := by
  rw [mapRange]
  refine (mapPiece_length_le _ _ _ _).trans (Nat.succ_le_succ ?_)
  refine (mapPiece_length_le _ _ _ _).trans (Nat.succ_le_succ ?_)
  refine (mapPiece_length_le _ _ _ _).trans (Nat.succ_le_succ ?_)
  refine (mapPiece_length_le _ _ _ _).trans (Nat.succ_le_succ ?_)
  exact mapPiece_length_le _ _ _ _

section Ascends

variable {a b : ℕ} {s : Progress}

/-- A piece behind the others. -/
theorem Ascends.mapPiece {x e : ℕ} {ps : PageSize} (h : Ascends a b s) (hx : s.pfn ≤ x)
    (he : e < 2 ^ 52) (hfits : x < e → Fits a b ⟨x * 4096, e * 4096, ps⟩) :
    Ascends a b (mapPiece x e ps s) := by
  rw [Mm.mapPiece]
  split
  · rename_i hlt
    rw [pfnPhys_eq he, pfnPhys_eq (hlt.trans he)]
    have hlast {P : MappingCall → Prop} (hall : ∀ c ∈ s.calls, P c)
        (hnew : P ⟨x * 4096, e * 4096, ps⟩) :
        ∀ c ∈ s.calls ++ [⟨x * 4096, e * 4096, ps⟩], P c := by
      intro c hc
      obtain hc | hc := List.mem_append.mp hc
      · exact hall c hc
      · exact List.mem_singleton.mp hc ▸ hnew
    refine ⟨hlast h.whole ⟨Nat.mul_mod_left _ _, Nat.mul_mod_left _ _⟩, hlast h.nonempty ?_,
      hlast (fun c hc => (h.below c hc).trans ?_) le_rfl, ?_, hlast h.fits (hfits hlt)⟩
    · exact Nat.mul_lt_mul_of_pos_right hlt (by decide)
    · exact Nat.mul_le_mul_right _ (hx.trans hlt.le)
    · refine List.pairwise_append.mpr ⟨h.ascending, List.pairwise_singleton _ _, ?_⟩
      intro c hc c' hc'
      rw [List.mem_singleton.mp hc']
      exact (h.below c hc).trans (Nat.mul_le_mul_right _ hx)
  · exact h

theorem fits_pmd {x e : ℕ} (hx : x % 512 = 0) (he : e % 512 = 0) :
    Fits a b ⟨x * 4096, e * 4096, .PAGE_SIZE_2M⟩ := by
  have hsize : PMD_SIZE = 2097152 := rfl
  show x * 4096 % PMD_SIZE = 0 ∧ e * 4096 % PMD_SIZE = 0
  rw [hsize]
  omega

theorem fits_pud {x e : ℕ} (hx : x % 262144 = 0) (he : e % 262144 = 0) :
    Fits a b ⟨x * 4096, e * 4096, .PAGE_SIZE_1G⟩ := by
  have hsize : PUD_SIZE = 1073741824 := rfl
  show x * 4096 % PUD_SIZE = 0 ∧ e * 4096 % PUD_SIZE = 0
  rw [hsize]
  omega

theorem Ascends.headPages (hb : b < 2 ^ 52) : Ascends a b (headPages b ⟨a, []⟩) := by
  refine (ascends_nil a b a).mapPiece le_rfl ((min_le_right _ _).trans_lt hb) fun _ => ?_
  exact .inl (Nat.mul_le_mul_right _ (min_le_left _ _))

theorem Ascends.headLarge (hb : b < 2 ^ 52) (h : Ascends a b s) (hle : s.pfn ≤ b) :
    Ascends a b (headLarge b s) := by
  obtain ⟨hup, -, haligned⟩ := pmdUp_spec (hle.trans_lt hb)
  obtain ⟨-, -, hpud⟩ := pudUp_spec (hle.trans_lt hb)
  obtain ⟨hdown, -, hpmd⟩ := pmdDown_spec hb
  have hchoice := min_choice (pudUp s.pfn) (pmdDown b)
  have hend := min_le_right (pudUp s.pfn) (pmdDown b)
  refine h.mapPiece hup (by omega) fun _ => fits_pmd haligned ?_
  generalize min (pudUp s.pfn) (pmdDown b) = e at hchoice ⊢
  omega

theorem Ascends.huge (hb : b < 2 ^ 52) (h : Ascends a b s) (hle : s.pfn ≤ b) :
    Ascends a b (huge b s) := by
  obtain ⟨hup, -, haligned⟩ := pudUp_spec (hle.trans_lt hb)
  obtain ⟨hdown, -, hpud⟩ := pudDown_spec hb
  exact h.mapPiece hup (hdown.trans_lt hb) fun _ => fits_pud haligned hpud

theorem Ascends.tailLarge (hb : b < 2 ^ 52) (h : Ascends a b s) (hle : s.pfn ≤ b) :
    Ascends a b (tailLarge b s) := by
  obtain ⟨hup, -, haligned⟩ := pmdUp_spec (hle.trans_lt hb)
  obtain ⟨hdown, -, hpmd⟩ := pmdDown_spec hb
  exact h.mapPiece hup (hdown.trans_lt hb) fun _ => fits_pmd haligned hpmd

theorem Ascends.tailPages (hb : b < 2 ^ 52) (h : Ascends a b s) (hle : pmdDown b ≤ s.pfn) :
    Ascends a b (tailPages b s) :=
  h.mapPiece le_rfl hb fun _ => .inr (Nat.mul_le_mul_right _ hle)

end Ascends

theorem mapRange_ascends {start rangeEnd : ℕ} (hle : start ≤ rangeEnd)
    (hend : rangeEnd < 2 ^ 64) :
    Ascends (pfnDown start) (pfnDown rangeEnd) (mapRange start rangeEnd) := by
  have hstart := pfnDown_eq (hle.trans_lt hend)
  have hlimit := pfnDown_eq hend
  have hab : pfnDown start ≤ pfnDown rangeEnd := by omega
  have hb : pfnDown rangeEnd < 2 ^ 52 := by omega
  have hhead := Between.headPages hb hab
  obtain ⟨hlarge, hnext⟩ := hhead.headLarge hb
  have hhuge := hlarge.huge hb hnext
  rw [mapRange]
  exact ((((Ascends.headPages hb).headLarge hb hhead.le).huge hb hlarge.le).tailLarge hb
    hhuge.le).tailPages hb (hhuge.le_tailLarge hb)

/-- The calls map `[start, rangeEnd)` page by page, in ascending order, and with large pages
where one fits. -/
structure Pieces (start rangeEnd : ℕ) (calls : List MappingCall) : Prop where
  length_le : calls.length ≤ 5
  nonempty : ∀ c ∈ calls, c.start < c.rangeEnd
  ascending : calls.Pairwise (fun c c' => c.rangeEnd ≤ c'.start)
  union : ∀ x, (∃ c ∈ calls, c.start ≤ x ∧ x < c.rangeEnd) ↔
    pfnDown start ≤ x / 4096 ∧ x / 4096 < pfnDown rangeEnd
  pmd_aligned : ∀ c ∈ calls, c.ps = .PAGE_SIZE_2M →
    c.start % PMD_SIZE = 0 ∧ c.rangeEnd % PMD_SIZE = 0
  pud_aligned : ∀ c ∈ calls, c.ps = .PAGE_SIZE_1G →
    c.start % PUD_SIZE = 0 ∧ c.rangeEnd % PUD_SIZE = 0
  large : ∀ x, x % PMD_SIZE = 0 → pfnDown start * 4096 ≤ x →
    x + PMD_SIZE ≤ pfnDown rangeEnd * 4096 →
      ∃ c ∈ calls, c.ps ≠ .PAGE_SIZE_4K ∧ c.start ≤ x ∧ x + PMD_SIZE ≤ c.rangeEnd

/-- Between whole pages, a byte is in a call with its page. -/
theorem Ascends.has_iff {a b : ℕ} {s : Progress} (h : Ascends a b s) {c : MappingCall}
    (hc : c ∈ s.calls) (x : ℕ) : c.start ≤ x ∧ x < c.rangeEnd ↔ c.Has (x / 4096) := by
  obtain ⟨hstart, hend⟩ := h.whole c hc
  rw [MappingCall.Has]
  omega

theorem mapRange_pieces {start rangeEnd : ℕ} (hlt : start < rangeEnd) (hend : rangeEnd < 2 ^ 64) :
    Pieces start rangeEnd (mapRange start rangeEnd).calls := by
  have hascends := mapRange_ascends hlt.le hend
  have hunion : ∀ x, (∃ c ∈ (mapRange start rangeEnd).calls, c.start ≤ x ∧ x < c.rangeEnd) ↔
      pfnDown start ≤ x / 4096 ∧ x / 4096 < pfnDown rangeEnd := by
    intro x
    rw [← mapRange_has_iff hlt.le hend]
    exact exists_congr fun c => and_congr_right fun hc => hascends.has_iff hc x
  refine ⟨mapRange_length_le _ _, hascends.nonempty, hascends.ascending, hunion, ?_, ?_, ?_⟩
  · intro c hc hps
    have hfits := hascends.fits c hc
    rwa [Fits, hps] at hfits
  · intro c hc hps
    have hfits := hascends.fits c hc
    rwa [Fits, hps] at hfits
  · intro x hx hstart hle
    have ha := pfnDown_eq (hlt.trans hend)
    have hb := pfnDown_eq hend
    have hpmd : PMD_SIZE = 2097152 := rfl
    have hpud : PUD_SIZE = 1073741824 := rfl
    rw [hpmd] at hx hle ⊢
    have ha_lt : pfnDown start < 2 ^ 52 := by omega
    have hb_lt : pfnDown rangeEnd < 2 ^ 52 := by omega
    obtain ⟨hup, hup_lt, hup_aligned⟩ := pmdUp_spec ha_lt
    obtain ⟨hdown, hdown_lt, hdown_aligned⟩ := pmdDown_spec hb_lt
    obtain ⟨c, hc, hcx, hxc⟩ := (hunion x).mpr (by omega)
    have hfits := hascends.fits c hc
    refine ⟨c, hc, ?_⟩
    rw [Fits] at hfits
    cases hps : c.ps with
    | PAGE_SIZE_4K =>
        rw [hps] at hfits
        dsimp only at hfits
        omega
    | PAGE_SIZE_2M =>
        rw [hps] at hfits
        dsimp only at hfits
        rw [hpmd] at hfits
        exact ⟨nofun, hcx, by omega⟩
    | PAGE_SIZE_1G =>
        rw [hps] at hfits
        dsimp only at hfits
        rw [hpud] at hfits
        exact ⟨nofun, hcx, by omega⟩

/-- A range that has pages of all three sizes, and small pages at both ends. -/
theorem pieces_allSizes : Pieces 4096 (2 ^ 31 + 2 ^ 21 + 4096)
    (mapRange 4096 (2 ^ 31 + 2 ^ 21 + 4096)).calls :=
  mapRange_pieces (by decide) (by decide)

/-! ## All ranges -/

section Ranges

variable {m : Memblock} {l : List PfnRange}

/-- The calls for one range of the walk. -/
def rangeCalls (range_start range_end : ℕ) (r : PfnRange) : List MappingCall :=
  if clamp (pfnPhys r.end_pfn) range_start range_end ≤
      clamp (pfnPhys r.start_pfn) range_start range_end then []
  else
    (mapRange (clamp (pfnPhys r.start_pfn) range_start range_end)
      (clamp (pfnPhys r.end_pfn) range_start range_end)).calls

theorem mapTurn_calls (range_start range_end : ℕ) (s : List MappingCall × Mapped) (r : PfnRange) :
    (mapTurn range_start range_end s r).1 = s.1 ++ rangeCalls range_start range_end r := by
  rw [rangeCalls, mapTurn]
  split
  · rw [List.append_nil]
  · rfl

theorem foldl_mapTurn (range_start range_end : ℕ) (s : List MappingCall × Mapped) :
    (l.foldl (mapTurn range_start range_end) s).1 =
      s.1 ++ l.flatMap (rangeCalls range_start range_end) := by
  induction l generalizing s with
  | nil => rw [List.foldl_nil, List.flatMap_nil, List.append_nil]
  | cons r l ih =>
      rw [List.foldl_cons, ih, mapTurn_calls, List.flatMap_cons, List.append_assoc]

/-- Without bounds of its own, the calls for a range are those for its frames. -/
theorem rangeCalls_eq {r : PfnRange} (hlt : r.start_pfn < r.end_pfn) (hend : r.end_pfn < 2 ^ 52) :
    rangeCalls 0 (2 ^ 64 - 1) r = (mapRange (r.start_pfn * 4096) (r.end_pfn * 4096)).calls := by
  have hclamp (x : ℕ) (hx : x < 2 ^ 52) : clamp (pfnPhys x) 0 (2 ^ 64 - 1) = x * 4096 := by
    rw [clamp, pfnPhys_eq hx]
    omega
  rw [rangeCalls, hclamp _ (hlt.trans hend), hclamp _ hend, if_neg (by omega)]

theorem rangeCalls_has {r : PfnRange} (hlt : r.start_pfn < r.end_pfn) (hend : r.end_pfn < 2 ^ 52)
    (f : ℕ) : (∃ c ∈ rangeCalls 0 (2 ^ 64 - 1) r, c.Has f) ↔ r.Has f := by
  rw [rangeCalls_eq hlt hend, mapRange_has hlt.le hend]
  rfl

theorem initRangeMemoryMapping_eq {range_start range_end : ℕ}
    (hrun : forEachMemPfnRange m (-1) (m.n + 1) (-1) = .ok l) (s : Mapped) :
    initRangeMemoryMapping m range_start range_end s =
      .ok ((l.foldl (mapTurn range_start range_end) ([], s)).1,
        (l.foldl (mapTurn range_start range_end) ([], s)).2) := by
  rw [initRangeMemoryMapping, hrun, ok_bind]
  rfl

end Ranges

theorem live_eightPages : eightPages.live = [⟨MEMBLOCK_NONE, 4096, 32768, 0⟩] :=
  live_tableOf _ _ _

theorem listed_eightPages : Listed eightPages := by
  refine ⟨by decide +kernel, ?_, ?_⟩
  · rw [live_eightPages]
    exact List.pairwise_singleton _ _
  · rw [live_eightPages]
    decide

end Cyanea.Mm
