/-
# What the builders of the direct mapping do

A builder is called for a table and a range of the direct mapping in which nothing is mapped
yet. It then maps every address of the range that the table covers, without a change to an
entry that is present, or stops because it finds no page for a new table. The proof goes
from the level of the 4 KiB pages upwards: the builder of a level relies on the one below.
-/

import Cyanea.Mm.PhysicalMapping

namespace Cyanea.Mm

open Cyanea.Math (Ends)
open Cyanea.Math.Simulation (ok_bind error_bind)
open X86

/-- The level of the tables whose entries map pages of this size. -/
def PageSize.level : PageSize → ℕ
  | .PAGE_SIZE_4K => 0
  | .PAGE_SIZE_2M => 1
  | .PAGE_SIZE_1G => 2

/-! ## Addresses of the direct mapping -/

/-- A range of the direct mapping that pages of the level fill. -/
structure Piece (v w level : ℕ) : Prop where
  low : PAGE_OFFSET ≤ v
  lt : v < w
  high : w < START_KERNEL_map
  dvd_left : 2 ^ pageShift level ∣ v
  dvd_right : 2 ^ pageShift level ∣ w

section Steps

variable {level v w a : ℕ}

theorem le_three (hlevel : level ≤ 3) : level = 0 ∨ level = 1 ∨ level = 2 ∨ level = 3 := by
  omega

/-- Within the upper half of the addresses blocks are in the order of the addresses. -/
theorem block_le_block (hlow : PAGE_OFFSET ≤ v) (hle : v ≤ a) (hhigh : a < 2 ^ 64) :
    block level v ≤ block level a := by
  rw [PAGE_OFFSET_eq] at hlow
  exact Nat.div_le_div_right (by omega)

theorem lt_of_block_lt (hlow : PAGE_OFFSET ≤ a) (hhigh : v < 2 ^ 64)
    (hlt : block level v < block level a) : v < a :=
  not_le.mp fun hle => absurd (block_le_block hlow hle hhigh) (not_le.mpr hlt)

/-- Where the loop of a level goes on. -/
def nextBlock (level v : ℕ) : ℕ :=
  add64 (2 ^ pageShift level * (v / 2 ^ pageShift level)) (2 ^ pageShift level)

/-- The next block follows, unless the table has ended. -/
theorem nextBlock_spec (hlevel : level ≤ 3) (hv : InDirectMap v) (hmore : block level v % 512 < 511) :
    v < nextBlock level v ∧ nextBlock level v ≤ START_KERNEL_map ∧
      2 ^ pageShift level ∣ nextBlock level v ∧
      block level (nextBlock level v) = block level v + 1 := by
  obtain ⟨hlow, hhigh⟩ := hv
  rw [PAGE_OFFSET_eq] at hlow
  rw [START_KERNEL_map_eq] at hhigh ⊢
  obtain rfl | rfl | rfl | rfl := le_three hlevel <;>
    simp only [block, nextBlock, pageShift, add64] at hmore ⊢ <;> omega

/-- An address of a later block lies behind the start of the next one. -/
theorem nextBlock_le (hlevel : level ≤ 3) (hv : InDirectMap v) (hlow : PAGE_OFFSET ≤ a)
    (hhigh : a < 2 ^ 64) (hblock : block level v < block level a) : nextBlock level v ≤ a := by
  obtain ⟨hvlow, hvhigh⟩ := hv
  rw [PAGE_OFFSET_eq] at hlow hvlow
  rw [START_KERNEL_map_eq] at hvhigh
  obtain rfl | rfl | rfl | rfl := le_three hlevel <;>
    simp only [block, nextBlock, pageShift, add64] at hblock ⊢ <;> omega

end Steps

/-! ## The invariant of the builders -/

/-- The tables are those of a forest, in memory that the direct mapping shows, and the pages
not yet allocated are no tables. -/
structure Laid (img : Image) (s : InitTables) (f : Forest) : Prop where
  mem : f.mem = s.mem
  low : ∀ {b p}, f.place b = some p → b < DIRECT_SIZE
  free : ∀ {j}, s.next_page ≤ j → j < img.BRK_ALLOC_PAGES →
    f.place (img.pa (img.brkPage j)) = none

/-- The addresses of `R` have been mapped below the table at `base`, which extended the forest
and left the tables of the higher levels alone. -/
structure FilledTo (img : Image) (f : Forest) (level base : ℕ) (R : Set ℕ) (s : InitTables)
    (g : Forest) : Prop where
  laid : Laid img s g
  grows : f.Extends R g
  above : ∀ {b l n}, f.place b = some (l, n) → level < l → g.mem b = f.mem b
  maps : ∀ a ∈ R, translate g.mem level base a = some (a - PAGE_OFFSET)

def Filled (img : Image) (f : Forest) (level base : ℕ) (R : Set ℕ) (s : InitTables) : Prop :=
  ∃ g, FilledTo img f level base R s g

/-- What is filled first stays mapped when more is filled. -/
theorem FilledTo.trans {img : Image} {f g k : Forest} {level base : ℕ} {R R₁ R₂ : Set ℕ}
    {s₁ s₂ : InitTables} (h₁ : FilledTo img f level base R₁ s₁ g)
    (h₂ : FilledTo img g level base R₂ s₂ k) (hover : ∀ a ∈ R₁, g.Over base level a)
    (hsub₁ : R₁ ⊆ R) (hsub₂ : R₂ ⊆ R) (hunion : R ⊆ R₁ ∪ R₂) :
    FilledTo img f level base R s₂ k where
  laid := h₂.laid
  grows := (h₁.grows.mono hsub₁).trans (h₂.grows.mono hsub₂)
  above hb hl := (h₂.above (h₁.grows.placed hb) hl).trans (h₁.above hb hl)
  maps a ha := by
    obtain hfirst | hsecond := hunion ha
    · exact h₂.grows.translate (hover a hfirst) (h₁.maps a hfirst)
    · exact h₂.maps a hsecond

/-- The addresses of a range that lie in one block. -/
def Span (v w level n : ℕ) : Set ℕ := {a | v ≤ a ∧ a < w ∧ block level a = n}

/-- What a builder does with the part of a range that its table covers. -/
structure Fills (img : Image) (level : ℕ) (build : Image.Builder) : Prop where
  ends : ∀ {s f table q v w} {ps : PageSize}, Laid img s f → f.place (img.pa table) = some (level, q) →
    Piece v w ps.level → block (level + 1) v = q →
    (∀ a ∈ Span v w (level + 1) q, Vacant s.mem ps.level level (img.pa table) a) →
    Ends (Filled img f level (img.pa table) (Span v w (level + 1) q)) (· = .notEnoughMemory)
      (build table (img.pa v) (img.pa w) ps s)

section Pages

variable {img : Image} {s : InitTables} {f : Forest} {j level q : ℕ}

theorem Image.pa_brkPage (hj : j < img.BRK_ALLOC_PAGES) :
    img.pa (img.brkPage j) = img.pa img.brk_base + PAGE_SIZE * j := by
  have hkernel := img.brk_kernel
  have hlimit := img.brk_limit
  have hlow := img.brk_low
  have hsize : PAGE_SIZE = 4096 := rfl
  have hpages : PAGE_SIZE * j + PAGE_SIZE ≤ PAGE_SIZE * img.BRK_ALLOC_PAGES := by
    rw [← Nat.mul_succ]
    exact Nat.mul_le_mul_left _ hj
  rw [DIRECT_SIZE_eq] at hlow
  rw [Image.pa, Image.brkPage]
  rw [physAddr_kernel hkernel (by omega)] at hlow
  rw [Image.pa, physAddr_kernel hkernel (by omega), physAddr_kernel (by omega) (by omega)]
  omega

theorem Image.pa_brkPage_lt (hj : j < img.BRK_ALLOC_PAGES) :
    img.pa (img.brkPage j) < DIRECT_SIZE := by
  have hsize : PAGE_SIZE = 4096 := rfl
  have hpages : PAGE_SIZE * j + PAGE_SIZE ≤ PAGE_SIZE * img.BRK_ALLOC_PAGES := by
    rw [← Nat.mul_succ]
    exact Nat.mul_le_mul_left _ hj
  have hlow : img.pa img.brk_base + PAGE_SIZE * img.BRK_ALLOC_PAGES ≤ DIRECT_SIZE := img.brk_low
  rw [Image.pa_brkPage hj]
  omega

theorem Image.pa_brkPage_dvd (hj : j < img.BRK_ALLOC_PAGES) :
    2 ^ 12 ∣ img.pa (img.brkPage j) := by
  rw [Image.pa_brkPage hj]
  exact Nat.dvd_add img.brk_aligned (Nat.dvd_mul_right _ _)

theorem Image.pa_brkPage_inj {i : ℕ} (hi : i < img.BRK_ALLOC_PAGES)
    (hj : j < img.BRK_ALLOC_PAGES) (h : img.pa (img.brkPage i) = img.pa (img.brkPage j)) :
    i = j := by
  rw [Image.pa_brkPage hi, Image.pa_brkPage hj, show PAGE_SIZE = 4096 from rfl] at h
  omega

theorem Image.allocPages_one : img.allocPages 1 s =
    if s.next_page + 1 < img.BRK_ALLOC_PAGES then
      .ok (img.brkPage s.next_page, ⟨img.clear s.mem (img.brkPage s.next_page), s.next_page + 1⟩)
    else .error .notEnoughMemory := by
  rw [Image.allocPages, List.range_one, List.foldl_cons, List.foldl_nil]
  rfl

/-- The next page becomes an empty table at a place of our choice. -/
theorem Laid.allocPages (h : Laid img s f) (hlevel : level ≤ 3) (q : ℕ) :
    Ends (fun r : ℕ × InitTables => 2 ^ 12 ∣ img.pa r.1 ∧ img.pa r.1 < DIRECT_SIZE ∧
        ∃ g, f.Gains g (img.pa r.1) level q ∧ Laid img r.2 g)
      (· = .notEnoughMemory) (img.allocPages 1 s) := by
  rw [Image.allocPages_one]
  split
  · rename_i hroom
    have hpage : s.next_page < img.BRK_ALLOC_PAGES := by omega
    have hnew := h.free (Nat.le_refl _) hpage
    have hgains := Forest.gains_add (q := q) hlevel hnew
    refine ⟨Image.pa_brkPage_dvd hpage, Image.pa_brkPage_lt hpage, _, hgains, ?_, ?_, ?_⟩
    · exact congrArg (fun mem => img.clear mem (img.brkPage s.next_page)) h.mem
    · intro b p hplace
      by_cases hb : b = img.pa (img.brkPage s.next_page)
      · subst hb
        exact Image.pa_brkPage_lt hpage
      · exact h.low ((hgains.place_old hb).symm.trans hplace)
    · intro j hle hlt
      have hle' : s.next_page + 1 ≤ j := hle
      rw [hgains.place_old]
      · exact h.free (by omega) hlt
      · intro heq
        have hj := Image.pa_brkPage_inj hlt hpage heq
        omega
  · rfl

/-- An entry of a table is set. -/
theorem Laid.store {table i e : ℕ} (h : Laid img s f) (hplace : f.place (img.pa table) = some (level, q))
    (hlink : ∀ {l c}, level = l + 1 → entry level e = .table c →
      f.place c = some (l, 512 * q + i)) :
    Laid img (img.store s table i e) (f.set (img.pa table) level q i e hplace hlink) where
  mem := congrArg (fun mem => setEntry mem (img.pa table) i e) h.mem
  low := h.low
  free := h.free

end Pages

/-! ## The loop over the entries -/

section Loop

variable {img : Image} {level q base w p : ℕ}
  {body : ℕ → ℕ → InitTables → Except Stop InitTables}

/-- What is left of a range at the entry `i` of the table. -/
def Rest (level q w i v : ℕ) : Set ℕ :=
  {a | v ≤ a ∧ PAGE_OFFSET ≤ a ∧ a < w ∧ 512 * q + i ≤ block level a ∧
    block level a < 512 * q + 512}

theorem Piece.inDirectMap {v : ℕ} (h : Piece v w p) : InDirectMap v :=
  ⟨h.low, h.lt.trans h.high⟩

theorem lt_two_pow_of_lt_kernel {a : ℕ} (h : a < START_KERNEL_map) : a < 2 ^ 64 :=
  h.trans (by decide)

theorem span_subset_rest (level q : ℕ) {i v : ℕ} (h : Piece v w p) (hi : i < 512) :
    Span v w level (512 * q + i) ⊆ Rest level q w i v := by
  rintro a ⟨hle, hlt, hblock⟩
  exact ⟨hle, h.low.trans hle, hlt, hblock.ge, by omega⟩

/-- The turn of an entry leaves the rest of the range. -/
theorem rest_subset {i v : ℕ} (h : Piece v w p)
    (hblock : block level v = 512 * q + i) :
    Rest level q w (i + 1) (nextBlock level v) ⊆ Rest level q w i v := by
  rintro a ⟨hle, hlow, hlt, hfrom, hto⟩
  have hv := lt_two_pow_of_lt_kernel (h.lt.trans h.high)
  have hlater : block level v < block level a := by omega
  exact ⟨(lt_of_block_lt hlow hv hlater).le, hlow, hlt, by omega, hto⟩

theorem mem_span_or_rest {i v a : ℕ} (hlevel : level ≤ 3) (h : Piece v w p)
    (hblock : block level v = 512 * q + i) (ha : a ∈ Rest level q w i v) :
    a ∈ Span v w level (512 * q + i) ∨ a ∈ Rest level q w (i + 1) (nextBlock level v) := by
  obtain ⟨hle, hlow, hlt, hfrom, hto⟩ := ha
  by_cases heq : block level a = 512 * q + i
  · exact .inl ⟨hle, hlt, heq⟩
  · have hhigh := lt_two_pow_of_lt_kernel (hlt.trans h.high)
    exact .inr ⟨nextBlock_le hlevel h.inDirectMap hlow hhigh (by omega), hlow, hlt, by omega, hto⟩

theorem Piece.next {i v : ℕ} (hlevel : level ≤ 3) (hp : p ≤ level) (h : Piece v w p)
    (hblock : block level v = 512 * q + i) (hi : i + 1 < 512) (hlt : nextBlock level v < w) :
    Piece (nextBlock level v) w p ∧ block level (nextBlock level v) = 512 * q + (i + 1) := by
  obtain ⟨hbehind, -, hdvd, hnext⟩ := nextBlock_spec hlevel h.inDirectMap (by omega)
  refine ⟨⟨h.low.trans hbehind.le, hlt, h.high, ?_, h.dvd_right⟩, by omega⟩
  exact (Nat.pow_dvd_pow 2 (Nat.add_le_add_left (Nat.mul_le_mul_left 9 hp) 12)).trans hdvd

theorem filled_empty {s : InitTables} {f : Forest} (hlaid : Laid img s f) {R : Set ℕ}
    (hempty : R = ∅) : Filled img f level base R s := by
  rw [hempty]
  exact ⟨f, hlaid, .refl _ f, fun _ _ => rfl, fun a ha => absurd ha (Set.notMem_empty a)⟩

theorem over_of_block {f : Forest} {a : ℕ} (hplace : f.place base = some (level, q))
    (hfrom : 512 * q ≤ block level a) (hto : block level a < 512 * q + 512) :
    f.Over base level a := by
  have hq : block (level + 1) a = q := by
    rw [block_succ]
    omega
  rw [Forest.Over, hq, hplace]

/-- If each turn maps what its entry covers, the loop maps what is left. -/
theorem entryLoop_ends (hlevel : level ≤ 3)
    (hbody : ∀ {i v s f}, Laid img s f → f.place base = some (level, q) → Piece v w p →
      i < 512 → block level v = 512 * q + i →
      (∀ a ∈ Span v w level (512 * q + i), Vacant s.mem p level base a) →
      Ends (Filled img f level base (Span v w level (512 * q + i))) (· = .notEnoughMemory)
        (body i v s))
    (turns : ℕ) {i v : ℕ} {s : InitTables} {f : Forest} (hturns : i + turns = 512)
    (hlaid : Laid img s f) (hplace : f.place base = some (level, q))
    (hv : i < 512 → v < w → Piece v w p ∧ block level v = 512 * q + i)
    (hvacant : ∀ a ∈ Rest level q w i v, Vacant s.mem p level base a) :
    Ends (Filled img f level base (Rest level q w i v)) (· = .notEnoughMemory)
      (Image.entryLoop (not64 (2 ^ pageShift level - 1)) (2 ^ pageShift level) w body turns i v
        s) := by
  induction turns generalizing i v s f with
  | zero =>
      refine filled_empty hlaid (Set.eq_empty_of_forall_notMem ?_)
      rintro a ⟨-, -, -, hfrom, hto⟩
      omega
  | succ turns ih =>
      rw [Image.entryLoop]
      split
      · rename_i hlt
        obtain ⟨hpiece, hblock⟩ := hv (by omega) hlt
        have hin : v < 2 ^ 64 := lt_two_pow_of_lt_kernel (hlt.trans hpiece.high)
        have hshift : pageShift level ≤ 64 := by
          rw [pageShift]
          omega
        have hspan := span_subset_rest level q hpiece (show i < 512 by omega)
        have hfirst : v ∈ Span v w level (512 * q + i) := ⟨Nat.le_refl v, hlt, hblock⟩
        have hp : p ≤ level := (hvacant v (hspan hfirst)).low_le
        rw [and_not64_eq hin hshift]
        refine (hbody hlaid hplace hpiece (by omega) hblock
          fun a ha => hvacant a (hspan ha)).bind ?_
        rintro s₁ ⟨g, hg⟩
        have hrest : Rest level q w (i + 1) (nextBlock level v) ⊆ Rest level q w i v :=
          rest_subset hpiece hblock
        have hvacant₁ : ∀ a ∈ Rest level q w (i + 1) (nextBlock level v),
            Vacant s₁.mem p level base a := by
          intro a ha
          have hbefore := hvacant a (hrest ha)
          obtain ⟨-, -, -, hfrom, hto⟩ := ha
          rw [← hlaid.mem] at hbefore
          rw [← hg.laid.mem]
          refine hg.grows.vacant (over_of_block hplace (by omega) hto) ?_ hbefore
          rintro x ⟨-, -, hx⟩ heq
          have hsame := block_mono hp heq
          omega
        refine (ih (by omega) hg.laid (hg.grows.placed hplace)
          (fun hi hlt => hpiece.next hlevel hp hblock hi hlt) hvacant₁).mono ?_ fun _ h => h
        rintro s₂ ⟨k, hk⟩
        refine ⟨k, hg.trans hk (fun a ha => ?_) hspan hrest fun a ha =>
          mem_span_or_rest hlevel hpiece hblock ha⟩
        obtain ⟨-, -, hin⟩ := ha
        exact over_of_block (hg.grows.placed hplace) (by omega) (by omega)
      · rename_i hge
        refine filled_empty hlaid (Set.eq_empty_of_forall_notMem ?_)
        rintro a ⟨hle, -, hlt, -⟩
        omega

end Loop

/-! ## The turns -/

section Turns

variable {img : Image} {s : InitTables} {f : Forest} {level q table v w i e : ℕ} {ps : PageSize}

theorem block_of_mod {a b : ℕ} (h : a % 2 ^ 48 = b % 2 ^ 48) (low : ℕ) :
    block low a = block low b := by
  rw [block, h, block]

/-- A page at the start of a range lies in the range. -/
theorem Piece.page_subset {a : ℕ} (hlevel : level ≤ 3) (h : Piece v w level)
    (ha : block level a = block level v) :
    2 ^ 64 - 2 ^ 48 + a % 2 ^ 48 ∈ Span v w level (block level v) := by
  obtain ⟨hlow, hlt, hhigh, hdvd, hdvd'⟩ := h
  rw [PAGE_OFFSET_eq] at hlow
  rw [START_KERNEL_map_eq] at hhigh
  have hsame : (2 ^ 64 - 2 ^ 48 + a % 2 ^ 48) % 2 ^ 48 = a % 2 ^ 48 := by omega
  refine ⟨?_, ?_, (block_of_mod hsame level).trans ha⟩ <;>
    obtain rfl | rfl | rfl | rfl := le_three hlevel <;>
    simp only [block, pageShift] at ha hdvd hdvd' <;> omega

theorem Piece.offset {a : ℕ} (hlevel : level ≤ 3) (h : Piece v w level)
    (ha : a ∈ Span v w level (block level v)) :
    v - PAGE_OFFSET + a % 2 ^ pageShift level = a - PAGE_OFFSET := by
  obtain ⟨hlow, hlt, hhigh, hdvd, -⟩ := h
  obtain ⟨hle, hlt', hblock⟩ := ha
  rw [PAGE_OFFSET_eq] at hlow ⊢
  rw [START_KERNEL_map_eq] at hhigh
  obtain rfl | rfl | rfl | rfl := le_three hlevel <;>
    simp only [block, pageShift] at hblock hdvd ⊢ <;> omega

theorem index_of_block {a n : ℕ} (hlevel : level ≤ 3) (hi : i < 512)
    (hblock : block level a = 512 * n + i) : index level a = i := by
  rw [index_eq hlevel, hblock]
  omega

/-- A page is mapped. -/
theorem filled_page (hlaid : Laid img s f) (hplace : f.place (img.pa table) = some (level, q))
    (hpiece : Piece v w level) (hi : i < 512) (hblock : block level v = 512 * q + i)
    (habsent : (s.mem (img.pa table) i).testBit 0 = false)
    (hentry : entry level e = .page (v - PAGE_OFFSET)) :
    Filled img f level (img.pa table) (Span v w level (512 * q + i)) (img.store s table i e) := by
  have hlevel := f.level_le hplace
  have hlink : ∀ {l c}, level = l + 1 → entry level e = .table c →
      f.place c = some (l, 512 * q + i) := by
    intro l c _ htable
    rw [hentry] at htable
    cases htable
  rw [← hlaid.mem] at habsent
  refine ⟨_, hlaid.store hplace hlink, Forest.extends_set habsent ?_, ?_, ?_⟩
  · intro low a hlow ha huntouched
    have hmem := hpiece.page_subset hlevel (ha.trans hblock.symm)
    rw [hblock] at hmem
    exact absurd (block_of_mod (by omega) low) (huntouched _ hmem)
  · intro b l n hb hl
    refine Function.update_of_ne ?_ _ _
    rintro rfl
    obtain ⟨rfl, -⟩ := Prod.mk.inj (Option.some.inj (hb.symm.trans hplace))
    exact absurd hl (Nat.lt_irrefl _)
  · intro a ha
    rw [← hblock] at ha
    rw [← hpiece.offset hlevel ha]
    refine translate_page ?_
    rw [index_of_block hlevel hi (ha.2.2.trans hblock), Forest.mem_set_self, hentry]

variable {init : Image.Builder}

/-- The table that an entry points to is filled. -/
theorem filled_entered {c : ℕ} (hinit : Fills img level init) (hlaid : Laid img s f)
    (hplace : f.place (img.pa table) = some (level + 1, q)) (hpiece : Piece v w ps.level)
    (hi : i < 512) (hblock : block (level + 1) v = 512 * q + i)
    (hpresent : (s.mem (img.pa table) i).testBit 0 = true)
    (hentry : entry (level + 1) (s.mem (img.pa table) i) = .table c)
    (hvacant : ∀ a ∈ Span v w (level + 1) (512 * q + i),
      Vacant s.mem ps.level (level + 1) (img.pa table) a) :
    Ends (Filled img f (level + 1) (img.pa table) (Span v w (level + 1) (512 * q + i)))
      (· = .notEnoughMemory) (init (va c) (img.pa v) (img.pa w) ps s) := by
  have hlevel := f.level_le hplace
  have hindex : ∀ a ∈ Span v w (level + 1) (512 * q + i), index (level + 1) a = i :=
    fun a ha => index_of_block hlevel hi ha.2.2
  have hchild : f.place c = some (level, 512 * q + i) := by
    rw [← hlaid.mem] at hentry
    exact f.child hplace hi hentry
  have hpa : img.pa (va c) = c := physAddr_va (hlaid.low hchild)
  have hbelow : ∀ a ∈ Span v w (level + 1) (512 * q + i),
      Vacant s.mem ps.level level (img.pa (va c)) a := by
    intro a ha
    have hva := hvacant a ha
    obtain ⟨l, next, hl, -, hnext, hrest⟩ := hva.table (by rw [hindex a ha, hpresent])
    obtain rfl := Nat.succ.inj hl
    rw [hindex a ha, hentry] at hnext
    rw [hpa, Entry.table.inj hnext]
    exact hrest
  refine (hinit.ends hlaid (by rw [hpa, hchild]) hpiece hblock hbelow).mono ?_ fun _ h => h
  rintro s' ⟨g, hlaid', hext, habove, hmaps⟩
  refine ⟨g, hlaid', hext, fun hb hl => habove hb (Nat.lt_of_succ_lt hl), fun a ha => ?_⟩
  rw [X86.translate, habove hplace (Nat.lt_succ_self level), hlaid.mem, hindex a ha, hentry, ← hpa]
  exact hmaps a ha

/-- A new table is filled, and then linked. -/
theorem filled_newTable (hinit : Fills img level init) (hlaid : Laid img s f)
    (hplace : f.place (img.pa table) = some (level + 1, q)) (hpiece : Piece v w ps.level)
    (hi : i < 512) (hblock : block (level + 1) v = 512 * q + i)
    (hps : ps.level ≤ level) (habsent : (s.mem (img.pa table) i).testBit 0 = false) :
    Ends (Filled img f (level + 1) (img.pa table) (Span v w (level + 1) (512 * q + i)))
      (· = .notEnoughMemory) (img.newTable init table w ps i v s) := by
  have hlevel := f.level_le hplace
  rw [Image.newTable]
  refine (hlaid.allocPages (Nat.le_of_succ_le hlevel) (512 * q + i)).bind ?_
  rintro ⟨t, s₁⟩ ⟨hdvd, hlow, f₁, hgains, hlaid₁⟩
  have hbelow : ∀ a ∈ Span v w (level + 1) (512 * q + i),
      Vacant s₁.mem ps.level level (img.pa t) a := by
    intro a _
    rw [← hlaid₁.mem]
    exact hgains.vacant hps a
  refine (hinit.ends hlaid₁ hgains.place_new hpiece hblock hbelow).bind ?_
  rintro s₂ ⟨g, hlaid₂, hext, habove, hmaps⟩
  have hne : img.pa table ≠ img.pa t := Forest.ne_of_placed hgains.new hplace
  have hplace₁ := (hgains.extends ∅).placed hplace
  have hsame : g.mem (img.pa table) = f.mem (img.pa table) :=
    (habove hplace₁ (Nat.lt_succ_self level)).trans (hgains.mem_old hne)
  have hentry : entry (level + 1) (img.pa t ||| KERNPG_TABLE) = .table (img.pa t) :=
    entry_table level hdvd (hlow.trans (by decide)) (by decide) (by decide) (by decide)
  obtain ⟨hlink, hlinked⟩ := hext.link hplace₁ hgains.place_new hgains.vacant
    (by rw [hsame, hlaid.mem, habsent]) hentry ⟨v, ⟨Nat.le_refl v, hpiece.lt, hblock⟩, hblock⟩
  refine ⟨_, hlaid₂.store (hext.placed hplace₁) hlink,
    ((hgains.extends _).trans hext).trans hlinked, ?_, ?_⟩
  · intro b l n hb hl
    have hb₁ := (hgains.extends ∅).placed hb
    have hother : b ≠ img.pa table := by
      rintro rfl
      obtain ⟨rfl, -⟩ := Prod.mk.inj (Option.some.inj (hb.symm.trans hplace))
      exact absurd hl (Nat.lt_irrefl _)
    have hset : (g.set (img.pa table) (level + 1) q i (img.pa t ||| KERNPG_TABLE)
        (hext.placed hplace₁) hlink).mem b = g.mem b := Function.update_of_ne hother _ _
    rw [hset, habove hb₁ (Nat.lt_of_succ_lt hl),
      hgains.mem_old (Forest.ne_of_placed hgains.new hb)]
  · intro a ha
    have hover : g.Over (img.pa t) level a := by
      rw [Forest.Over, ha.2.2]
      exact hext.placed hgains.place_new
    rw [X86.translate, index_of_block hlevel hi ha.2.2, Forest.mem_set_self, hentry]
    exact hlinked.translate hover (hmaps a ha)

end Turns

/-! ## The builders -/

section Builders

variable {img : Image}

/-- What one turn of a loop does with the part of a range that its entry covers. -/
structure TurnFills (img : Image) (level : ℕ)
    (turn : (table vaddr_end : ℕ) → PageSize → ℕ → ℕ → InitTables → Except Stop InitTables) :
    Prop where
  ends : ∀ {s f table q v w i} {ps : PageSize}, Laid img s f → f.place (img.pa table) = some (level, q) →
    Piece v w ps.level → i < 512 → block level v = 512 * q + i →
    (∀ a ∈ Span v w level (512 * q + i), Vacant s.mem ps.level level (img.pa table) a) →
    Ends (Filled img f level (img.pa table) (Span v w level (512 * q + i)))
      (· = .notEnoughMemory) (turn table w ps i v s)

theorem rest_eq_span {level q v w p : ℕ} (hlevel : level ≤ 3) (h : Piece v w p)
    (hblock : block (level + 1) v = q) :
    Rest level q w (index level v) v = Span v w (level + 1) q := by
  ext a
  constructor
  · rintro ⟨hle, -, hlt, hfrom, hto⟩
    refine ⟨hle, hlt, ?_⟩
    rw [block_succ]
    omega
  · rintro ⟨hle, hlt, hblock'⟩
    have hmono : block level v ≤ block level a :=
      block_le_block h.low hle (lt_two_pow_of_lt_kernel (hlt.trans h.high))
    rw [block_eq hlevel, hblock] at hmono
    rw [block_succ] at hblock'
    exact ⟨hle, h.low.trans hle, hlt, hmono, by omega⟩

/-- A loop over turns that do their part is a builder. -/
theorem fills_of_turn {level mask size ptrs : ℕ} {idx : ℕ → ℕ} (hlevel : level ≤ 3)
    {turn : (table vaddr_end : ℕ) → PageSize → ℕ → ℕ → InitTables → Except Stop InitTables}
    (hturn : TurnFills img level turn) (hmask : mask = not64 (2 ^ pageShift level - 1))
    (hsize : size = 2 ^ pageShift level) (hptrs : ptrs = 512) (hidx : ∀ a, idx a = index level a) :
    Fills img level fun table start rangeEnd ps s =>
      Image.entryLoop mask size (va rangeEnd) (turn table (va rangeEnd) ps)
        (ptrs - idx (va start)) (idx (va start)) (va start) s where
  ends {s f table q v w ps} hlaid hplace hpiece hblock hvacant := by
    have hv : va (img.pa v) = v := va_physAddr hpiece.inDirectMap
    have hw : va (img.pa w) = w := va_physAddr ⟨hpiece.low.trans hpiece.lt.le, hpiece.high⟩
    have hindex := index_lt level v
    rw [← rest_eq_span hlevel hpiece hblock] at hvacant ⊢
    rw [hv, hw, hidx, hmask, hsize, hptrs]
    refine entryLoop_ends hlevel hturn.ends _ (by omega) hlaid hplace (fun _ _ => ⟨hpiece, ?_⟩)
      hvacant
    rw [block_eq hlevel, hblock]

theorem Piece.pa_eq {v w level : ℕ} (h : Piece v w level) : img.pa v = v - PAGE_OFFSET :=
  physAddr_direct h.inDirectMap

theorem Piece.pa_dvd {v w level : ℕ} (hlevel : level ≤ 3) (h : Piece v w level) :
    2 ^ pageShift level ∣ v - PAGE_OFFSET := by
  have hshift : pageShift level ≤ 39 := by
    rw [pageShift]
    omega
  exact Nat.dvd_sub h.dvd_left ((Nat.pow_dvd_pow 2 hshift).trans (by decide))

theorem Piece.pa_lt {v w level : ℕ} (h : Piece v w level) : v - PAGE_OFFSET < 2 ^ 52 := by
  have hlt := h.lt.trans h.high
  rw [START_KERNEL_map_eq] at hlt
  rw [PAGE_OFFSET_eq]
  omega

theorem pageTurn_fills : TurnFills img 0 fun pt _ _ => img.pageTurn pt where
  ends {s f table q v w i ps} hlaid hplace hpiece hi hblock hvacant := by
    have hfirst : v ∈ Span v w 0 (512 * q + i) := ⟨Nat.le_refl v, hpiece.lt, hblock⟩
    have hps := Nat.le_zero.mp (hvacant v hfirst).low_le
    rw [hps] at hpiece hvacant
    have habsent := (hvacant v hfirst).absent
    rw [index_of_block (by decide) hi hblock] at habsent
    rw [Image.pageTurn, if_neg (by rw [entryFlags_present, Image.load, habsent]; decide),
      hpiece.pa_eq]
    exact filled_page hlaid hplace hpiece hi hblock habsent
      (entry_leaf (hpiece.pa_dvd (by decide)) hpiece.pa_lt (by decide) (by decide))

theorem PageSize.level_inj {a b : PageSize} (h : a.level = b.level) : a = b := by
  cases a <;> cases b <;> first | rfl | exact absurd h (by decide)

theorem largeTurn_fills {own : PageSize} {largeMask level : ℕ} {init : Image.Builder}
    (hlarge : largeMask = PHYSICAL_PMD_PAGE_MASK ∨ largeMask = PHYSICAL_PUD_PAGE_MASK)
    (hown : own.level = level + 1) (hlevel : level + 1 < 3) (hinit : Fills img level init) :
    TurnFills img (level + 1) (img.largeTurn own largeMask init) where
  ends {s f table q v w i ps} hlaid hplace hpiece hi hblock hvacant := by
    have hfirst : v ∈ Span v w (level + 1) (512 * q + i) := ⟨Nat.le_refl v, hpiece.lt, hblock⟩
    have hindex := index_of_block hlevel.le hi hblock
    have hv := hvacant v hfirst
    rw [Image.largeTurn, Image.load]
    by_cases hpresent : (s.mem (img.pa table) i).testBit 0 = true
    · obtain ⟨l, c, hl, hps, hentry, -⟩ := hv.table (by rw [hindex, hpresent])
      obtain rfl := Nat.succ.inj hl
      rw [hindex] at hentry
      obtain ⟨-, hPSE, hc⟩ := of_entry_table hentry
      have hsize : ps ≠ own := by
        rintro rfl
        omega
      rw [if_pos ((largeFlags_present hlarge _).mpr hpresent), if_neg hsize,
        if_neg (by rw [largeFlags_PSE hlarge, hPSE]; decide), and_pfnMask hPSE, ← hc]
      exact filled_entered hinit hlaid hplace hpiece hi hblock hpresent hentry hvacant
    · have habsent := Bool.not_eq_true _ ▸ hpresent
      rw [if_neg (by rw [largeFlags_present hlarge]; exact hpresent)]
      by_cases hsize : ps = own
      · rw [hsize, hown] at hpiece
        rw [if_pos hsize, hpiece.pa_eq]
        exact filled_page hlaid hplace hpiece hi hblock habsent (entry_large (Nat.succ_pos level)
          hlevel (hpiece.pa_dvd hlevel.le) hpiece.pa_lt (by decide) (by decide) (by decide))
      · have hne : ps.level ≠ own.level := fun h => hsize (PageSize.level_inj h)
        have hle := hv.low_le
        rw [if_neg hsize]
        exact filled_newTable hinit hlaid hplace hpiece hi hblock (by omega) habsent

theorem rootTurn_fills (hinit : Fills img 2 img.physicalPudInit) : TurnFills img 3 img.rootTurn where
  ends {s f table q v w i ps} hlaid hplace hpiece hi hblock hvacant := by
    have hfirst : v ∈ Span v w 3 (512 * q + i) := ⟨Nat.le_refl v, hpiece.lt, hblock⟩
    have hindex := index_of_block (Nat.le_refl 3) hi hblock
    rw [Image.rootTurn, Image.load]
    by_cases hpresent : (s.mem (img.pa table) i).testBit 0 = true
    · obtain ⟨l, c, hl, -, hentry, -⟩ := (hvacant v hfirst).table (by rw [hindex, hpresent])
      obtain rfl := Nat.succ.inj hl
      rw [hindex] at hentry
      rw [if_pos ((entryFlags_present _).mpr hpresent), and_PG_PFN_MASK,
        ← (of_entry_table hentry).2.2]
      exact filled_entered hinit hlaid hplace hpiece hi hblock hpresent hentry hvacant
    · have hps : ps.level ≤ 2 := by
        cases ps <;> decide
      rw [if_neg (by rw [entryFlags_present]; exact hpresent)]
      exact filled_newTable hinit hlaid hplace hpiece hi hblock hps (Bool.not_eq_true _ ▸ hpresent)

theorem physicalPtInit_fills : Fills img 0 img.physicalPtInit :=
  fills_of_turn (by decide) pageTurn_fills (by decide) (by decide) rfl pteIndex_eq

theorem physicalPmdInit_fills : Fills img 1 img.physicalPmdInit :=
  fills_of_turn (by decide) (largeTurn_fills (.inl rfl) rfl (by decide) physicalPtInit_fills)
    (by decide) (by decide) rfl pmdIndex_eq

theorem physicalPudInit_fills : Fills img 2 img.physicalPudInit :=
  fills_of_turn (by decide) (largeTurn_fills (.inr rfl) rfl (by decide) physicalPmdInit_fills)
    (by decide) (by decide) rfl pudIndex_eq

/-- A range that ends below the kernel's window is mapped, if nothing of it is mapped yet and
the pages last. -/
theorem physicalMappingInit_ends {s : InitTables} {f : Forest} {start rangeEnd : ℕ}
    {ps : PageSize} (hlaid : Laid img s f) (hroot : f.place (img.pa img.init_top_pgt) = some (3, 0))
    (hlt : start < rangeEnd) (hend : rangeEnd < DIRECT_SIZE)
    (hstart : 2 ^ pageShift ps.level ∣ start) (hrangeEnd : 2 ^ pageShift ps.level ∣ rangeEnd)
    (hvacant : ∀ a ∈ Span (va start) (va rangeEnd) 4 0,
      Vacant s.mem ps.level 3 (img.pa img.init_top_pgt) a) :
    Ends (Filled img f 3 (img.pa img.init_top_pgt) (Span (va start) (va rangeEnd) 4 0))
      (· = .notEnoughMemory) (img.physicalMappingInit start rangeEnd ps s) := by
  have hsize := DIRECT_SIZE_eq
  have hbase : 2 ^ pageShift ps.level ∣ PAGE_OFFSET := by
    refine (Nat.pow_dvd_pow 2 (show pageShift ps.level ≤ 39 from ?_)).trans (by decide)
    cases ps <;> decide
  have hv : va start = PAGE_OFFSET + start := va_eq (by omega)
  have hw : va rangeEnd = PAGE_OFFSET + rangeEnd := va_eq (by omega)
  have hpiece : Piece (va start) (va rangeEnd) ps.level := by
    refine ⟨?_, ?_, (inDirectMap_va hend).2, ?_, ?_⟩
    · rw [hv]
      exact Nat.le_add_right _ _
    · rw [hv, hw]
      exact Nat.add_lt_add_left hlt _
    · rw [hv]
      exact Nat.dvd_add hbase hstart
    · rw [hw]
      exact Nat.dvd_add hbase hrangeEnd
  have hfills := (fills_of_turn (Nat.le_refl 3) (rootTurn_fills physicalPudInit_fills)
    (show PGD_MASK = _ by decide) (show PGD_SIZE = _ by decide) (show PTRS_PER_PGD = 512 from rfl)
    pgdIndex_eq).ends hlaid hroot hpiece (block_four _) hvacant
  rw [Image.physicalMappingInit_below (inDirectMap_va hend).2]
  rwa [show img.pa (va start) = start from physAddr_va (hlt.trans hend),
    show img.pa (va rangeEnd) = rangeEnd from physAddr_va hend] at hfills

end Builders

end Cyanea.Mm
