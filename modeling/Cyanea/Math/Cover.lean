/-
# Segments as a set of keys

When all segments carry one tag, the list says no more than which keys are covered.
Then the segments of a coalesced list are the maximal runs of covered keys: there are
as many as there are last keys of runs, and filling a range joins nothing exactly if
the range touches none of them.
-/

import Cyanea.Math.Segments
import Mathlib.Data.Set.Card
import Mathlib.Order.Interval.Finset.Nat

namespace Cyanea.Math.Segments

open Segment

universe uk ua

variable {K : Type uk} {α : Type ua} [LinearOrder K] {x : α}

/-- All segments carry the tag. -/
def Uniform (x : α) (l : List (Segment K α)) : Prop := ∀ s ∈ l, s.tag = x

omit [LinearOrder K] in
theorem Uniform.tail {s : Segment K α} {l : List (Segment K α)} (h : Uniform x (s :: l)) :
    Uniform x l := fun t ht => h t (List.mem_cons_of_mem s ht)

theorem lookup_of_mem {l : List (Segment K α)} (h : Ordered l) {s : Segment K α} (hs : s ∈ l) :
    lookup l s.lo = some s.tag :=
  (lookup_eq_some_iff h).mpr ⟨s, hs, ⟨le_rfl, h.lo_lt_hi hs⟩, rfl⟩

theorem uniform_of_lookup {l : List (Segment K α)} (h : Ordered l)
    (hx : ∀ a y, lookup l a = some y → y = x) : Uniform x l :=
  fun _ hs => hx _ _ (lookup_of_mem h hs)

theorem Uniform.lookup {l : List (Segment K α)} (h : Uniform x l) {a : K} {y : α}
    (hy : lookup l a = some y) : y = x := by
  induction l with
  | nil => exact absurd hy nofun
  | cons s l ih =>
      rw [Segments.lookup] at hy
      split at hy
      · exact (Option.some.inj hy).symm.trans (h s List.mem_cons_self)
      · exact ih h.tail hy

/-- If nothing joins where a range is filled in, the range was covered or stands alone. -/
theorem fill_cases {b e : K} {l : List (Segment K α)} (h : Ordered l) (hx : Uniform x l)
    (hbe : b < e) (hmerged : Merged (fill b e x l)) :
    fill b e x l = l ∨ ∃ before behind, l = before ++ behind ∧
      fill b e x l = before ++ ⟨b, e, x⟩ :: behind ∧ (∀ s ∈ before, s.hi < b) ∧
      ∀ s ∈ behind, e < s.lo := by
  induction l generalizing b with
  | nil =>
      refine .inr ⟨[], [], rfl, if_pos hbe, ?_, ?_⟩
      · exact List.forall_mem_nil _
      · exact List.forall_mem_nil _
  | cons s l ih =>
      obtain ⟨hs, hle, hl⟩ := h
      have htag : s.tag = x := hx s List.mem_cons_self
      rw [fill] at hmerged ⊢
      split_ifs at hmerged ⊢ with he hsb hbs
      · -- the range lies before `s`
        have hne : e ≠ s.lo := fun heq =>
          (List.isChain_cons_cons.mp hmerged).1 ⟨heq, htag.symm⟩
        have hlt : e < s.lo := lt_of_le_of_ne he hne
        refine .inr ⟨[], s :: l, rfl, rfl, List.forall_mem_nil _, ?_⟩
        exact List.forall_mem_cons.mpr ⟨hlt, fun t ht => hlt.trans (hs.trans_le (hle t ht))⟩
      · -- `s` lies before the range
        have htail : Merged (fill b e x l) := hmerged.of_cons
        rcases ih hl hx.tail hbe htail with heq | ⟨before, behind, hlist, hfill, hbefore, hbehind⟩
        · exact .inl (by rw [heq])
        · refine .inr ⟨s :: before, behind, by rw [hlist]; rfl, by rw [hfill]; rfl, ?_, hbehind⟩
          refine List.forall_mem_cons.mpr ⟨?_, hbefore⟩
          rw [hfill] at hmerged
          cases before with
          | nil =>
              have hne : s.hi ≠ b := fun heq =>
                (List.isChain_cons_cons.mp hmerged).1 ⟨heq, htag⟩
              exact lt_of_le_of_ne hsb hne
          | cons t before =>
              have hmem : t ∈ l := by
                rw [hlist]
                exact List.mem_cons_self
              have htb := hbefore t List.mem_cons_self
              exact (hle t hmem).trans_lt ((hl.lo_lt_hi hmem).trans htb)
      · -- the first piece ends where `s` begins
        exact absurd ⟨rfl, htag.symm⟩ (List.isChain_cons_cons.mp hmerged).1
      · -- `s` covers the beginning of the range
        rcases lt_or_ge s.hi e with hlt | hge
        · rcases ih hl hx.tail hlt hmerged.of_cons with
            heq | ⟨before, behind, hlist, hfill, hbefore, -⟩
          · exact .inl (by rw [heq])
          · rw [hfill] at hmerged
            cases before with
            | nil => exact absurd ⟨rfl, htag⟩ (List.isChain_cons_cons.mp hmerged).1
            | cons t before =>
                have hmem : t ∈ l := by
                  rw [hlist]
                  exact List.mem_cons_self
                have htb := hbefore t List.mem_cons_self
                exact absurd ((hle t hmem).trans (hl.lo_lt_hi hmem).le) (not_le.mpr htb)
        · exact .inl (by rw [fill_eq_self hl hge])

/-! ## Counting keys -/

/-- The last keys of the runs of keys with `p`. -/
def lasts (p : ℕ → Prop) : Set ℕ := {a | p a ∧ ¬ p (a + 1)}

/-- The covered keys of a list. -/
def covered (l : List (Segment ℕ α)) : Set ℕ := {a | (Segments.lookup l a).isSome}

theorem covered_cons (s : Segment ℕ α) (l : List (Segment ℕ α)) :
    covered (s :: l) = Set.Ico s.lo s.hi ∪ covered l := by
  ext a
  simp only [covered, Set.mem_ofPred_eq, Set.mem_union, Set.mem_Ico, Segments.lookup]
  split
  · rename_i hs
    exact iff_of_true rfl (.inl hs)
  · rename_i hs
    exact ⟨.inr, fun h => h.resolve_left hs⟩

theorem finite_covered (l : List (Segment ℕ α)) : (covered l).Finite := by
  induction l with
  | nil =>
      have hempty : covered ([] : List (Segment ℕ α)) = ∅ := by
        ext a
        exact iff_of_false nofun nofun
      rw [hempty]
      exact Set.finite_empty
  | cons s l ih =>
      rw [covered_cons]
      exact (Set.finite_Ico _ _).union ih

/-- The total length is the number of covered keys. -/
theorem total_eq_ncard {l : List (Segment ℕ α)} (h : Ordered l) :
    total l = (covered l).ncard := by
  induction l with
  | nil =>
      have hempty : covered ([] : List (Segment ℕ α)) = ∅ := by
        ext a
        exact iff_of_false nofun nofun
      rw [hempty, Set.ncard_empty, total_nil]
  | cons s l ih =>
      obtain ⟨hs, hle, hl⟩ := h
      have hdisjoint : Disjoint (Set.Ico s.lo s.hi) (covered l) := by
        rw [Set.disjoint_left]
        intro a ha hcov
        obtain ⟨t, ht, htcov⟩ := lookup_isSome_iff.mp hcov
        exact absurd ((hle t ht).trans htcov.1) (not_le.mpr ha.2)
      have hcard : (Set.Ico s.lo s.hi).ncard = s.hi - s.lo := by
        rw [← Finset.coe_Ico, Set.ncard_coe_finset, Nat.card_Ico]
      rw [total_cons, ih hl, covered_cons,
        Set.ncard_union_eq hdisjoint (Set.finite_Ico _ _) (finite_covered l), hcard]

/-- The last keys of the runs of keys with one tag. -/
def ends (f : ℕ → Option α) : Set ℕ := {a | (f a).isSome ∧ f (a + 1) ≠ f a}

/-- A coalesced list has as many segments as there are runs of keys with one tag. -/
theorem length_eq_ncard_ends {l : List (Segment ℕ α)} (h : Ordered l) (hmerged : Merged l) :
    l.length = (ends (lookup l)).ncard := by
  have hends : ends (lookup l) = ↑(l.map fun s => s.hi - 1).toFinset := by
    ext a
    rw [List.coe_toFinset, Set.mem_ofPred_eq, List.mem_map]
    constructor
    · rintro ⟨hcov, hnext⟩
      obtain ⟨s, hs, hle, hlt⟩ := lookup_isSome_iff.mp hcov
      refine ⟨s, hs, ?_⟩
      by_contra hne
      have hself : lookup l a = some s.tag :=
        (lookup_eq_some_iff h).mpr ⟨s, hs, ⟨hle, hlt⟩, rfl⟩
      have hsucc : lookup l (a + 1) = some s.tag :=
        (lookup_eq_some_iff h).mpr ⟨s, hs, ⟨by omega, by omega⟩, rfl⟩
      exact hnext (hsucc.trans hself.symm)
    · rintro ⟨s, hs, rfl⟩
      have hlt := h.lo_lt_hi hs
      have hsucc : s.hi - 1 + 1 = s.hi := by omega
      have hself : lookup l (s.hi - 1) = some s.tag :=
        (lookup_eq_some_iff h).mpr ⟨s, hs, ⟨by omega, by omega⟩, rfl⟩
      rw [ends, Set.mem_ofPred_eq, hsucc, hself]
      exact ⟨rfl, (merged_iff_lookup_hi_ne h).mp hmerged s hs⟩
  have hnodup : (l.map fun s => s.hi - 1).Nodup := by
    clear hmerged hends
    induction l with
    | nil => exact List.nodup_nil
    | cons s l ih =>
        obtain ⟨hs, hle, hl⟩ := h
        refine List.nodup_cons.mpr ⟨?_, ih hl⟩
        intro hmem
        obtain ⟨t, ht, heq⟩ := List.mem_map.mp hmem
        have hlo := hle t ht
        have hlt := hl.lo_lt_hi ht
        dsimp only at heq
        omega
  rw [hends, Set.ncard_coe_finset, List.toFinset_card_of_nodup hnodup, List.length_map]

/-- With one tag the runs are those of the covered keys. -/
theorem length_eq_ncard_lasts {l : List (Segment ℕ α)} (h : Ordered l) (hx : Uniform x l)
    (hmerged : Merged l) : l.length = (lasts (· ∈ covered l)).ncard := by
  rw [length_eq_ncard_ends h hmerged]
  congr 1
  ext a
  refine and_congr_right fun hcov => not_congr ?_
  show lookup l (a + 1) = lookup l a ↔ (lookup l (a + 1)).isSome
  obtain ⟨y, hy⟩ := Option.isSome_iff_exists.mp hcov
  constructor
  · intro heq
    rw [heq, hy]
    rfl
  · intro hnext
    obtain ⟨z, hz⟩ := Option.isSome_iff_exists.mp hnext
    rw [hy, hz, hx.lookup hy, hx.lookup hz]

/-- Sets that agree outside `R` differ in size as they do in `R`. -/
theorem ncard_add_of_diff_eq {S T R : Set ℕ} (hS : S.Finite) (hT : T.Finite)
    (h : S \ R = T \ R) : S.ncard + (T ∩ R).ncard = T.ncard + (S ∩ R).ncard := by
  rw [← Set.ncard_inter_add_ncard_sdiff_eq_ncard S R hS,
    ← Set.ncard_inter_add_ncard_sdiff_eq_ncard T R hT, h]
  omega

theorem ncard_inter_pair {S : Set ℕ} {u v : ℕ} (huv : u ≠ v) [Decidable (u ∈ S)]
    [Decidable (v ∈ S)] :
    (S ∩ {u, v}).ncard = (if u ∈ S then 1 else 0) + if v ∈ S then 1 else 0 := by
  split_ifs with hu hv hv
  · rw [Set.inter_eq_right.mpr (Set.pair_subset hu hv), Set.ncard_pair huv]
  · rw [Set.inter_insert_of_mem hu, Set.inter_singleton_of_notMem hv, LawfulSingleton.insert_empty_eq,
      Set.ncard_singleton]
  · rw [Set.inter_insert_of_notMem hu, Set.inter_singleton_of_mem hv, Set.ncard_singleton]
  · rw [Set.inter_insert_of_notMem hu, Set.inter_singleton_of_notMem hv, Set.ncard_empty]

/-! ## Retagging a range -/

/-- How many runs more there are at an edge of a range whose tags change by `g`: `inner` is
the tag of the last key inside, `outer` that of its neighbour outside. -/
def edge [DecidableEq α] (g : α → α) (inner outer : Option α) : ℤ :=
  match inner with
  | none => 0
  | some x => if outer = some x then 1 else if outer = some (g x) then -1 else 0

/-- The new tags in the range are told apart as the old ones were, and are none of them. -/
structure Fresh (b e : ℕ) (g : α → α) (f : ℕ → Option α) : Prop where
  inj : ∀ a x a' y, b ≤ a → a < e → b ≤ a' → a' < e → f a = some x → f a' = some y → g x = g y →
    x = y
  ne : ∀ a x, b ≤ a → a < e → f a = some x → g x ≠ x

section Retag

variable {f f₁ : ℕ → Option α} {g : α → α} {b e : ℕ}

theorem Fresh.map_eq_iff (h : Fresh b e g f) {a a' : ℕ} (ha : b ≤ a) (ha' : a < e) (hb : b ≤ a')
    (hb' : a' < e) : (f a).map g = (f a').map g ↔ f a = f a' := by
  cases hx : f a with
  | none =>
      cases hy : f a' with
      | none => exact iff_of_true rfl rfl
      | some y => exact iff_of_false nofun nofun
  | some x =>
      cases hy : f a' with
      | none => exact iff_of_false nofun nofun
      | some y =>
          refine ⟨fun heq => ?_, fun heq => congrArg (Option.map g) heq⟩
          rw [h.inj a x a' y ha ha' hb hb' hx hy (Option.some.inj heq)]

/-- Retagging a range changes the number of runs only at its two edges. -/
theorem ncard_ends_retag [DecidableEq α] (hpos : 0 < b) (hbe : b < e)
    (hin : ∀ a, b ≤ a → a < e → f₁ a = (f a).map g)
    (hout : ∀ a, ¬ (b ≤ a ∧ a < e) → f₁ a = f a) (h : Fresh b e g f) (hfin : (ends f).Finite)
    (hfin₁ : (ends f₁).Finite) :
    ((ends f₁).ncard : ℤ) =
      (ends f).ncard + edge g (f b) (f (b - 1)) + edge g (f (e - 1)) (f e) := by
  classical
  have hsucc : b - 1 + 1 = b := by omega
  have hsucc' : e - 1 + 1 = e := by omega
  have hne : b - 1 ≠ e - 1 := by omega
  have hdiff : ends f \ {b - 1, e - 1} = ends f₁ \ {b - 1, e - 1} := by
    ext a
    rw [Set.mem_sdiff, Set.mem_sdiff, Set.mem_insert_iff, Set.mem_singleton_iff]
    refine and_congr_left fun ha => ?_
    rw [ends, ends, Set.mem_ofPred_eq, Set.mem_ofPred_eq]
    by_cases hrange : b ≤ a ∧ a + 1 < e
    · rw [hin a hrange.1 (by omega), hin (a + 1) (by omega) hrange.2, Option.isSome_map,
        Ne, Ne, h.map_eq_iff (by omega) hrange.2 hrange.1 (by omega)]
    · rw [hout a (by omega), hout (a + 1) (by omega)]
  have hcount := ncard_add_of_diff_eq hfin hfin₁ hdiff
  rw [ncard_inter_pair hne, ncard_inter_pair hne] at hcount
  -- the lower edge, seen from the key in front of the range
  have hlower : ((if b - 1 ∈ ends f₁ then 1 else 0 : ℕ) : ℤ) =
      (if b - 1 ∈ ends f then 1 else 0 : ℕ) + edge g (f b) (f (b - 1)) := by
    rw [ends, ends, Set.mem_ofPred_eq, Set.mem_ofPred_eq, hsucc, hout (b - 1) (by omega),
      hin b le_rfl hbe]
    cases hx : f b with
    | none => rw [Option.map_none, edge, add_zero]
    | some x =>
        have hfresh := h.ne b x le_rfl hbe hx
        cases hy : f (b - 1) with
        | none => simp [edge]
        | some y =>
            simp only [Option.map_some, Option.isSome_some, true_and, Ne, Option.some.injEq, edge]
            grind
  have hupper : ((if e - 1 ∈ ends f₁ then 1 else 0 : ℕ) : ℤ) =
      (if e - 1 ∈ ends f then 1 else 0 : ℕ) + edge g (f (e - 1)) (f e) := by
    rw [ends, ends, Set.mem_ofPred_eq, Set.mem_ofPred_eq, hsucc', hout e (by omega),
      hin (e - 1) (by omega) (by omega)]
    cases hx : f (e - 1) with
    | none => simp [edge]
    | some x =>
        have hfresh := h.ne (e - 1) x (by omega) (by omega) hx
        simp only [Option.map_some, Option.isSome_some, true_and, edge]
        grind
  omega

end Retag

end Cyanea.Math.Segments
