/-
# The pieces of a range

Cutting a list of segments at both ends of a range leaves what lies before it, the parts
of the segments inside it, and what lies behind it. Each of the three is a function of the
original list.
-/

import Cyanea.Math.Segments
import Mathlib.Order.MinMax

namespace Cyanea.Math.Segments

open Segment

universe uk ua

variable {K : Type uk} {α : Type ua} [LinearOrder K] {b c e : K} {l : List (Segment K α)}

/-- The parts of the segments below `c`. -/
def below (c : K) (l : List (Segment K α)) : List (Segment K α) :=
  l.filterMap fun s => if s.lo < c then some ⟨s.lo, min s.hi c, s.tag⟩ else none

/-- The parts of the segments from `c` on. -/
def onward (c : K) (l : List (Segment K α)) : List (Segment K α) :=
  l.filterMap fun s => if c < s.hi then some ⟨max s.lo c, s.hi, s.tag⟩ else none

/-- The segment has a key in the range. -/
def Meets (b e : K) (s : Segment K α) : Prop := max s.lo b < min s.hi e

instance (b e : K) (s : Segment K α) : Decidable (Meets b e s) :=
  inferInstanceAs (Decidable (_ < _))

/-- The part of a segment in the range. -/
def clip (b e : K) (s : Segment K α) : Segment K α := ⟨max s.lo b, min s.hi e, s.tag⟩

theorem below_eq_nil (h : ∀ s ∈ l, c ≤ s.lo) : below c l = [] :=
  List.filterMap_eq_nil_iff.mpr fun s hs => if_neg (not_lt.mpr (h s hs))

theorem onward_eq_self (hl : Ordered l) (h : ∀ s ∈ l, c ≤ s.lo) : onward c l = l := by
  induction l with
  | nil => rfl
  | cons s l ih =>
      obtain ⟨hs, hrest⟩ := List.forall_mem_cons.mp h
      have htail := ih hl.2.2 hrest
      rw [onward] at htail ⊢
      rw [List.filterMap_cons, if_pos (hs.trans_lt hl.1), max_eq_left hs, htail]

theorem splitAt_eq_append (h : Ordered l) : splitAt c l = below c l ++ onward c l := by
  induction l with
  | nil => rfl
  | cons s l ih =>
      obtain ⟨hs, hle, hl⟩ := h
      have hrest := ih hl
      rw [splitAt]
      by_cases hlo : s.lo < c
      · by_cases hhi : c < s.hi
        · have hbehind : ∀ t ∈ l, c ≤ t.lo := fun t ht => hhi.le.trans (hle t ht)
          have hbelow := below_eq_nil hbehind
          have honward := onward_eq_self hl hbehind
          rw [below] at hbelow
          rw [onward] at honward
          rw [if_pos ⟨hlo, hhi⟩, below, onward, List.filterMap_cons, List.filterMap_cons,
            if_pos hlo, if_pos hhi, hbelow, honward, min_eq_right hhi.le, max_eq_right hlo.le]
          rfl
        · rw [below, onward] at hrest
          rw [if_neg (fun hc => hhi hc.2), hrest, below, onward, List.filterMap_cons,
            List.filterMap_cons, if_pos hlo, if_neg hhi, min_eq_left (not_lt.mp hhi)]
          rfl
      · have hbehind : ∀ t ∈ s :: l, c ≤ t.lo := List.forall_mem_cons.mpr
          ⟨not_lt.mp hlo, fun t ht => (not_lt.mp hlo).trans (hs.le.trans (hle t ht))⟩
        have hsame := onward_eq_self (ordered_cons.mpr ⟨hs, hle, hl⟩) hbehind
        rw [if_neg (fun hc => hlo hc.1), below_eq_nil hbehind, hsame, List.nil_append,
          splitAt_eq_self fun t ht => hbehind t (List.mem_cons_of_mem s ht)]

/-- The pieces inside the range are the parts of the segments that meet it. -/
theorem below_onward (h : Ordered l) :
    below e (onward b l) = (l.filter fun s => Meets b e s).map (clip b e) := by
  induction l with
  | nil => rfl
  | cons s l ih =>
      obtain ⟨hs, -, hl⟩ := h
      have hrest := ih hl
      have hmeets : Meets b e s ↔ b < s.hi ∧ max s.lo b < e := by
        rw [Meets, lt_min_iff, max_lt_iff]
        exact ⟨fun h => ⟨h.1.2, h.2⟩, fun h => ⟨⟨hs, h.1⟩, h.2⟩⟩
      rw [below, onward] at hrest ⊢
      rw [List.filterMap_cons, List.filter_cons]
      by_cases hb : b < s.hi
      · rw [if_pos hb, List.filterMap_cons]
        by_cases he : max s.lo b < e
        · rw [if_pos he, if_pos (decide_eq_true (hmeets.mpr ⟨hb, he⟩)), hrest, List.map_cons]
          rfl
        · rw [if_neg he, if_neg (by simp [hmeets, he]), hrest]
      · rw [if_neg hb, if_neg (by simp [hmeets, hb]), hrest]

theorem onward_onward (hbe : b ≤ e) : onward e (onward b l) = onward e l := by
  rw [onward, onward, onward, List.filterMap_filterMap]
  refine List.filterMap_congr fun s _ => ?_
  by_cases he : e < s.hi
  · rw [if_pos (hbe.trans_lt he), if_pos he, Option.bind_some, if_pos he, max_assoc,
      max_eq_right hbe]
  · rw [if_neg he]
    split_ifs
    · rw [Option.bind_some, if_neg he]
    · rfl

/-- What follows the range begins in the first segment that goes beyond it. -/
theorem head?_onward (e : K) (l : List (Segment K α)) :
    (onward e l).head? =
      (l.find? fun s => e < s.hi).map fun s => ⟨max s.lo e, s.hi, s.tag⟩ := by
  induction l with
  | nil => rfl
  | cons s l ih =>
      rw [onward] at ih ⊢
      rw [List.filterMap_cons, List.find?_cons]
      by_cases he : e < s.hi
      · rw [if_pos he, decide_eq_true he]
        rfl
      · rw [if_neg he, decide_eq_false he]
        exact ih

/-- The cuts at both ends of a range. -/
theorem isolate_eq_append (h : Ordered l) (hbe : b < e) :
    isolate b e l = below b l ++ (l.filter fun s => Meets b e s).map (clip b e) ++ onward e l := by
  have hcut := splitAt_eq_append h (c := b)
  have hordered : Ordered (below b l ++ onward b l) := hcut ▸ h.splitAt
  obtain ⟨hfirst, hsecond, -⟩ := ordered_append.mp hordered
  have hhi : ∀ s ∈ below b l, s.hi ≤ b := by
    intro s hs
    obtain ⟨t, -, ht⟩ := List.mem_filterMap.mp hs
    split at ht
    · obtain rfl := Option.some.inj ht
      exact min_le_right _ _
    · exact absurd ht nofun
  have hkeep : ∀ l' : List (Segment K α), (∀ s ∈ l', s.hi ≤ b) → ∀ r,
      splitAt e (l' ++ r) = l' ++ splitAt e r := by
    intro l' hl' r
    induction l' with
    | nil => rfl
    | cons s l' ih =>
        obtain ⟨hs, hrest⟩ := List.forall_mem_cons.mp hl'
        rw [List.cons_append, splitAt, if_neg fun hc => absurd hc.2 (not_lt.mpr (hs.trans hbe.le)),
          ih hrest, List.cons_append]
  rw [isolate, hcut, hkeep _ hhi, splitAt_eq_append hsecond, below_onward h,
    onward_onward hbe.le, List.append_assoc]

/-- A list is cut into the parts before, inside and behind a range in one way only. -/
theorem Parts.unique {before inside behind before' inside' behind' : List (Segment K α)}
    (hbe : b < e) (p : Parts b e before inside behind) (p' : Parts b e before' inside' behind')
    (h : Ordered (before ++ inside ++ behind))
    (heq : before ++ inside ++ behind = before' ++ inside' ++ behind') :
    inside = inside' ∧ behind = behind' := by
  have hfilter : ∀ {B I E : List (Segment K α)}, Parts b e B I E → Ordered (B ++ I ++ E) →
      (B ++ I ++ E).filter (fun s => s.Inside b e) = I ∧
        (B ++ I ++ E).filter (fun s => e ≤ s.lo) = E := by
    intro B I E q hord
    have hB : B.filter (fun s => s.Inside b e) = [] := List.filter_eq_nil_iff.mpr
      fun s hs => by simpa using q.not_inside_of_before hord hs
    have hI : I.filter (fun s => s.Inside b e) = I := List.filter_eq_self.mpr
      fun s hs => decide_eq_true (q.inside s hs)
    have hE : E.filter (fun s => s.Inside b e) = [] := List.filter_eq_nil_iff.mpr
      fun s hs => by simpa using q.not_inside_of_behind hord hs
    have hlt : ∀ s ∈ B ++ I, ¬ e ≤ s.lo := by
      intro s hs hle
      have hpos := hord.lo_lt_hi (List.mem_append_left E hs)
      rcases List.mem_append.mp hs with hs | hs
      · exact absurd (hbe.trans_le (hle.trans hpos.le)) (not_lt.mpr (q.before_le s hs))
      · exact absurd (hle.trans_lt hpos) (not_lt.mpr (q.inside s hs).2)
    have hBI : (B ++ I).filter (fun s => e ≤ s.lo) = [] := List.filter_eq_nil_iff.mpr
      fun s hs => by simpa using hlt s hs
    have hE' : E.filter (fun s => e ≤ s.lo) = E := List.filter_eq_self.mpr
      fun s hs => decide_eq_true (q.le_behind s hs)
    refine ⟨?_, ?_⟩
    · rw [List.filter_append, List.filter_append, hB, hI, hE, List.nil_append, List.append_nil]
    · rw [List.filter_append, hBI, hE', List.nil_append]
  obtain ⟨hinside, hbehind⟩ := hfilter p h
  obtain ⟨hinside', hbehind'⟩ := hfilter p' (heq ▸ h)
  rw [heq] at hinside hbehind
  exact ⟨hinside.symm.trans hinside', hbehind.symm.trans hbehind'⟩

/-- The parts of an isolated list. -/
theorem parts_isolate (b e : K) (l : List (Segment K α)) :
    Parts b e (below b l) ((l.filter fun s => Meets b e s).map (clip b e)) (onward e l) := by
  refine ⟨?_, ?_, ?_⟩
  · intro s hs
    obtain ⟨t, -, ht⟩ := List.mem_filterMap.mp hs
    split at ht
    · obtain rfl := Option.some.inj ht
      exact min_le_right _ _
    · exact absurd ht nofun
  · intro s hs
    obtain ⟨t, -, rfl⟩ := List.mem_map.mp hs
    exact ⟨le_max_right _ _, min_le_right _ _⟩
  · intro s hs
    obtain ⟨t, -, ht⟩ := List.mem_filterMap.mp hs
    split at ht
    · obtain rfl := Option.some.inj ht
      exact le_max_right _ _
    · exact absurd ht nofun

end Cyanea.Math.Segments
