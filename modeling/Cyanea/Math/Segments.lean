/-
# Finite maps made of tagged segments

A finite map whose keys come in long runs is kept as a list of half-open
segments, each with one tag for all its keys. This module develops the four
operations such a list needs: filling the gaps of a range, cutting at a key,
retagging or erasing what lies inside a range, and coalescing neighbours that
carry one tag.

Nothing here refers to a machine. Keys form an arbitrary linear order and tags
are arbitrary. Every operation is specified through `lookup`, so two lists can
be compared by what they say about each key; `eq_of_lookup_eq` shows that an
ordered and fully coalesced list is determined by that.
-/

import Mathlib.Algebra.GroupWithZero.Nat
import Mathlib.Data.List.Chain
import Mathlib.Order.Lattice

namespace Cyanea.Math

universe uk ua

/-- A half-open run of keys `[lo, hi)` that share one tag. -/
structure Segment (K : Type uk) (α : Type ua) where
  lo : K
  hi : K
  tag : α
  deriving DecidableEq, Repr

namespace Segment

variable {K : Type uk} {α : Type ua} [LinearOrder K]

/-- The keys of a segment. -/
def Covers (s : Segment K α) (a : K) : Prop := s.lo ≤ a ∧ a < s.hi

instance (s : Segment K α) (a : K) : Decidable (s.Covers a) :=
  inferInstanceAs (Decidable (_ ∧ _))

/-- The segment lies in the range `[b, e)`. -/
def Inside (b e : K) (s : Segment K α) : Prop := b ≤ s.lo ∧ s.hi ≤ e

instance (b e : K) (s : Segment K α) : Decidable (s.Inside b e) :=
  inferInstanceAs (Decidable (_ ∧ _))

/-- The second segment continues the first one with the same tag. -/
def Joins (s t : Segment K α) : Prop := s.hi = t.lo ∧ s.tag = t.tag

instance [DecidableEq α] (s t : Segment K α) : Decidable (s.Joins t) :=
  inferInstanceAs (Decidable (_ ∧ _))

/-- One segment in place of two that join. -/
def join (s t : Segment K α) : Segment K α := ⟨s.lo, t.hi, s.tag⟩

end Segment

namespace Segments

open Segment

variable {K : Type uk} {α : Type ua} [LinearOrder K]

/-! ## Ordered lists and what they map -/

/-- Every segment is inhabited and ends before the later ones begin. -/
def Ordered : List (Segment K α) → Prop
  | [] => True
  | s :: l => s.lo < s.hi ∧ (∀ t ∈ l, s.hi ≤ t.lo) ∧ Ordered l

/-- The tag of a key, if some segment covers it. -/
def lookup : List (Segment K α) → K → Option α
  | [], _ => none
  | s :: l, a => if s.Covers a then some s.tag else lookup l a

@[simp]
theorem lookup_nil (a : K) : lookup ([] : List (Segment K α)) a = none := rfl

@[simp]
theorem ordered_nil : Ordered ([] : List (Segment K α)) := trivial

theorem ordered_cons {s : Segment K α} {l : List (Segment K α)} :
    Ordered (s :: l) ↔ s.lo < s.hi ∧ (∀ t ∈ l, s.hi ≤ t.lo) ∧ Ordered l :=
  Iff.rfl

theorem Ordered.lo_lt_hi {l : List (Segment K α)} (h : Ordered l)
    {s : Segment K α} (hs : s ∈ l) : s.lo < s.hi := by
  induction l with
  | nil => simp at hs
  | cons t l ih =>
      rcases List.mem_cons.mp hs with rfl | hs
      · exact h.1
      · exact ih h.2.2 hs

theorem ordered_append {l₁ l₂ : List (Segment K α)} :
    Ordered (l₁ ++ l₂) ↔
      Ordered l₁ ∧ Ordered l₂ ∧ ∀ s ∈ l₁, ∀ t ∈ l₂, s.hi ≤ t.lo := by
  induction l₁ with
  | nil => simp
  | cons s l₁ ih =>
      simp only [List.cons_append, ordered_cons, ih, List.mem_append,
        List.forall_mem_cons]
      constructor
      · rintro ⟨hs, hle, h₁, h₂, hcross⟩
        exact ⟨⟨hs, fun t ht => hle t (.inl ht), h₁⟩, h₂,
          fun t ht => hle t (.inr ht), hcross⟩
      · rintro ⟨⟨hs, hle, h₁⟩, h₂, hle', hcross⟩
        exact ⟨hs, fun t ht => ht.elim (hle t) (hle' t), h₁, h₂, hcross⟩

/-- Nothing is mapped below a common lower bound of the segments. -/
theorem lookup_eq_none_of_lt {l : List (Segment K α)} {a c : K}
    (hle : ∀ t ∈ l, c ≤ t.lo) (ha : a < c) : lookup l a = none := by
  induction l with
  | nil => rfl
  | cons s l ih =>
      have hs : ¬ s.Covers a := fun hcov =>
        absurd (hle s (by simp)) (not_le.mpr (hcov.1.trans_lt ha))
      rw [lookup, if_neg hs]
      exact ih fun t ht => hle t (by simp [ht])

theorem lookup_append (l₁ l₂ : List (Segment K α)) (a : K) :
    lookup (l₁ ++ l₂) a = (lookup l₁ a).or (lookup l₂ a) := by
  induction l₁ with
  | nil => simp
  | cons s l₁ ih =>
      by_cases hs : s.Covers a <;> simp [lookup, hs, ih]

/-- In an ordered list the segment that covers a key decides its tag. -/
theorem lookup_eq_some_iff {l : List (Segment K α)} (h : Ordered l) {a : K} {x : α} :
    lookup l a = some x ↔ ∃ s ∈ l, s.Covers a ∧ s.tag = x := by
  induction l with
  | nil => simp
  | cons s l ih =>
      rw [lookup, List.exists_mem_cons_iff]
      by_cases hs : s.Covers a
      · have hrest : ¬ ∃ t ∈ l, t.Covers a ∧ t.tag = x := by
          rintro ⟨t, ht, hcov, _⟩
          exact absurd (hs.2.trans_le (h.2.1 t ht)) (not_lt.mpr hcov.1)
        simp [hs, hrest]
      · simp [hs, ih h.2.2]

theorem lookup_isSome_iff {l : List (Segment K α)} {a : K} :
    (lookup l a).isSome ↔ ∃ s ∈ l, s.Covers a := by
  induction l with
  | nil => simp
  | cons s l ih => by_cases hs : s.Covers a <;> simp [lookup, hs, ih]

/-! ## Filling the gaps of a range -/

/-- Give every key of `[b, e)` that has no tag yet the tag `x`. -/
def fill (b e : K) (x : α) : List (Segment K α) → List (Segment K α)
  | [] => if b < e then [⟨b, e, x⟩] else []
  | s :: l =>
      if e ≤ s.lo then
        if b < e then ⟨b, e, x⟩ :: s :: l else s :: l
      else if s.hi ≤ b then s :: fill b e x l
      else if b < s.lo then ⟨b, s.lo, x⟩ :: s :: fill s.hi e x l
      else s :: fill s.hi e x l

/-- An empty range has no gaps. -/
theorem fill_eq_self {b e : K} {x : α} {l : List (Segment K α)} (h : Ordered l)
    (heb : e ≤ b) : fill b e x l = l := by
  induction l generalizing b with
  | nil => rw [fill, if_neg (not_lt.mpr heb)]
  | cons s l ih =>
      rw [fill]
      split_ifs with he hbe hsb hbs
      · exact absurd hbe (not_lt.mpr heb)
      · rfl
      · rw [ih h.2.2 heb]
      · exact absurd (heb.trans hbs.le) he
      · rw [ih h.2.2 (heb.trans (not_le.mp hsb).le)]

theorem le_lo_of_mem_fill {b e c : K} {x : α} {l : List (Segment K α)}
    (hle : ∀ s ∈ l, c ≤ s.lo) (hb : c ≤ b) (hl : Ordered l) :
    ∀ t ∈ fill b e x l, c ≤ t.lo := by
  induction l generalizing b with
  | nil =>
      intro t ht
      rw [fill] at ht
      split at ht
      · rw [List.mem_singleton.mp ht]
        exact hb
      · simp at ht
  | cons s l ih =>
      obtain ⟨hs, hle'⟩ := List.forall_mem_cons.mp hle
      have hrec : ∀ b', c ≤ b' → ∀ t ∈ fill b' e x l, c ≤ t.lo := fun b' hb' =>
        ih hle' hb' hl.2.2
      have hhi : c ≤ s.hi := hs.trans hl.1.le
      rw [fill]
      split_ifs with he hbe hsb hbs
      · exact List.forall_mem_cons.mpr ⟨hb, hle⟩
      · exact hle
      · exact List.forall_mem_cons.mpr ⟨hs, hrec b hb⟩
      · exact List.forall_mem_cons.mpr
          ⟨hb, List.forall_mem_cons.mpr ⟨hs, hrec s.hi hhi⟩⟩
      · exact List.forall_mem_cons.mpr ⟨hs, hrec s.hi hhi⟩

theorem Ordered.fill {b e : K} {x : α} {l : List (Segment K α)} (h : Ordered l) :
    Ordered (fill b e x l) := by
  induction l generalizing b with
  | nil =>
      rw [Segments.fill]
      split
      · exact ⟨‹_›, by simp, trivial⟩
      · trivial
  | cons s l ih =>
      obtain ⟨hs, hle, hl⟩ := h
      have hrest : Ordered (s :: Segments.fill s.hi e x l) :=
        ⟨hs, le_lo_of_mem_fill hle le_rfl hl, ih hl⟩
      rw [Segments.fill]
      split_ifs with he hbe hsb hbs
      · refine ⟨hbe, ?_, hs, hle, hl⟩
        exact List.forall_mem_cons.mpr
          ⟨he, fun t ht => he.trans (hs.le.trans (hle t ht))⟩
      · exact ⟨hs, hle, hl⟩
      · exact ⟨hs, le_lo_of_mem_fill hle hsb hl, ih hl⟩
      · refine ⟨hbs, ?_, hrest⟩
        exact List.forall_mem_cons.mpr
          ⟨le_rfl, fun t ht => hs.le.trans (hrest.2.1 t ht)⟩
      · exact hrest

/-- Filling keeps every tag that is there and adds `x` in the gaps of the range. -/
theorem lookup_fill {b e : K} {x : α} {l : List (Segment K α)} (h : Ordered l) (a : K) :
    lookup (fill b e x l) a = (lookup l a).or (lookup [⟨b, e, x⟩] a) := by
  induction l generalizing b with
  | nil =>
      rw [fill]
      split
      · rfl
      · simp only [lookup, Covers]
        grind
  | cons s l ih =>
      obtain ⟨hs, hle, hl⟩ := h
      have hbelow : a < s.lo → lookup l a = none := fun ha =>
        lookup_eq_none_of_lt hle (ha.trans hs)
      rw [fill]
      split_ifs with he hbe hsb hbs
      all_goals
        simp only [lookup, ih hl, Covers]
        grind

/-! ## Cutting at a key -/

/-- Cut the segment that has `c` in its interior, if there is one. -/
def splitAt (c : K) : List (Segment K α) → List (Segment K α)
  | [] => []
  | s :: l =>
      if s.lo < c ∧ c < s.hi then ⟨s.lo, c, s.tag⟩ :: ⟨c, s.hi, s.tag⟩ :: l
      else s :: splitAt c l

/-- Cut at both ends of a range. -/
def isolate (b e : K) (l : List (Segment K α)) : List (Segment K α) :=
  splitAt e (splitAt b l)

theorem le_lo_of_mem_splitAt {c d : K} {l : List (Segment K α)}
    (hle : ∀ s ∈ l, d ≤ s.lo) : ∀ t ∈ splitAt c l, d ≤ t.lo := by
  induction l with
  | nil => simp [splitAt]
  | cons s l ih =>
      obtain ⟨hs, hle'⟩ := List.forall_mem_cons.mp hle
      rw [splitAt]
      split_ifs with hc
      · exact List.forall_mem_cons.mpr ⟨hs, List.forall_mem_cons.mpr
          ⟨hs.trans hc.1.le, hle'⟩⟩
      · exact List.forall_mem_cons.mpr ⟨hs, ih hle'⟩

theorem Ordered.splitAt {c : K} {l : List (Segment K α)} (h : Ordered l) :
    Ordered (splitAt c l) := by
  induction l with
  | nil => trivial
  | cons s l ih =>
      obtain ⟨hs, hle, hl⟩ := h
      rw [Segments.splitAt]
      split_ifs with hc
      · refine ⟨hc.1, ?_, hc.2, hle, hl⟩
        exact List.forall_mem_cons.mpr ⟨le_rfl, fun t ht => hc.2.le.trans (hle t ht)⟩
      · exact ⟨hs, le_lo_of_mem_splitAt hle, ih hl⟩

theorem Ordered.isolate {b e : K} {l : List (Segment K α)} (h : Ordered l) :
    Ordered (isolate b e l) :=
  h.splitAt.splitAt

/-- A cut changes no key. -/
@[simp]
theorem lookup_splitAt (c : K) (l : List (Segment K α)) (a : K) :
    lookup (splitAt c l) a = lookup l a := by
  induction l with
  | nil => rfl
  | cons s l ih =>
      rw [splitAt]
      split_ifs with hc
      · simp only [lookup, Covers]
        grind
      · simp only [lookup, ih]

@[simp]
theorem lookup_isolate (b e : K) (l : List (Segment K α)) (a : K) :
    lookup (isolate b e l) a = lookup l a := by
  rw [isolate, lookup_splitAt, lookup_splitAt]

/-- A cut in front of the list changes nothing. -/
theorem splitAt_eq_self {c : K} {l : List (Segment K α)} (h : ∀ s ∈ l, c ≤ s.lo) :
    splitAt c l = l := by
  induction l with
  | nil => rfl
  | cons s l ih =>
      obtain ⟨hs, hl⟩ := List.forall_mem_cons.mp h
      rw [splitAt, if_neg fun hc => absurd hc.1 (not_lt.mpr hs), ih hl]

/-- A cut that shows has a segment behind it. -/
theorem splitAt_eq_self_of_lt {c : K} {l : List (Segment K α)}
    (h : ∀ s ∈ splitAt c l, s.lo < c) : splitAt c l = l := by
  induction l with
  | nil => rfl
  | cons s l ih =>
      rw [splitAt] at h ⊢
      split_ifs at h ⊢ with hc
      · exact absurd (h ⟨c, s.hi, s.tag⟩ (by simp)) (lt_irrefl _)
      · rw [ih fun t ht => h t (by simp [ht])]

theorem length_splitAt_le (c : K) (l : List (Segment K α)) :
    (splitAt c l).length ≤ l.length + 1 := by
  induction l with
  | nil => simp [splitAt]
  | cons s l ih =>
      rw [splitAt]
      split_ifs
      · simp
      · simpa using ih

theorem le_length_splitAt (c : K) (l : List (Segment K α)) :
    l.length ≤ (splitAt c l).length := by
  induction l with
  | nil => exact le_rfl
  | cons s l ih =>
      rw [splitAt]
      split_ifs
      · exact Nat.le_succ _
      · exact Nat.succ_le_succ ih

theorem le_length_isolate (b e : K) (l : List (Segment K α)) :
    l.length ≤ (isolate b e l).length :=
  (le_length_splitAt b l).trans (le_length_splitAt e _)

theorem length_isolate_le (b e : K) (l : List (Segment K α)) :
    (isolate b e l).length ≤ l.length + 2 :=
  (length_splitAt_le e _).trans (Nat.succ_le_succ (length_splitAt_le b l))

/-- After a cut no segment has the key in its interior. -/
theorem not_interior_splitAt {c : K} {l : List (Segment K α)} (h : Ordered l) :
    ∀ s ∈ splitAt c l, ¬ (s.lo < c ∧ c < s.hi) := by
  induction l with
  | nil => simp [splitAt]
  | cons s l ih =>
      obtain ⟨hs, hle, hl⟩ := h
      rw [splitAt]
      split_ifs with hc
      · refine List.forall_mem_cons.mpr ⟨fun hin => lt_irrefl _ hin.2,
          List.forall_mem_cons.mpr ⟨fun hin => lt_irrefl _ hin.1, fun t ht hin => ?_⟩⟩
        exact absurd (hin.1.trans hc.2) (not_lt.mpr (hle t ht))
      · exact List.forall_mem_cons.mpr ⟨hc, ih hl⟩

/-- A cut makes no new interior. -/
theorem not_interior_splitAt_of_not_interior {c d : K} {l : List (Segment K α)}
    (h : ∀ s ∈ l, ¬ (s.lo < d ∧ d < s.hi)) :
    ∀ s ∈ splitAt c l, ¬ (s.lo < d ∧ d < s.hi) := by
  induction l with
  | nil => simp [splitAt]
  | cons s l ih =>
      obtain ⟨hs, hl⟩ := List.forall_mem_cons.mp h
      rw [splitAt]
      split_ifs with hc
      · exact List.forall_mem_cons.mpr ⟨fun hin => hs ⟨hin.1, hin.2.trans hc.2⟩,
          List.forall_mem_cons.mpr ⟨fun hin => hs ⟨hc.1.trans hin.1, hin.2⟩, hl⟩⟩
      · exact List.forall_mem_cons.mpr ⟨hs, ih hl⟩

/-- After both cuts a segment lies before, inside or behind the range. -/
theorem mem_isolate_cases {b e : K} {l : List (Segment K α)} (h : Ordered l)
    {s : Segment K α} (hs : s ∈ isolate b e l) :
    s.hi ≤ b ∨ e ≤ s.lo ∨ s.Inside b e := by
  have hb := not_interior_splitAt_of_not_interior (not_interior_splitAt h) s hs
  have he := not_interior_splitAt h.splitAt s hs
  have hlt := h.isolate.lo_lt_hi hs
  simp only [Inside]
  grind

/-! ## Retagging and erasing inside a range -/

/-- Change the tags of the segments that lie inside the range. -/
def retag (b e : K) (f : α → α) (l : List (Segment K α)) : List (Segment K α) :=
  l.map fun s => if s.Inside b e then { s with tag := f s.tag } else s

/-- Drop the segments that lie inside the range. -/
def erase (b e : K) (l : List (Segment K α)) : List (Segment K α) :=
  l.filter fun s => ¬ s.Inside b e

/-- No segment straddles an end of the range. -/
def Aligned (b e : K) (l : List (Segment K α)) : Prop :=
  ∀ s ∈ l, s.hi ≤ b ∨ e ≤ s.lo ∨ s.Inside b e

theorem Ordered.aligned_isolate {b e : K} {l : List (Segment K α)} (h : Ordered l) :
    Aligned b e (Segments.isolate b e l) :=
  fun _ hs => mem_isolate_cases h hs

theorem Ordered.retag {b e : K} {f : α → α} {l : List (Segment K α)} (h : Ordered l) :
    Ordered (retag b e f l) := by
  induction l with
  | nil => trivial
  | cons s l ih =>
      obtain ⟨hs, hle, hl⟩ := h
      refine ⟨by dsimp only; split <;> exact hs, ?_, ih hl⟩
      intro t ht
      obtain ⟨u, hu, rfl⟩ := List.mem_map.mp ht
      have hsu := hle u hu
      dsimp only
      split <;> split <;> exact hsu

theorem Ordered.erase {b e : K} {l : List (Segment K α)} (h : Ordered l) :
    Ordered (erase b e l) := by
  induction l with
  | nil => trivial
  | cons s l ih =>
      obtain ⟨hs, hle, hl⟩ := h
      rw [Segments.erase, List.filter_cons]
      split
      · exact ⟨hs, fun t ht => hle t (List.mem_of_mem_filter ht), ih hl⟩
      · exact ih hl

/-- Retagging acts on exactly the keys of the range. -/
theorem lookup_retag {b e : K} {f : α → α} {l : List (Segment K α)} (h : Ordered l)
    (halign : Aligned b e l) (a : K) :
    lookup (retag b e f l) a =
      if b ≤ a ∧ a < e then (lookup l a).map f else lookup l a := by
  induction l with
  | nil => simp [retag]
  | cons s l ih =>
      obtain ⟨hs, hcases⟩ := List.forall_mem_cons.mp halign
      have hlt := h.1
      have hrec := ih h.2.2 hcases
      rw [retag, List.map_cons, lookup, ← retag, hrec]
      simp only [lookup, Covers, Inside] at hs ⊢
      grind

/-- Erasing unmaps exactly the keys of the range. -/
theorem lookup_erase {b e : K} {l : List (Segment K α)} (h : Ordered l)
    (halign : Aligned b e l) (a : K) :
    lookup (erase b e l) a = if b ≤ a ∧ a < e then none else lookup l a := by
  induction l with
  | nil => simp [erase]
  | cons s l ih =>
      obtain ⟨hs, hcases⟩ := List.forall_mem_cons.mp halign
      have hlt := h.1
      have hrec := ih h.2.2 hcases
      rw [erase, List.filter_cons, ← erase]
      split
      · simp only [lookup, hrec, Covers, Inside] at *
        grind
      · simp only [lookup, hrec, Covers, Inside] at *
        grind

/-- The segments lie before the range, inside it and behind it. -/
structure Parts (b e : K) (before inside behind : List (Segment K α)) : Prop where
  before_le : ∀ s ∈ before, s.hi ≤ b
  inside : ∀ s ∈ inside, s.Inside b e
  le_behind : ∀ s ∈ behind, e ≤ s.lo

section Parts

variable {b e : K} {before inside behind : List (Segment K α)}

theorem Parts.not_inside_of_before (p : Parts b e before inside behind)
    (h : Ordered (before ++ inside ++ behind)) {s : Segment K α} (hs : s ∈ before) :
    ¬ s.Inside b e := fun hin =>
  absurd ((h.lo_lt_hi (by simp [hs])).trans_le (p.before_le s hs)) (not_lt.mpr hin.1)

theorem Parts.not_inside_of_behind (p : Parts b e before inside behind)
    (h : Ordered (before ++ inside ++ behind)) {s : Segment K α} (hs : s ∈ behind) :
    ¬ s.Inside b e := fun hin =>
  absurd ((p.le_behind s hs).trans_lt (h.lo_lt_hi (by simp [hs]))) (not_lt.mpr hin.2)

theorem retag_parts (p : Parts b e before inside behind)
    (h : Ordered (before ++ inside ++ behind)) (f : α → α) :
    retag b e f (before ++ inside ++ behind) =
      before ++ inside.map (fun s => { s with tag := f s.tag }) ++ behind := by
  have hbefore : before.map (fun s => if s.Inside b e then { s with tag := f s.tag } else s) =
      before.map id :=
    List.map_congr_left fun s hs => if_neg (p.not_inside_of_before h hs)
  have hbehind : behind.map (fun s => if s.Inside b e then { s with tag := f s.tag } else s) =
      behind.map id :=
    List.map_congr_left fun s hs => if_neg (p.not_inside_of_behind h hs)
  have hinside : inside.map (fun s => if s.Inside b e then { s with tag := f s.tag } else s) =
      inside.map fun s => { s with tag := f s.tag } :=
    List.map_congr_left fun s hs => if_pos (p.inside s hs)
  rw [retag, List.map_append, List.map_append, hbefore, hbehind, hinside, List.map_id,
    List.map_id]

theorem erase_parts (p : Parts b e before inside behind)
    (h : Ordered (before ++ inside ++ behind)) :
    erase b e (before ++ inside ++ behind) = before ++ behind := by
  have hbefore : before.filter (fun s => ¬ s.Inside b e) = before :=
    List.filter_eq_self.mpr fun s hs => by simpa using p.not_inside_of_before h hs
  have hbehind : behind.filter (fun s => ¬ s.Inside b e) = behind :=
    List.filter_eq_self.mpr fun s hs => by simpa using p.not_inside_of_behind h hs
  have hinside : inside.filter (fun s => ¬ s.Inside b e) = [] :=
    List.filter_eq_nil_iff.mpr fun s hs => by simpa using p.inside s hs
  rw [erase, List.filter_append, List.filter_append, hbefore, hbehind, hinside,
    List.append_nil]

end Parts

/-! ## Coalescing -/

/-- Put a segment in front of a list, absorbing the segments it joins. -/
def absorb [DecidableEq α] (s : Segment K α) : List (Segment K α) → List (Segment K α)
  | [] => [s]
  | t :: l => if s.Joins t then absorb (s.join t) l else s :: absorb t l

/-- Replace every maximal run of joining segments by one segment. -/
def coalesce [DecidableEq α] : List (Segment K α) → List (Segment K α)
  | [] => []
  | s :: l => absorb s l

/-- No segment joins the next one. -/
def Merged (l : List (Segment K α)) : Prop := l.IsChain fun s t => ¬ s.Joins t

section Coalesce

variable [DecidableEq α]

/-- Absorbing moves only the upper end of the segment in front. -/
theorem absorb_eq_cons (s : Segment K α) (l : List (Segment K α)) :
    ∃ hi rest, absorb s l = ⟨s.lo, hi, s.tag⟩ :: rest := by
  induction l generalizing s with
  | nil => exact ⟨s.hi, [], rfl⟩
  | cons t l ih =>
      rw [absorb]
      split
      · exact ih (s.join t)
      · exact ⟨s.hi, absorb t l, rfl⟩

theorem le_lo_of_mem_absorb {c : K} {s : Segment K α} {l : List (Segment K α)}
    (hs : c ≤ s.lo) (hle : ∀ t ∈ l, c ≤ t.lo) : ∀ t ∈ absorb s l, c ≤ t.lo := by
  induction l generalizing s with
  | nil => simpa [absorb] using hs
  | cons t l ih =>
      obtain ⟨ht, hl⟩ := List.forall_mem_cons.mp hle
      rw [absorb]
      split
      · exact ih (s := s.join t) hs hl
      · exact List.forall_mem_cons.mpr ⟨hs, ih ht hl⟩

theorem Ordered.absorb {s : Segment K α} {l : List (Segment K α)}
    (h : Ordered (s :: l)) : Ordered (absorb s l) := by
  induction l generalizing s with
  | nil => exact h
  | cons t l ih =>
      obtain ⟨hs, hle, ht, hle', hl⟩ := h
      rw [Segments.absorb]
      split
      · rename_i hjoin
        exact ih ⟨hs.trans (hjoin.1 ▸ ht), hle', hl⟩
      · refine ⟨hs, le_lo_of_mem_absorb (hle t (by simp)) fun u hu => ?_, ih ⟨ht, hle', hl⟩⟩
        exact hle u (by simp [hu])

theorem Ordered.coalesce {l : List (Segment K α)} (h : Ordered l) :
    Ordered (coalesce l) := by
  cases l with
  | nil => trivial
  | cons s l => exact h.absorb

theorem lookup_absorb {s : Segment K α} {l : List (Segment K α)}
    (h : Ordered (s :: l)) (a : K) : lookup (absorb s l) a = lookup (s :: l) a := by
  induction l generalizing s with
  | nil => rfl
  | cons t l ih =>
      obtain ⟨hs, hle, ht, hle', hl⟩ := h
      rw [absorb]
      split
      · rename_i hjoin
        have hlt : s.lo < (s.join t).hi := hs.trans (hjoin.1 ▸ ht)
        rw [ih (s := s.join t) ⟨hlt, hle', hl⟩]
        simp only [lookup, Covers, join, Joins] at hjoin ⊢
        grind
      · rw [lookup, ih ⟨ht, hle', hl⟩]
        rfl

/-- Coalescing changes no key. -/
theorem lookup_coalesce {l : List (Segment K α)} (h : Ordered l) (a : K) :
    lookup (coalesce l) a = lookup l a := by
  cases l with
  | nil => rfl
  | cons s l => exact lookup_absorb h a

theorem merged_absorb (s : Segment K α) (l : List (Segment K α)) :
    Merged (absorb s l) := by
  induction l generalizing s with
  | nil => exact .singleton _
  | cons t l ih =>
      rw [absorb]
      split
      · exact ih _
      · rename_i hjoin
        obtain ⟨hi, rest, heq⟩ := absorb_eq_cons t l
        have htail := ih t
        rw [heq] at htail ⊢
        exact List.isChain_cons_cons.mpr ⟨hjoin, htail⟩

theorem merged_coalesce (l : List (Segment K α)) : Merged (coalesce l) := by
  cases l with
  | nil => exact .nil
  | cons s l => exact merged_absorb s l

/-- A merged list has nothing to absorb. -/
theorem absorb_eq_self {s : Segment K α} {l : List (Segment K α)}
    (h : Merged (s :: l)) : absorb s l = s :: l := by
  induction l generalizing s with
  | nil => rfl
  | cons t l ih =>
      obtain ⟨hst, htl⟩ := List.isChain_cons_cons.mp h
      rw [absorb, if_neg hst, ih htl]

theorem coalesce_eq_self {l : List (Segment K α)} (h : Merged l) : coalesce l = l := by
  cases l with
  | nil => rfl
  | cons s l => exact absorb_eq_self h

end Coalesce

/-! ## A bounded scan

Coalescing need not look at the whole list: when only a few neighbours can
join, a scan over the pairs around them does the same. -/

/-- Compare `k` successive pairs and join those that do. -/
def scan [DecidableEq α] : ℕ → List (Segment K α) → List (Segment K α)
  | _, [] => []
  | _, [s] => [s]
  | 0, s :: t :: l => s :: t :: l
  | k + 1, s :: t :: l =>
      if s.Joins t then scan k (s.join t :: l) else s :: scan k (t :: l)

omit [LinearOrder K] in
/-- Whether a segment joins the rest of a list depends on its upper end and tag
only. -/
theorem merged_cons_congr {s t : Segment K α} {l : List (Segment K α)}
    (hhi : s.hi = t.hi) (htag : s.tag = t.tag) : Merged (s :: l) ↔ Merged (t :: l) := by
  cases l with
  | nil => simp [Merged]
  | cons u l => simp [Merged, Joins, hhi, htag]

/-- The scan coalesces a list that is merged behind the pairs it looks at. -/
theorem scan_eq_absorb [DecidableEq α] {k : ℕ} {s : Segment K α}
    {l : List (Segment K α)} (h : Merged ((s :: l).drop k)) :
    scan k (s :: l) = absorb s l := by
  induction k generalizing s l with
  | zero =>
      rw [absorb_eq_self h]
      cases l <;> rfl
  | succ k ih =>
      cases l with
      | nil => rfl
      | cons t l =>
          rw [scan, absorb]
          split
          · rename_i hjoin
            apply ih
            cases k with
            | zero =>
                exact (merged_cons_congr (s := s.join t) (t := t) rfl hjoin.2).mpr h
            | succ k => exact h
          · rw [ih h]

/-- Coalescing leaves a merged prefix alone. -/
theorem coalesce_append [DecidableEq α] {l₁ : List (Segment K α)} {s : Segment K α}
    {l₂ : List (Segment K α)} (h : Merged (l₁ ++ [s])) :
    coalesce (l₁ ++ s :: l₂) = l₁ ++ absorb s l₂ := by
  induction l₁ with
  | nil => rfl
  | cons t l₁ ih =>
      have htail := ih h.tail
      cases l₁ with
      | nil =>
          have hts : ¬ t.Joins s := (List.isChain_cons_cons.mp h).1
          simp only [List.cons_append, List.nil_append, coalesce, absorb, if_neg hts]
      | cons u l₁ =>
          have htu : ¬ t.Joins u := (List.isChain_cons_cons.mp h).1
          rw [List.cons_append, List.cons_append, coalesce, absorb, if_neg htu,
            List.cons_append, ← htail]
          rfl

/-! ## Canonical lists -/

/-- The first key of an ordered list carries the first tag. -/
theorem lookup_lo {s : Segment K α} {l : List (Segment K α)} (h : Ordered (s :: l)) :
    lookup (s :: l) s.lo = some s.tag := by
  have hs : s.Covers s.lo := ⟨le_rfl, h.1⟩
  rw [lookup, if_pos hs]

/-- A list is merged exactly if the key just behind a segment never carries the
segment's tag. -/
theorem merged_iff_lookup_hi_ne {l : List (Segment K α)} (h : Ordered l) :
    Merged l ↔ ∀ s ∈ l, lookup l s.hi ≠ some s.tag := by
  induction l with
  | nil => simp [Merged]
  | cons s l ih =>
      have hout : ∀ t ∈ l, lookup (s :: l) t.hi = lookup l t.hi := fun t ht => by
        have hs : ¬ s.Covers t.hi := fun hcov => absurd
          ((h.2.1 t ht).trans (h.2.2.lo_lt_hi ht).le) (not_le.mpr hcov.2)
        rw [lookup, if_neg hs]
      have hhi : lookup (s :: l) s.hi = lookup l s.hi := by
        have hs : ¬ s.Covers s.hi := fun hcov => lt_irrefl _ hcov.2
        rw [lookup, if_neg hs]
      have hrest : (∀ t ∈ l, lookup (s :: l) t.hi ≠ some t.tag) ↔ Merged l := by
        rw [ih h.2.2]
        exact forall₂_congr fun t ht => by rw [hout t ht]
      rw [List.forall_mem_cons, hrest, hhi]
      cases l with
      | nil => simp [Merged]
      | cons t l =>
          rw [Merged, List.isChain_cons_cons, ← Merged]
          refine and_congr_left fun _ => not_congr ?_
          obtain ⟨-, hle, ht, hle', -⟩ := h
          constructor
          · rintro ⟨hlo, htag⟩
            have hcov : t.Covers s.hi := ⟨hlo.ge, hlo ▸ ht⟩
            rw [lookup, if_pos hcov, htag]
          · intro hsome
            rw [lookup] at hsome
            split at hsome
            · rename_i hcov
              exact ⟨le_antisymm (hle t (by simp)) hcov.1, by simpa using hsome.symm⟩
            · have hlt : s.hi < t.hi := (hle t (by simp)).trans_lt ht
              rw [lookup_eq_none_of_lt hle' hlt] at hsome
              simp at hsome

/-- A segment of a cut list ends at the cut or where an old segment with its tag
ends. -/
theorem exists_of_mem_splitAt {c : K} {l : List (Segment K α)} {s : Segment K α}
    (hs : s ∈ splitAt c l) : ∃ o ∈ l, o.tag = s.tag ∧ (s.hi = o.hi ∨ s.hi = c) := by
  induction l with
  | nil => simp [splitAt] at hs
  | cons o l ih =>
      rw [splitAt] at hs
      split at hs
      · simp only [List.mem_cons] at hs
        rcases hs with rfl | rfl | hs
        · exact ⟨o, by simp, rfl, .inr rfl⟩
        · exact ⟨o, by simp, rfl, .inl rfl⟩
        · exact ⟨s, by simp [hs], rfl, .inl rfl⟩
      · rcases List.mem_cons.mp hs with rfl | hs
        · exact ⟨s, by simp, rfl, .inl rfl⟩
        · obtain ⟨u, hu, htag, hhi⟩ := ih hs
          exact ⟨u, by simp [hu], htag, hhi⟩

/-- Erasing a range from a merged list leaves a merged list. -/
theorem Merged.erase_isolate {b e : K} {l : List (Segment K α)} (h : Ordered l)
    (m : Merged l) (hbe : b < e) : Merged (erase b e (isolate b e l)) := by
  have halign := h.aligned_isolate (b := b) (e := e)
  rw [merged_iff_lookup_hi_ne h.isolate.erase]
  rw [merged_iff_lookup_hi_ne h] at m
  intro s hs
  obtain ⟨hmem, hout⟩ := List.mem_filter.mp hs
  rw [lookup_erase h.isolate halign, lookup_isolate]
  split
  · simp
  · rename_i hrange
    obtain ⟨u, hu, hutag, huhi⟩ := exists_of_mem_splitAt hmem
    obtain ⟨o, ho, hotag, hohi⟩ := exists_of_mem_splitAt hu
    have hlt := h.isolate.lo_lt_hi hmem
    have hcases := halign s hmem
    have hhi : s.hi = o.hi := by
      simp only [Inside] at hout hcases
      grind
    rw [hhi, ← hutag, ← hotag]
    exact m o ho

private theorem lo_le_of_lookup_eq {s t : Segment K α} {l₁ l₂ : List (Segment K α)}
    (h₁ : Ordered (s :: l₁)) (h₂ : Ordered (t :: l₂))
    (heq : ∀ a, lookup (s :: l₁) a = lookup (t :: l₂) a) : t.lo ≤ s.lo := by
  by_contra hlt
  have hnone : lookup (t :: l₂) s.lo = none :=
    lookup_eq_none_of_lt (List.forall_mem_cons.mpr
      ⟨le_rfl, fun u hu => h₂.1.le.trans (h₂.2.1 u hu)⟩) (not_le.mp hlt)
  rw [← heq, lookup_lo h₁] at hnone
  simp at hnone

private theorem hi_le_of_lookup_eq {s t : Segment K α} {l₁ l₂ : List (Segment K α)}
    (h₁ : Ordered (s :: l₁)) (m₁ : Merged (s :: l₁)) (hlo : t.lo = s.lo)
    (htag : t.tag = s.tag) (heq : ∀ a, lookup (s :: l₁) a = lookup (t :: l₂) a) :
    t.hi ≤ s.hi := by
  by_contra hlt
  have hcov : t.Covers s.hi := ⟨hlo ▸ h₁.1.le, not_le.mp hlt⟩
  apply (merged_iff_lookup_hi_ne h₁).mp m₁ s (by simp)
  rw [heq, lookup, if_pos hcov, htag]

/-- An ordered list with no two joining neighbours is determined by what it
maps. -/
theorem eq_of_lookup_eq {l₁ l₂ : List (Segment K α)} (h₁ : Ordered l₁)
    (h₂ : Ordered l₂) (m₁ : Merged l₁) (m₂ : Merged l₂)
    (heq : ∀ a, lookup l₁ a = lookup l₂ a) : l₁ = l₂ := by
  induction l₁ generalizing l₂ with
  | nil =>
      cases l₂ with
      | nil => rfl
      | cons t l₂ =>
          have := heq t.lo
          rw [lookup_lo h₂] at this
          simp at this
  | cons s l₁ ih =>
      cases l₂ with
      | nil =>
          have := heq s.lo
          rw [lookup_lo h₁] at this
          simp at this
      | cons t l₂ =>
          have hlo : s.lo = t.lo := le_antisymm
            (lo_le_of_lookup_eq h₂ h₁ fun a => (heq a).symm)
            (lo_le_of_lookup_eq h₁ h₂ heq)
          have htag : s.tag = t.tag := by
            have := heq s.lo
            rw [lookup_lo h₁, hlo, lookup_lo h₂] at this
            exact Option.some.inj this
          have hhi : s.hi = t.hi := le_antisymm
            (hi_le_of_lookup_eq h₂ m₂ hlo htag fun a => (heq a).symm)
            (hi_le_of_lookup_eq h₁ m₁ hlo.symm htag.symm heq)
          have hst : s = t := by
            cases s
            cases t
            simp_all
          subst hst
          congr 1
          refine ih h₁.2.2 h₂.2.2 m₁.tail m₂.tail fun a => ?_
          by_cases ha : a < s.hi
          · rw [lookup_eq_none_of_lt h₁.2.1 ha, lookup_eq_none_of_lt h₂.2.1 ha]
          · have hs : ¬ s.Covers a := fun hcov => ha hcov.2
            simpa only [lookup, if_neg hs] using heq a

/-! ## Lengths

Over the natural numbers the segments of a list have a total length. -/

/-- The number of keys the segments of an ordered list cover. -/
def total (l : List (Segment ℕ α)) : ℕ := (l.map fun s => s.hi - s.lo).sum

@[simp]
theorem total_nil : total ([] : List (Segment ℕ α)) = 0 := rfl

@[simp]
theorem total_cons (s : Segment ℕ α) (l : List (Segment ℕ α)) :
    total (s :: l) = s.hi - s.lo + total l := by
  simp [total]

theorem total_append (l₁ l₂ : List (Segment ℕ α)) : total (l₁ ++ l₂) = total l₁ + total l₂ := by
  rw [total, List.map_append, List.sum_append, ← total, ← total]

/-- A cut changes no length. -/
theorem total_splitAt (c : ℕ) (l : List (Segment ℕ α)) : total (splitAt c l) = total l := by
  induction l with
  | nil => rfl
  | cons s l ih =>
      rw [splitAt]
      split_ifs with hc
      · simp only [total_cons]
        omega
      · rw [total_cons, total_cons, ih]

theorem total_isolate (b e : ℕ) (l : List (Segment ℕ α)) : total (isolate b e l) = total l := by
  rw [isolate, total_splitAt, total_splitAt]

/-- Segments that start behind `c` and end before `d` have room between. -/
theorem Ordered.total_le {l : List (Segment ℕ α)} (h : Ordered l) {c d : ℕ}
    (hcd : c ≤ d) (hlo : ∀ s ∈ l, c ≤ s.lo) (hhi : ∀ s ∈ l, s.hi ≤ d) :
    c + total l ≤ d := by
  induction l generalizing c with
  | nil => simpa using hcd
  | cons s l ih =>
      obtain ⟨hs, hle, hl⟩ := h
      have hslo := hlo s (by simp)
      have hshi := hhi s (by simp)
      have hrest := ih hl hshi hle fun t ht => hhi t (by simp [ht])
      rw [total_cons]
      omega

end Segments

end Cyanea.Math
