/-
# Spans recorded at their first slot

Consecutive slots are handed out as spans, and only the first slot of a span
remembers its length. `Laid cap` says that such a record lays disjoint spans into
the first `cap` slots. A scan for a run of free slots counts the slots that
remember nothing and jumps over a span when it meets the first slot of one;
`Scanned` is its invariant. The first run the scan completes is free, and the scan
never passes a free run that is long enough.
-/

import Mathlib.Logic.Function.Basic
import Mathlib.Data.Nat.Notation

namespace Cyanea.Math.Spans

/-- What each slot remembers: a length, if a span begins there. -/
abbrev Record := ℕ → Option ℕ

variable {cap first count len slot i n start : ℕ} {r : Record}

/-- A span reaches over the slot. -/
def Record.Covers (r : Record) (slot : ℕ) : Prop :=
  ∃ first len, r first = some len ∧ first ≤ slot ∧ slot < first + len

/-- The spans are not empty, lie in the first `cap` slots, and do not overlap. -/
structure Laid (cap : ℕ) (r : Record) : Prop where
  pos : ∀ {first len}, r first = some len → 0 < len
  within : ∀ {first len}, r first = some len → first + len ≤ cap
  apart : ∀ {first len first' len'}, r first = some len → r first' = some len' →
    first < first' → first + len ≤ first'

/-- No span reaches into the run. -/
structure FreeRun (cap : ℕ) (r : Record) (first count : ℕ) : Prop where
  within : first + count ≤ cap
  free : ∀ slot, first ≤ slot → slot < first + count → ¬ r.Covers slot

theorem Laid.lt (h : Laid cap r) (hr : r first = some len) : first < cap := by
  have hpos := h.pos hr
  have hwithin := h.within hr
  omega

/-- Two spans that share a slot are the same. -/
theorem Laid.eq_of_shared (h : Laid cap r) {first' len' : ℕ} (hr : r first = some len)
    (hr' : r first' = some len') (hle : first ≤ slot) (hlt : slot < first + len)
    (hle' : first' ≤ slot) (hlt' : slot < first' + len') : first = first' := by
  rcases Nat.lt_trichotomy first first' with hless | heq | hmore
  · have hapart := h.apart hr hr' hless
    omega
  · exact heq
  · have hapart := h.apart hr' hr hmore
    omega

theorem laid_nil : Laid cap fun _ => none where
  pos := nofun
  within := nofun
  apart := nofun

/-- A span is recorded in a free run. -/
theorem Laid.record (h : Laid cap r) (hfree : FreeRun cap r first count) (hpos : 0 < count) :
    Laid cap (Function.update r first (some count)) := by
  -- a span met before the run ends there, one met behind it begins there
  have hside : ∀ {other len : ℕ}, r other = some len → other ≠ first →
      other + len ≤ first ∨ first + count ≤ other := by
    intro other len hr hne
    by_contra hnot
    have hlen := h.pos hr
    exact hfree.free (max other first) (by omega) (by omega) ⟨other, len, hr, by omega, by omega⟩
  constructor
  · intro other len hr
    rw [Function.update_apply] at hr
    split at hr
    · obtain rfl := Option.some.inj hr
      exact hpos
    · exact h.pos hr
  · intro other len hr
    rw [Function.update_apply] at hr
    split at hr
    · rename_i heq
      obtain rfl := Option.some.inj hr
      exact heq ▸ hfree.within
    · exact h.within hr
  · intro other len other' len' hr hr' hlt
    rw [Function.update_apply] at hr hr'
    split at hr <;> split at hr'
    · omega
    · rename_i heq hne'
      obtain rfl := Option.some.inj hr
      have hlen' := h.pos hr'
      have hcases := hside hr' hne'
      omega
    · rename_i hne heq'
      have hlen := h.pos hr
      have hcases := hside hr hne
      omega
    · exact h.apart hr hr' hlt

/-- A span is forgotten. -/
theorem Laid.forget (h : Laid cap r) (first : ℕ) :
    Laid cap (Function.update r first none) := by
  have hkept : ∀ {other len : ℕ}, Function.update r first none other = some len →
      r other = some len := by
    intro other len hr
    rw [Function.update_apply] at hr
    split at hr
    · exact absurd hr nofun
    · exact hr
  constructor
  · exact fun hr => h.pos (hkept hr)
  · exact fun hr => h.within (hkept hr)
  · exact fun hr hr' hlt => h.apart (hkept hr) (hkept hr') hlt

/-! ## The scan -/

/-- The scan stands at slot `i`: the `n` slots before it, from `start` on, remember
nothing, and every span that begins before `i` has ended at `start`. -/
structure Scanned (r : Record) (n i start : ℕ) : Prop where
  add_eq : start + n = i
  ended : ∀ {first len}, r first = some len → first < i → first + len ≤ start

theorem scanned_zero : Scanned r 0 0 0 where
  add_eq := rfl
  ended := fun _ hlt => absurd hlt (Nat.not_lt_zero _)

theorem Scanned.free (h : Scanned r n i start) (hr : r i = none) :
    Scanned r (n + 1) (i + 1) start where
  add_eq := by rw [← h.add_eq, Nat.add_assoc]
  ended := by
    intro first len hfirst hlt
    have hne : first ≠ i := by
      rintro rfl
      exact absurd (hr.symm.trans hfirst) nofun
    exact h.ended hfirst (by omega)

theorem Scanned.jump (h : Scanned r n i start) (hlaid : Laid cap r) (hr : r i = some len) :
    Scanned r 0 (i + len) (i + len) where
  add_eq := rfl
  ended := by
    intro first len' hfirst hlt
    rcases Nat.lt_trichotomy first i with hless | rfl | hmore
    · have hended := h.ended hfirst hless
      have hstart := h.add_eq
      omega
    · obtain rfl := Option.some.inj (hfirst.symm.trans hr)
      exact Nat.le_refl _
    · have hapart := hlaid.apart hr hfirst hmore
      omega

/-- What the scan has counted is a free run. -/
theorem Scanned.freeRun (h : Scanned r n i start) (hi : i ≤ cap) : FreeRun cap r start n where
  within := h.add_eq.symm ▸ hi
  free := by
    rintro slot hle hlt ⟨first, len, hr, hfirst, hslot⟩
    have hstart := h.add_eq
    have hended := h.ended hr (by omega)
    omega

/-- A jump does not pass a free run that is longer than what has been counted. -/
theorem Scanned.jump_le (h : Scanned r n i start) (hlaid : Laid cap r) {a : ℕ}
    (hrun : FreeRun cap r a count) (hn : n < count) (hstart : start ≤ a)
    (hr : r i = some len) : i + len ≤ a := by
  have heq := h.add_eq
  have hlen := hlaid.pos hr
  by_contra hnot
  exact hrun.free (max i a) (by omega) (by omega) ⟨i, len, hr, by omega, by omega⟩

end Cyanea.Math.Spans
