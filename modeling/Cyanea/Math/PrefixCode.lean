/-
# Canonical prefix codes

A list of codeword lengths, one for each symbol, determines a prefix code: codewords of
one length are consecutive numbers in the order of their symbols, and shorter codewords
come first. A length of zero leaves a symbol without a codeword. Codewords are read bit by
bit with the most significant bit first; a decoder only has to count codewords.
-/

import Cyanea.Math.Bits
import Mathlib.Algebra.Order.Group.Nat
import Mathlib.Data.List.Count
import Mathlib.Data.List.Induction
import Mathlib.Tactic.Linarith

namespace Cyanea.Math.PrefixCode

open Bits

variable (lens : List ℕ)

/-- The symbols below `n` with a codeword of length `l`, in order. -/
def symbolsBelow (n l : ℕ) : List ℕ :=
  (List.range n).filter fun s => lens[s]? == some l

/-- How many codewords have length `l`. -/
def count : ℕ → ℕ
  | 0 => 0
  | l + 1 => lens.count (l + 1)

/-- The number that the first codeword of length `l` spells. -/
def first : ℕ → ℕ
  | 0 => 0
  | l + 1 => 2 * (first l + count lens l)

/-- The codeword of the symbol `s` is `w`. -/
def Assigns (s : ℕ) (w : List Bool) : Prop :=
  w ≠ [] ∧ lens[s]? = some w.length ∧
    toNatMsb w = first lens w.length + (lens.take s).count w.length

/-- Read one symbol, having read `l` bits and being `offs` codewords past the last one of
length `l`; at most `n` more bits are read. -/
def decodeFrom : ℕ → ℕ → ℕ → List Bool → Option (ℕ × List Bool)
  | 0, _, _, _ => none
  | _ + 1, _, _, [] => none
  | n + 1, l, offs, b :: bits =>
      match (symbolsBelow lens lens.length (l + 1))[2 * offs + b.toNat]? with
      | some s => some (s, bits)
      | none => decodeFrom n (l + 1) (2 * offs + b.toNat - count lens (l + 1)) bits

/-- Read the symbol whose codeword, of at most `limit` bits, the bits begin with. -/
def decode (limit : ℕ) (bits : List Bool) : Option (ℕ × List Bool) :=
  decodeFrom lens limit 0 0 bits

/-- The codeword lengths ask for more codewords than there are: the fractions `2 ^ -l` that
they take of the whole add up to more than one. -/
def OverSubscribed (limit : ℕ) : Prop :=
  2 ^ limit < ((lens.filter (· ≠ 0)).map fun l => 2 ^ (limit - l)).sum

instance (limit : ℕ) : Decidable (OverSubscribed lens limit) :=
  inferInstanceAs (Decidable (_ < _))

variable {lens}

/-! ## Symbols of one length -/

@[simp] theorem symbolsBelow_zero (l : ℕ) : symbolsBelow lens 0 l = [] := rfl

theorem symbolsBelow_succ_of_eq {n l : ℕ} (h : lens[n]? = some l) :
    symbolsBelow lens (n + 1) l = symbolsBelow lens n l ++ [n] := by
  simp [symbolsBelow, List.range_succ, List.filter_append, h]

theorem symbolsBelow_succ_of_ne {n l : ℕ} (h : lens[n]? ≠ some l) :
    symbolsBelow lens (n + 1) l = symbolsBelow lens n l := by
  simp [symbolsBelow, List.range_succ, List.filter_append, h]

theorem symbolsBelow_append (lens lens' : List ℕ) (l : ℕ) :
    symbolsBelow (lens ++ lens') (lens ++ lens').length l =
      symbolsBelow lens lens.length l ++
        (symbolsBelow lens' lens'.length l).map (lens.length + ·) := by
  rw [symbolsBelow, List.length_append, List.range_add, List.filter_append, List.filter_map]
  congr 1
  · apply List.filter_congr
    intro s hs
    rw [List.getElem?_append_left (List.mem_range.1 hs)]
  · congr 1
    apply List.filter_congr
    intro s _
    rw [Function.comp_apply, List.getElem?_append_right (Nat.le_add_right _ _),
      Nat.add_sub_cancel_left]

theorem symbolsBelow_replicate (n a l : ℕ) :
    symbolsBelow (List.replicate n a) n l = if a = l then List.range n else [] := by
  have hget : ∀ s ∈ List.range n, ((List.replicate n a)[s]? == some l) = (a == l) := by
    intro s hs
    rw [List.getElem?_replicate, if_pos (List.mem_range.1 hs), Option.some_beq_some]
  rw [symbolsBelow, List.filter_congr hget]
  split_ifs with h <;> simp [h]

theorem length_symbolsBelow {n : ℕ} (hn : n ≤ lens.length) (l : ℕ) :
    (symbolsBelow lens n l).length = (lens.take n).count l := by
  induction n with
  | zero => rfl
  | succ n ih =>
      rw [List.take_succ_eq_append_getElem hn, List.count_append, ← ih (by omega)]
      by_cases h : lens[n] = l
      · rw [symbolsBelow_succ_of_eq (List.getElem?_eq_some_iff.2 ⟨hn, h⟩)]
        simp [h]
      · rw [symbolsBelow_succ_of_ne fun hl => h (List.getElem?_eq_some_iff.1 hl).2]
        simp [h]

theorem length_symbolsBelow_length (l : ℕ) :
    (symbolsBelow lens lens.length (l + 1)).length = count lens (l + 1) := by
  rw [length_symbolsBelow le_rfl, List.take_length, count]

/-- The `k`-th symbol of a length is the one that has `k` symbols of that length before. -/
theorem getElem?_symbolsBelow {n l k s : ℕ} (hn : n ≤ lens.length) :
    (symbolsBelow lens n l)[k]? = some s ↔
      s < n ∧ lens[s]? = some l ∧ (lens.take s).count l = k := by
  induction n with
  | zero => simp
  | succ n ih =>
      by_cases h : lens[n]? = some l
      · rw [symbolsBelow_succ_of_eq h]
        rcases lt_trichotomy k (symbolsBelow lens n l).length with hk | hk | hk
        · rw [List.getElem?_append_left hk, ih (by omega)]
          constructor
          · exact fun ⟨hs, hrest⟩ => ⟨by omega, hrest⟩
          · rintro ⟨hs, hl, hc⟩
            refine ⟨lt_of_le_of_ne (by omega) ?_, hl, hc⟩
            rintro rfl
            rw [length_symbolsBelow (by omega), hc] at hk
            exact absurd hk (lt_irrefl _)
        · subst hk
          rw [List.getElem?_concat_length, length_symbolsBelow (by omega)]
          constructor
          · rintro ⟨⟩
            exact ⟨by omega, h, rfl⟩
          · rintro ⟨hs, hl, hc⟩
            by_contra hne
            have hlt : s < n := by
              rcases Nat.lt_or_ge s n with hlt | hge
              · exact hlt
              · exact absurd (congrArg some (by omega : n = s)) hne
            have hsome := (ih (by omega)).2
              ⟨hlt, hl, hc.trans (length_symbolsBelow (by omega) l).symm⟩
            simp at hsome
        · rw [List.getElem?_eq_none (by simp; omega)]
          rw [length_symbolsBelow (by omega)] at hk
          refine ⟨fun hno => by simp at hno, ?_⟩
          rintro ⟨hs, hl, hc⟩
          have hmono : (lens.take s).count l ≤ (lens.take n).count l :=
            (List.take_prefix_take_left (by omega)).sublist.count_le l
          omega
      · rw [symbolsBelow_succ_of_ne h, ih (by omega)]
        constructor
        · exact fun ⟨hs, hrest⟩ => ⟨by omega, hrest⟩
        · rintro ⟨hs, hl, hc⟩
          refine ⟨lt_of_le_of_ne (by omega) ?_, hl, hc⟩
          rintro rfl
          exact h hl

/-! ## Decoding -/

/-- A codeword spells more than every prefix that is past the codewords of its length. -/
theorem first_add (lens : List ℕ) (l k : ℕ) :
    (first lens l + count lens l) * 2 ^ (k + 1) ≤ first lens (l + (k + 1)) := by
  induction k with
  | zero => simp [first]; omega
  | succ k ih =>
      rw [← add_assoc, first, pow_succ]
      calc
        (first lens l + count lens l) * (2 ^ (k + 1) * 2)
            = 2 * ((first lens l + count lens l) * 2 ^ (k + 1)) := by ring
        _ ≤ 2 * first lens (l + (k + 1)) := Nat.mul_le_mul_left 2 ih
        _ ≤ 2 * (first lens (l + (k + 1)) + count lens (l + (k + 1))) := by omega

theorem toNatMsb_append_lt (w q : List Bool) :
    toNatMsb (w ++ q) < (toNatMsb w + 1) * 2 ^ q.length := by
  induction q using List.reverseRecOn with
  | nil => simp
  | append_singleton q b ih =>
      rw [← List.append_assoc, toNatMsb_concat, List.length_append, List.length_singleton,
        pow_succ]
      have hb := Bool.toNat_le b
      nlinarith

/-- The codewords of one length are the numbers from `first` on, in the order of their
symbols. -/
theorem assigns_iff {w : List Bool} {s k : ℕ} (hne : w ≠ [])
    (hw : toNatMsb w = first lens w.length + k) :
    Assigns lens s w ↔ (symbolsBelow lens lens.length w.length)[k]? = some s := by
  rw [getElem?_symbolsBelow le_rfl, Assigns, hw, Nat.add_left_cancel_iff]
  constructor
  · rintro ⟨-, hl, hk⟩
    exact ⟨(List.getElem?_eq_some_iff.1 hl).1, hl, hk.symm⟩
  · rintro ⟨-, hl, hk⟩
    exact ⟨hne, hl, hk.symm⟩

/-- No codeword begins with another one. -/
theorem not_assigns_append {w q : List Bool} {s k : ℕ} (hq : q ≠ [])
    (hw : toNatMsb w = first lens w.length + k) (hk : k < count lens w.length) :
    ¬ Assigns lens s (w ++ q) := by
  rintro ⟨-, -, hv⟩
  obtain ⟨n, hn⟩ : ∃ n, q.length = n + 1 :=
    Nat.exists_eq_succ_of_ne_zero fun h => hq (List.length_eq_zero_iff.1 h)
  have hlow := toNatMsb_append_lt w q
  have hhigh := first_add lens w.length n
  rw [List.length_append, hn] at hv
  rw [hn] at hlow
  have hle : (toNatMsb w + 1) * 2 ^ (n + 1) ≤
      (first lens w.length + count lens w.length) * 2 ^ (n + 1) :=
    Nat.mul_le_mul_right _ (by omega)
  omega

/-- Going down by codeword lengths: having read `p` without meeting a codeword, the decoder
finds exactly the symbols whose codewords begin with `p`. -/
theorem decodeFrom_eq_some_iff (lens : List ℕ) (n offs : ℕ) (p bits : List Bool) {s : ℕ}
    {rest : List Bool}
    (hp : toNatMsb p = first lens p.length + count lens p.length + offs) :
    decodeFrom lens n p.length offs bits = some (s, rest) ↔
      ∃ q, q ≠ [] ∧ q.length ≤ n ∧ Assigns lens s (p ++ q) ∧ bits = q ++ rest := by
  induction n generalizing offs p bits with
  | zero =>
      simp only [decodeFrom, reduceCtorEq, false_iff, not_exists]
      rintro q ⟨hne, hlen, -⟩
      exact hne (List.length_eq_zero_iff.1 (by omega))
  | succ n ih =>
      cases bits with
      | nil =>
          simp only [decodeFrom, reduceCtorEq, false_iff, not_exists]
          rintro q ⟨hne, -, -, hbits⟩
          exact hne (List.append_eq_nil_iff.1 hbits.symm).1
      | cons b bits =>
          have hlen : (p ++ [b]).length = p.length + 1 := by simp
          have hread : toNatMsb (p ++ [b]) =
              first lens (p ++ [b]).length + (2 * offs + b.toNat) := by
            rw [toNatMsb_concat, hp, hlen, first]
            ring
          have here (t : ℕ) := assigns_iff (s := t) (by simp) hread
          rw [hlen] at here
          rw [decodeFrom]
          cases hsym : (symbolsBelow lens lens.length (p.length + 1))[2 * offs + b.toNat]? with
          | some t =>
              -- a codeword ends here, so that no longer one begins like this
              have hk : 2 * offs + b.toNat < count lens (p ++ [b]).length := by
                rw [hlen, ← length_symbolsBelow_length]
                exact (List.getElem?_eq_some_iff.1 hsym).1
              constructor
              · intro h
                obtain ⟨rfl, rfl⟩ := Prod.mk.inj (Option.some.inj h)
                exact ⟨[b], by simp, by simp, (here t).2 hsym, rfl⟩
              · rintro ⟨q, hne, -, hq, hbits⟩
                obtain ⟨c, q, rfl⟩ := List.exists_cons_of_ne_nil hne
                obtain ⟨rfl, rfl⟩ := List.cons_eq_cons.1 hbits
                rw [List.append_cons] at hq
                obtain rfl : q = [] := by
                  by_contra hlong
                  exact not_assigns_append hlong hread hk hq
                rw [List.append_nil, here, hsym] at hq
                rw [Option.some.inj hq]
                rfl
          | none =>
              have hcount : count lens (p.length + 1) ≤ 2 * offs + b.toNat := by
                rw [← length_symbolsBelow_length]
                exact List.getElem?_eq_none_iff.1 hsym
              have hnext := ih (2 * offs + b.toNat - count lens (p.length + 1)) (p ++ [b]) bits
                (by rw [hread, hlen]; omega)
              rw [hlen] at hnext
              simp only [hnext]
              constructor
              · rintro ⟨q, hne, hn, hq, rfl⟩
                exact ⟨b :: q, by simp, by simpa using hn, by simpa using hq, rfl⟩
              · rintro ⟨q, hne, hn, hq, hbits⟩
                obtain ⟨c, q, rfl⟩ := List.exists_cons_of_ne_nil hne
                obtain ⟨rfl, rfl⟩ := List.cons_eq_cons.1 hbits
                rw [List.append_cons] at hq
                refine ⟨q, ?_, by simpa using hn, hq, rfl⟩
                rintro rfl
                rw [List.append_nil, here, hsym] at hq
                exact absurd hq (by simp)

/-- The decoder reads a symbol exactly where its codeword comes next. -/
theorem decode_eq_some_iff {limit s : ℕ} {bits rest : List Bool} :
    decode lens limit bits = some (s, rest) ↔
      ∃ w, w.length ≤ limit ∧ Assigns lens s w ∧ bits = w ++ rest := by
  apply (decodeFrom_eq_some_iff lens limit 0 [] bits rfl).trans
  constructor
  · exact fun ⟨q, _, hlen, hq, hbits⟩ => ⟨q, hlen, hq, hbits⟩
  · exact fun ⟨w, hlen, hw, hbits⟩ => ⟨w, hw.1, hlen, hw, hbits⟩

theorem Assigns.lt_length {s : ℕ} {w : List Bool} (hw : Assigns lens s w) : s < lens.length :=
  (List.getElem?_eq_some_iff.1 hw.2.1).1

/-- A codeword takes bits. -/
theorem Assigns.length_lt_append {s : ℕ} {w bits : List Bool} (hw : Assigns lens s w) :
    bits.length < (w ++ bits).length := by
  rw [List.length_append]
  exact Nat.lt_add_of_pos_left (List.length_pos_iff.2 hw.1)

theorem lt_length_of_decode {limit s : ℕ} {bits rest : List Bool}
    (h : decode lens limit bits = some (s, rest)) : s < lens.length := by
  obtain ⟨w, -, hw, -⟩ := decode_eq_some_iff.1 h
  exact hw.lt_length

/-! ## Room for codewords -/

/-- How many strings of `l` bits begin with a codeword when these are the lengths. -/
def taken (l : ℕ) : List ℕ → ℕ
  | [] => 0
  | x :: xs => (if x ≠ 0 ∧ x ≤ l then 2 ^ (l - x) else 0) + taken l xs

/-- With one more bit there are twice as many, and the codewords of that length. -/
theorem taken_succ (l : ℕ) (xs : List ℕ) :
    taken (l + 1) xs = 2 * taken l xs + xs.count (l + 1) := by
  induction xs with
  | nil => rfl
  | cons x xs ih =>
      rw [taken, taken, ih, List.count_cons]
      rcases lt_trichotomy x (l + 1) with hlt | rfl | hlt
      · have hdouble : 2 ^ (l + 1 - x) = 2 * 2 ^ (l - x) := by
          rw [show l + 1 - x = (l - x) + 1 by omega, pow_succ']
        have hne : ¬ x = l + 1 := hlt.ne
        by_cases hx : x = 0
        · simp [hx]
        · rw [if_pos ⟨hx, by omega⟩, if_pos ⟨hx, by omega⟩, hdouble]
          simp [hne]
          omega
      · simp
        omega
      · rw [if_neg (by omega), if_neg (by omega)]
        simp [hlt.ne']

theorem first_add_count (lens : List ℕ) (l : ℕ) :
    first lens l + count lens l = taken l lens := by
  induction l with
  | zero =>
      rw [first, count]
      induction lens with
      | nil => rfl
      | cons x xs ih => rw [taken, if_neg (by omega), ← ih]
  | succ l ih => rw [first, ih, taken_succ, count]

/-- Filled up to `limit` bits, the strings that are taken are some of those that all codewords
take. -/
theorem taken_mul_le {l limit : ℕ} (hl : l ≤ limit) (xs : List ℕ) :
    taken l xs * 2 ^ (limit - l) ≤
      ((xs.filter (· ≠ 0)).map fun x => 2 ^ (limit - x)).sum := by
  induction xs with
  | nil => simp [taken]
  | cons x xs ih =>
      rw [taken, Nat.add_mul]
      by_cases hx : x = 0
      · simpa [hx] using ih
      · rw [List.filter_cons_of_pos (by simpa using hx), List.map_cons, List.sum_cons]
        apply Nat.add_le_add _ ih
        split
        · rw [← pow_add, show l - x + (limit - l) = limit - x by omega]
        · rw [Nat.zero_mul]
          exact Nat.zero_le _

/-- Where there is room, the codewords of one length end before the strings do. -/
theorem first_add_count_le {l limit : ℕ} (h : ¬ OverSubscribed lens limit) (hl : l ≤ limit) :
    first lens l + count lens l ≤ 2 ^ l := by
  have htaken := (taken_mul_le hl lens).trans (not_lt.mp h)
  have hsplit : 2 ^ limit = 2 ^ l * 2 ^ (limit - l) := by
    rw [← pow_add, Nat.add_sub_cancel' hl]
  rw [first_add_count]
  rw [hsplit] at htaken
  exact Nat.le_of_mul_le_mul_right htaken (Nat.two_pow_pos _)

/-- Every symbol with a length has one codeword, if there is room for all. -/
theorem existsUnique_assigns {l limit s : ℕ} (h : ¬ OverSubscribed lens limit)
    (hs : lens[s]? = some l) (hpos : 0 < l) (hl : l ≤ limit) : ∃! w, Assigns lens s w := by
  obtain ⟨hlt, hget⟩ := List.getElem?_eq_some_iff.mp hs
  have hfew : (lens.take s).count l < lens.count l := by
    have hsucc : (lens.take (s + 1)).count l ≤ lens.count l :=
      (List.take_sublist _ _).count_le l
    rw [List.take_succ_eq_append_getElem hlt, List.count_append, hget,
      List.count_singleton_self] at hsucc
    exact hsucc
  have hcount : count lens l = lens.count l := by
    cases l with
    | zero => exact absurd hpos (lt_irrefl 0)
    | succ l => rfl
  have hroom := first_add_count_le h hl
  obtain ⟨w, ⟨hlen, hvalue⟩, hunique⟩ :=
    existsUnique_toNatMsb (show first lens l + (lens.take s).count l < 2 ^ l by omega)
  refine ⟨w, ⟨?_, ?_, ?_⟩, ?_⟩
  · rintro rfl
    exact absurd hlen hpos.ne
  · rw [hlen, hs]
  · rw [hlen, hvalue]
  · rintro w' ⟨-, hlen', hvalue'⟩
    have hsame : l = w'.length := Option.some.inj (hs.symm.trans hlen')
    refine hunique w' ⟨hsame.symm, ?_⟩
    rw [hvalue', hsame]

end Cyanea.Math.PrefixCode
