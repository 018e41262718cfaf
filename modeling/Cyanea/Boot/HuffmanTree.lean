/-
# Trees and codes

A `struct tree` represents a list of codeword lengths when its counts are those of the
lengths and its symbols are sorted by length. `huffman_tree` sorts them by counting, and
`decode_symbol` walks the counts as a canonical prefix code is decoded.
-/

import Cyanea.Boot.BitReader
import Cyanea.Math.Run

namespace Cyanea.Boot

open Math.Bits Math.PrefixCode Math.Simulation Rfc1951

/-! ## Sorting by length -/

/-- How many codewords are shorter than `l`. -/
def base (lens : List ℕ) : ℕ → ℕ
  | 0 => 0
  | l + 1 => base lens l + count lens l

/-- The tree is the one for these codeword lengths. -/
structure Represents (tree : Tree) (lens : List ℕ) : Prop where
  counts : ∀ l ≤ maxBits, tree.bl_count[l]? = some (count lens l)
  symbols : ∀ l ≤ maxBits, 0 < l → ∀ k s, (symbolsBelow lens lens.length l)[k]? = some s →
    tree.sorted_symbols[base lens l + k]? = some (some s)

theorem base_mono (lens : List ℕ) : Monotone (base lens) :=
  monotone_nat_of_le_succ fun l => Nat.le_add_right (base lens l) (count lens l)

theorem count_cons (x : ℕ) (lens : List ℕ) (l : ℕ) :
    count (x :: lens) l = count lens l + if x = l ∧ x ≠ 0 then 1 else 0 := by
  cases l with
  | zero => simp [count]
  | succ l =>
      rw [count, count, List.count_cons]
      by_cases h : x = l + 1 <;> simp [h]

theorem base_cons (x : ℕ) (lens : List ℕ) (l : ℕ) :
    base (x :: lens) l = base lens l + if x < l ∧ x ≠ 0 then 1 else 0 := by
  induction l with
  | zero => simp [base]
  | succ l ih =>
      rw [base, base, ih, count_cons]
      split_ifs <;> omega

theorem base_le_length (lens : List ℕ) (l : ℕ) : base lens l ≤ lens.length := by
  induction lens with
  | nil =>
      induction l with
      | zero => exact le_rfl
      | succ l ih => cases l <;> simp [base, count] at ih ⊢; exact ih
  | cons x lens ih =>
      rw [base_cons, List.length_cons]
      split_ifs <;> omega

section Arrays

variable {α : Type} {xs : List α} {x : α} {i : ℕ}

theorem load_eq (h : xs[i]? = some x) : load xs i = .ok x := by
  simp [load, h]

theorem store_eq (x : α) (h : i < xs.length) : store xs i x = .ok (xs.set i x) :=
  if_pos h

end Arrays

theorem take_succ_of_lt {lens : List ℕ} {i l : ℕ} (h : lens[i]? = some l) :
    lens.take (i + 1) = lens.take i ++ [l] := by
  obtain ⟨hi, rfl⟩ := List.getElem?_eq_some_iff.1 h
  exact List.take_succ_eq_append_getElem hi

/-- Counting the lengths. -/
theorem countLengths_eq {lens lengths : List ℕ}
    (hsame : ∀ i < lens.length, lengths[i]? = lens[i]?) (hlens : ∀ l ∈ lens, l ≤ maxBits) :
    ∃ cs, (List.range lens.length).foldlM (countLength lengths)
        (List.replicate MAX_BITS 0) = .ok cs ∧
      cs.length = MAX_BITS ∧ ∀ l ≤ maxBits, cs[l]? = some (lens.count l) := by
  conv in lens.count _ => rw [← List.take_length (l := lens)]
  apply Math.foldlM_range (I := fun i (cs : List ℕ) => cs.length = MAX_BITS ∧
    ∀ l ≤ maxBits, cs[l]? = some ((lens.take i).count l))
  · refine ⟨by simp, fun l hl => ?_⟩
    rw [List.getElem?_replicate, if_pos (by simp only [maxBits, MAX_BITS] at *; omega)]
    simp
  · rintro i cs hi ⟨hlen, hcs⟩
    have hli : lens[i]? = some lens[i] := List.getElem?_eq_getElem hi
    have hbound := hlens _ (List.getElem_mem hi)
    generalize lens[i] = l at hli hbound
    have hlt : l < cs.length := by rw [hlen]; simp only [maxBits, MAX_BITS] at *; omega
    refine ⟨cs.set l ((lens.take i).count l + 1), ?_, by simpa using hlen, fun l' hl' => ?_⟩
    · simp [countLength, load_eq ((hsame i hi).trans hli), load_eq (hcs l hbound),
        store_eq _ hlt]
    · rw [List.getElem?_set, take_succ_of_lt hli, List.count_append, List.count_singleton]
      by_cases h : l = l'
      · subst h
        simp [hlt]
      · simp [h, hcs l' hl']

theorem length_offsets (cs : List ℕ) (sum : ℕ) : (offsets cs sum).length = cs.length := by
  induction cs generalizing sum with
  | nil => rfl
  | cons c cs ih => rw [offsets, List.length_cons, ih, List.length_cons]

theorem getElem?_offsets {lens cs : List ℕ} {b m : ℕ}
    (hcs : ∀ l < cs.length, cs[l]? = some (count lens (b + l))) (hm : m < cs.length) :
    (offsets cs (base lens b))[m]? = some (base lens (b + m)) := by
  induction cs generalizing b m with
  | nil => exact absurd hm (Nat.not_lt_zero m)
  | cons c cs ih =>
      cases m with
      | zero => rfl
      | succ m =>
          have hc : c = count lens b := by simpa using hcs 0 (by simp)
          have hrest : ∀ l < cs.length, cs[l]? = some (count lens (b + 1 + l)) := by
            intro l hl
            have h := hcs (l + 1) (by simpa using hl)
            rwa [List.getElem?_cons_succ, show b + (l + 1) = b + 1 + l by omega] at h
          rw [offsets, List.getElem?_cons_succ, hc]
          show (offsets cs (base lens (b + 1)))[m]? = _
          rw [ih hrest (by simpa using hm), show b + 1 + m = b + (m + 1) by omega]

/-- What the sorting loop has done for the symbols below `n`. -/
structure Sorted (lens : List ℕ) (n : ℕ) (s : List (Option ℕ) × List ℕ) : Prop where
  length : s.1.length = MAX_SYMBOLS
  length_offs : s.2.length = MAX_BITS
  offs : ∀ l ≤ maxBits, 0 < l →
    s.2[l]? = some (base lens l + (symbolsBelow lens n l).length)
  symbols : ∀ l ≤ maxBits, 0 < l → ∀ k t, (symbolsBelow lens n l)[k]? = some t →
    s.1[base lens l + k]? = some (some t)

theorem Sorted.skip {lens : List ℕ} {n : ℕ} {s : List (Option ℕ) × List ℕ}
    (h : Sorted lens n s) (hzero : lens[n]? = some 0) : Sorted lens (n + 1) s := by
  have hsame (l : ℕ) (hl : 0 < l) : symbolsBelow lens (n + 1) l = symbolsBelow lens n l :=
    symbolsBelow_succ_of_ne (by rw [hzero]; simp; omega)
  exact
    { h with
      offs := fun l hl hpos => by rw [hsame l hpos]; exact h.offs l hl hpos
      symbols := fun l hl hpos => by rw [hsame l hpos]; exact h.symbols l hl hpos }

/-- The place for the next symbol of a length is one of that length's. -/
theorem length_symbolsBelow_lt {lens : List ℕ} {n l : ℕ} (h : lens[n]? = some l) :
    (symbolsBelow lens n l).length < lens.count l := by
  have hn := (List.getElem?_eq_some_iff.1 h).1
  have hle : (symbolsBelow lens (n + 1) l).length ≤ lens.count l := by
    rw [length_symbolsBelow (by omega)]
    exact (List.take_sublist _ _).count_le l
  rw [symbolsBelow_succ_of_eq h, List.length_append] at hle
  exact hle

theorem Sorted.insert {lens : List ℕ} {n l : ℕ} {s : List (Option ℕ) × List ℕ}
    (h : Sorted lens n s) (hsize : lens.length ≤ MAX_SYMBOLS) (hl : lens[n]? = some l)
    (hpos : 0 < l) (hmax : l ≤ maxBits) :
    base lens l + (symbolsBelow lens n l).length < MAX_SYMBOLS ∧ Sorted lens (n + 1)
      (s.1.set (base lens l + (symbolsBelow lens n l).length) (some n),
        s.2.set l (base lens l + (symbolsBelow lens n l).length + 1)) := by
  have hhere := symbolsBelow_succ_of_eq hl
  have helse (l' : ℕ) (hne : l' ≠ l) : symbolsBelow lens (n + 1) l' = symbolsBelow lens n l' :=
    symbolsBelow_succ_of_ne (by rw [hl]; simpa using hne.symm)
  have hfew (l' : ℕ) (hpos' : 0 < l') : (symbolsBelow lens n l').length ≤ count lens l' := by
    cases l' with
    | zero => omega
    | succ l' =>
        have hn := (List.getElem?_eq_some_iff.1 hl).1
        rw [length_symbolsBelow (by omega)]
        exact (List.take_sublist _ _).count_le _
  -- the place is behind those of the shorter lengths and before those of the longer ones
  have hlt : base lens l + (symbolsBelow lens n l).length < base lens (l + 1) := by
    have hlast := length_symbolsBelow_lt hl
    cases l with
    | zero => omega
    | succ l => exact Nat.add_lt_add_left hlast _
  have hroom : base lens l + (symbolsBelow lens n l).length < MAX_SYMBOLS :=
    lt_of_lt_of_le hlt ((base_le_length lens _).trans hsize)
  refine ⟨hroom, ?_⟩
  constructor
  · simpa using h.length
  · simpa using h.length_offs
  · intro l' hl' hpos'
    by_cases heq : l' = l
    · subst heq
      rw [hhere, List.getElem?_set_self]
      · simp [Nat.add_assoc]
      · rw [h.length_offs]
        exact Nat.lt_succ_of_le hl'
    · rw [helse l' heq, List.getElem?_set_ne (Ne.symm heq)]
      exact h.offs l' hl' hpos'
  · intro l' hl' hpos' k t ht
    by_cases heq : l' = l
    · subst heq
      rw [hhere] at ht
      rcases Nat.lt_or_ge k (symbolsBelow lens n l').length with hk | hk
      · rw [List.getElem?_append_left hk] at ht
        rw [List.getElem?_set_ne (by omega)]
        exact h.symbols l' hl' hpos' k t ht
      · obtain rfl : k = (symbolsBelow lens n l').length := by
          have hk' := (List.getElem?_eq_some_iff.1 ht).1
          rw [List.length_append, List.length_singleton] at hk'
          omega
        rw [List.getElem?_concat_length] at ht
        rw [← ht, List.getElem?_set_self (by rwa [h.length])]
    · rw [helse l' heq] at ht
      have hk := lt_of_lt_of_le (List.getElem?_eq_some_iff.1 ht).1 (hfew l' hpos')
      have hne : base lens l + (symbolsBelow lens n l).length ≠ base lens l' + k := by
        rcases Nat.lt_or_gt_of_ne heq with hshort | hlong
        · have hmono : base lens (l' + 1) ≤ base lens l := base_mono lens hshort
          rw [base] at hmono
          omega
        · have hmono : base lens (l + 1) ≤ base lens l' := base_mono lens hlong
          omega
      rw [List.getElem?_set_ne hne]
      exact h.symbols l' hl' hpos' k t ht

/-- Sorting the symbols into the places counted for them. -/
theorem sortSymbols_eq {lens lengths : List ℕ}
    (hsame : ∀ i < lens.length, lengths[i]? = lens[i]?) (hlens : ∀ l ∈ lens, l ≤ maxBits)
    (hsize : lens.length ≤ MAX_SYMBOLS) {s : List (Option ℕ) × List ℕ} (h : Sorted lens 0 s) :
    ∃ s', (List.range lens.length).foldlM (sortSymbol lengths) s = .ok s' ∧
      Sorted lens lens.length s' := by
  apply Math.foldlM_range h
  intro i s hi hs
  have hli : lens[i]? = some lens[i] := List.getElem?_eq_getElem hi
  have hmax := hlens _ (List.getElem_mem hi)
  generalize lens[i] = l at hli hmax
  by_cases hzero : l = 0
  · subst hzero
    refine ⟨s, ?_, hs.skip hli⟩
    simp [sortSymbol, load_eq ((hsame i hi).trans hli), pure, Except.pure]
  · have hpos := Nat.pos_of_ne_zero hzero
    obtain ⟨hroom, hnext⟩ := hs.insert hsize hli hpos hmax
    refine ⟨_, ?_, hnext⟩
    have hstore : l < s.2.length := by
      rw [hs.length_offs]
      exact Nat.lt_succ_of_le hmax
    simp [sortSymbol, load_eq ((hsame i hi).trans hli), hzero, load_eq (hs.offs l hmax hpos),
      store_eq _ (hs.length ▸ hroom), store_eq _ hstore, pure, Except.pure]

/-- `huffman_tree` sorts the symbols of the first `nr_sym` lengths. -/
theorem huffmanTree_eq {tree : Tree} (lengths : List ℕ) (nr_sym : ℕ)
    (htree : tree.sorted_symbols.length = MAX_SYMBOLS) (hnr : nr_sym ≤ lengths.length)
    (hsize : nr_sym ≤ MAX_SYMBOLS) (hlens : ∀ l ∈ lengths.take nr_sym, l ≤ maxBits) :
    ∃ t, huffmanTree tree lengths nr_sym = .ok t ∧ Represents t (lengths.take nr_sym) ∧
      t.sorted_symbols.length = MAX_SYMBOLS := by
  have hlen : (lengths.take nr_sym).length = nr_sym := by simpa using hnr
  have hsame : ∀ i < (lengths.take nr_sym).length,
      lengths[i]? = (lengths.take nr_sym)[i]? := by
    intro i hi
    rw [List.getElem?_take_of_lt (by omega)]
  obtain ⟨cs, hcs, hcslen, hcount⟩ := countLengths_eq hsame hlens
  have hcounts : ∀ l < (cs.set 0 0).length,
      (cs.set 0 0)[l]? = some (count (lengths.take nr_sym) (0 + l)) := by
    intro l hl
    rw [List.length_set, hcslen] at hl
    cases l with
    | zero => simp [count, hcslen, MAX_BITS]
    | succ l =>
        rw [List.getElem?_set_ne (by omega), hcount (l + 1) (Nat.le_of_lt_succ hl)]
        simp [count]
  have hstart : Sorted (lengths.take nr_sym) 0 (tree.sorted_symbols, offsets (cs.set 0 0) 0) :=
    { length := htree
      length_offs := by rw [length_offsets, List.length_set, hcslen]
      offs := by
        intro l hl _
        have h := getElem?_offsets (b := 0) hcounts (m := l)
          (by rw [List.length_set, hcslen]; exact Nat.lt_succ_of_le hl)
        simpa [base] using h
      symbols := by simp }
  obtain ⟨s, hs, hsorted⟩ := sortSymbols_eq hsame hlens (hlen.le.trans hsize) hstart
  rw [hlen] at hcs hs
  refine ⟨⟨cs.set 0 0, s.1⟩, ?_, ?_, hsorted.length⟩
  · simp [huffmanTree, hcs, hs, pure, Except.pure]
  · constructor
    · intro l hl
      have h := hcounts l (by rw [List.length_set, hcslen]; exact Nat.lt_succ_of_le hl)
      rwa [Nat.zero_add] at h
    · exact hsorted.symbols

/-! ## The fixed trees -/

/-- Symbols stored one after the other, entry by entry. -/
theorem storeSymbols_eq (xs : List (Option ℕ)) (start n symbol : ℕ)
    (hroom : start + n ≤ xs.length) :
    ∃ ys, storeSymbols xs start n symbol = .ok ys ∧ ys.length = xs.length ∧
      ∀ i, ys[i]? = if start ≤ i ∧ i < start + n then some (some (symbol + (i - start)))
        else xs[i]? := by
  apply Math.foldlM_range (I := fun n (ys : List (Option ℕ)) => ys.length = xs.length ∧
    ∀ i, ys[i]? = if start ≤ i ∧ i < start + n then some (some (symbol + (i - start)))
      else xs[i]?)
  · refine ⟨rfl, fun i => ?_⟩
    rw [if_neg (by omega)]
  · rintro it ys hit ⟨hlen, hys⟩
    have hlt : start + it < ys.length := by omega
    refine ⟨_, store_eq _ hlt, by simpa using hlen, fun i => ?_⟩
    rw [List.getElem?_set, hys]
    by_cases hi : start + it = i
    · subst hi
      simp [hlt]
    · rw [if_neg hi]
      by_cases hin : start ≤ i ∧ i < start + it
      · rw [if_pos hin, if_pos (by omega)]
      · rw [if_neg hin, if_neg (by omega)]

/-- The literal and length symbols with fixed codes, sorted. -/
def fixedSymbol (i : ℕ) : ℕ :=
  if i < 24 then 256 + i
  else if i < 168 then i - 24
  else if i < 176 then 280 + (i - 168)
  else 144 + (i - 176)

theorem length_fixedLiteral : fixedLiteral.length = 288 := by
  simp only [fixedLiteral, List.length_append, List.length_replicate]

theorem length_fixedDistance : fixedDistance.length = 32 := List.length_replicate

theorem count_fixedLiteral : ∀ l < MAX_BITS,
    ((((List.replicate MAX_BITS 0).set 7 24).set 8 152).set 9 112)[l]? =
      some (count fixedLiteral l) := by
  decide +kernel

theorem count_fixedDistance : ∀ l < MAX_BITS,
    ((List.replicate MAX_BITS 0).set 5 32)[l]? = some (count fixedDistance l) := by
  decide +kernel

theorem symbolsBelow_fixedLiteral : ∀ l < MAX_BITS,
    symbolsBelow fixedLiteral fixedLiteral.length l =
      (List.range (count fixedLiteral l)).map fun k =>
        fixedSymbol (base fixedLiteral l + k) := by
  have hparts : ∀ l, symbolsBelow fixedLiteral fixedLiteral.length l =
      (if 8 = l then List.range 144 else []) ++
        (if 9 = l then List.range 112 else []).map (144 + ·) ++
        (if 7 = l then List.range 24 else []).map (256 + ·) ++
        (if 8 = l then List.range 8 else []).map (280 + ·) := by
    intro l
    rw [fixedLiteral, symbolsBelow_append, symbolsBelow_append, symbolsBelow_append]
    simp only [symbolsBelow_replicate, List.length_append, List.length_replicate]
  simp only [hparts]
  decide +kernel

theorem symbolsBelow_fixedDistance : ∀ l < MAX_BITS,
    symbolsBelow fixedDistance fixedDistance.length l =
      (List.range (count fixedDistance l)).map fun k => base fixedDistance l + k := by
  have hparts : ∀ l, symbolsBelow fixedDistance fixedDistance.length l =
      if 5 = l then List.range 32 else [] := symbolsBelow_replicate 32 5
  simp only [hparts]
  decide

/-- Symbols that `f` lists in sorted order. -/
theorem represents_of_sorted {tree : Tree} {lens : List ℕ} {f : ℕ → ℕ}
    (hcounts : ∀ l < MAX_BITS, tree.bl_count[l]? = some (count lens l))
    (hsymbols : ∀ l < MAX_BITS, symbolsBelow lens lens.length l =
      (List.range (count lens l)).map fun k => f (base lens l + k))
    (hsorted : ∀ i < lens.length, tree.sorted_symbols[i]? = some (some (f i))) :
    Represents tree lens := by
  constructor
  · exact fun l hl => hcounts l (Nat.lt_succ_of_le hl)
  · intro l hl _ k s hs
    rw [hsymbols l (Nat.lt_succ_of_le hl), List.getElem?_map] at hs
    obtain ⟨j, hj, rfl⟩ := Option.map_eq_some_iff.1 hs
    obtain ⟨hk, hkj⟩ := List.getElem?_eq_some_iff.1 hj
    rw [List.getElem_range] at hkj
    rw [List.length_range] at hk
    subst hkj
    apply hsorted
    calc
      base lens l + k < base lens (l + 1) := Nat.add_lt_add_left hk _
      _ ≤ lens.length := base_le_length lens (l + 1)

/-- `huffman_fixed_tree` stores the trees of the fixed codes. -/
theorem huffmanFixedTree_eq {lt dt : Tree} (hlt : lt.sorted_symbols.length = MAX_SYMBOLS)
    (hdt : dt.sorted_symbols.length = MAX_SYMBOLS) :
    ∃ ll distance, huffmanFixedTree lt dt = .ok (ll, distance) ∧
      Represents ll fixedLiteral ∧ Represents distance fixedDistance ∧
      ll.sorted_symbols.length = MAX_SYMBOLS ∧
      distance.sorted_symbols.length = MAX_SYMBOLS := by
  simp only [MAX_SYMBOLS] at hlt hdt ⊢
  obtain ⟨x₁, h₁, hlen₁, hx₁⟩ := storeSymbols_eq lt.sorted_symbols 0 24 256 (by omega)
  obtain ⟨x₂, h₂, hlen₂, hx₂⟩ := storeSymbols_eq x₁ 24 144 0 (by omega)
  obtain ⟨x₃, h₃, hlen₃, hx₃⟩ := storeSymbols_eq x₂ (24 + 144) 8 280 (by omega)
  obtain ⟨x₄, h₄, hlen₄, hx₄⟩ := storeSymbols_eq x₃ (24 + 144 + 8) 112 144 (by omega)
  obtain ⟨y, hy, hleny, hy'⟩ := storeSymbols_eq dt.sorted_symbols 0 32 0 (by omega)
  refine ⟨⟨(((List.replicate MAX_BITS 0).set 7 24).set 8 152).set 9 112, x₄⟩,
    ⟨(List.replicate MAX_BITS 0).set 5 32, y⟩, ?_, ?_, ?_, (by omega : x₄.length = 288),
    (by omega : y.length = 288)⟩
  · simp only [huffmanFixedTree, h₁, h₂, h₃, h₄, hy, ok_bind]
    rfl
  · apply represents_of_sorted count_fixedLiteral symbolsBelow_fixedLiteral
    intro i hi
    rw [length_fixedLiteral] at hi
    show x₄[i]? = _
    rw [hx₄, hx₃, hx₂, hx₁, fixedSymbol]
    split_ifs <;> first | omega | simp
  · apply represents_of_sorted (f := id) count_fixedDistance symbolsBelow_fixedDistance
    intro i hi
    rw [length_fixedDistance] at hi
    show y[i]? = _
    rw [hy', if_pos (by omega)]
    simp

/-! ## Symbols -/

variable {cap n : ℕ} {frame : Frame} {tree : Tree} {lens : List ℕ}

theorem decodeFrom_of_error {d : Deflate} (hd : d.error ≠ .NONE) (levels it sum offs : ℕ) :
    decodeFrom tree (levels + 1) it sum offs d = .ok (0, d) := by
  rw [decodeFrom]
  simp [getBits_of_error hd, failed_apply, hd]

theorem idle_decodeSymbol (cap : ℕ) (tree : Tree) : Idle (setting cap) (decodeSymbol tree) (· = 0) :=
  fun _ hd => ⟨0, decodeFrom_of_error hd _ _ _ _, rfl⟩

/-- Going down the levels of the tree is going down the codeword lengths. -/
theorem decodeFrom_agrees (htree : Represents tree lens) (levels l offs : ℕ)
    (hl : l + levels = maxBits) {d : Deflate} {r r₀ : Reading}
    (hd : Follows frame (n + 1) d r) (hr₀ : r₀.out = r.out) (hr : (setting cap).fits r) :
    Agrees (setting cap) (decodeFrom tree levels (l + 1) (base lens (l + 1)) offs d)
      (match Math.PrefixCode.decodeFrom lens levels l offs r.bits with
        | some (s, rest) => .ok s { r with bits := rest }
        | none => .rejected r₀)
      (fun v v' d r => v = v' ∧ Follows frame n d r) (· = 0) := by
  have hfits : (setting cap).fits r₀ := by
    show r₀.out.length ≤ cap
    rw [hr₀]
    exact hr
  induction levels generalizing l offs d r with
  | zero =>
      rw [Math.PrefixCode.decodeFrom]
      refine Agrees.of_rejected (a := 0) (d := { d with error := .SYMBOL }) ?_ hfits ?_ rfl
      · simp [decodeFrom, raise]
      · show Err.SYMBOL ≠ .NONE
        decide
  | succ levels ih =>
      have hbit : Agrees (setting cap) _ _ _ _ := getBits_sim (k := 1) (by omega) d r hd hr
      rw [decodeFrom]
      cases hbits : r.bits with
      | nil =>
          have hgoal : (number 1).run r = .rejected r := if_neg (by simp [hbits])
          rw [hgoal] at hbit
          obtain ⟨a, d', hrun, hidle, -⟩ := hbit.2 hr
          have hidle' : d'.error ≠ .NONE := hidle
          refine Agrees.of_rejected (a := 0) (d := d') ?_ hfits hidle rfl
          simp [hrun, failed_apply, hidle']
      | cons b bits =>
          have hgoal : (number 1).run r = .ok b.toNat { r with bits } := by
            have h : 1 ≤ r.bits.length := by simp [hbits]
            refine (if_pos h).trans ?_
            simp [hbits, Math.Bits.toNat]
          rw [hgoal] at hbit
          obtain ⟨_, d', hrun, rfl, -, hd'⟩ := hbit.2 hr
          have hcount := htree.counts (l + 1) (by omega)
          have hsymbols := htree.symbols (l + 1) (by omega) (by omega) (2 * offs + b.toNat)
          rw [Math.PrefixCode.decodeFrom]
          cases hsym : (symbolsBelow lens lens.length (l + 1))[2 * offs + b.toNat]? with
          | some s =>
              have hlt := (List.getElem?_eq_some_iff.1 hsym).1
              rw [length_symbolsBelow_length] at hlt
              refine Agrees.of_ok (a := s) (d := d') ?_ hr ⟨rfl, hd'⟩
              simp [hrun, failed_apply, hd'.error, load_eq hcount, hlt,
                load_eq (hsymbols s hsym)]
          | none =>
              have hge := List.getElem?_eq_none_iff.1 hsym
              rw [length_symbolsBelow_length] at hge
              have hnext := ih (l + 1) (2 * offs + b.toNat - count lens (l + 1)) (by omega)
                (hd'.mono (Nat.le_succ n)) hr₀ hr
              simpa [hrun, failed_apply, hd'.error, load_eq hcount, not_lt.2 hge, base]
                using hnext

/-- `decode_symbol` reads a symbol of the code that the tree represents. -/
theorem decodeSymbol_sim (htree : Represents tree lens) :
    Sim (setting cap) (Follows frame (n + 1)) (decodeSymbol tree) (symbol lens)
      (fun v v' d r => v = v' ∧ v < lens.length ∧ Follows frame n d r) (· = 0) := by
  intro d r hd hr
  have h := decodeFrom_agrees htree maxBits 0 0 (Nat.zero_add _) hd rfl hr
  have hsymbol : (symbol lens).run r =
      match decode lens maxBits r.bits with
      | some (s, bits) => .ok s { r with bits }
      | none => .rejected r := rfl
  have hlt (s : ℕ) (rest : List Bool) (hs : decode lens maxBits r.bits = some (s, rest)) :
      s < lens.length := lt_length_of_decode hs
  rw [hsymbol]
  rw [← decode] at h
  cases hs : decode lens maxBits r.bits with
  | none =>
      rw [hs] at h
      exact ⟨h.1, h.2⟩
  | some p =>
      rw [hs] at h
      refine ⟨h.1, fun hfits => ?_⟩
      obtain ⟨a, d', hrun, rfl, hd'⟩ := h.2 hfits
      exact ⟨p.1, d', hrun, rfl, hlt p.1 p.2 hs, hd'⟩

/-- The reading from here on. -/
def Deflate.reading (d : Deflate) : Reading := ⟨d.bitsLeft, d.dest, []⟩

theorem Deflate.Ready.follows {d : Deflate} (hd : d.Ready) {n : ℕ} (hn : d.bitsLeft.length < n) :
    Follows d.frame n d d.reading :=
  ⟨hd.error, hd.sound, hd.nr_bits, rfl, hn, rfl, rfl⟩

/-- A bit that is there is read. -/
theorem getBits_one {d : Deflate} (hd : d.Ready) {b : Bool} {bits : List Bool}
    (hbits : d.bitsLeft = b :: bits) :
    ∃ d', getBits 1 d = .ok (b.toNat, d') ∧ d'.Ready ∧ d'.bitsLeft = bits := by
  have hlen : 1 ≤ d.bitsLeft.length := by simp [hbits]
  obtain ⟨d', hrun, hd', hleft, -⟩ := getBits_of_le (by omega) hd hlen
  rw [hbits] at hrun hleft
  exact ⟨d', by simpa [Math.Bits.toNat] using hrun, hd', hleft⟩

/-- Down all levels without a codeword, the symbol is an error. -/
theorem decodeFrom_exhausted (htree : Represents tree lens) (levels l offs : ℕ)
    (hl : l + levels = maxBits) {d : Deflate} (hd : d.Ready) (hlen : levels ≤ d.bitsLeft.length)
    (hnone : Math.PrefixCode.decodeFrom lens levels l offs d.bitsLeft = none) :
    ∃ d', decodeFrom tree levels (l + 1) (base lens (l + 1)) offs d = .ok (0, d') ∧
      d'.error = .SYMBOL := by
  induction levels generalizing l offs d with
  | zero => exact ⟨{ d with error := .SYMBOL }, by simp [decodeFrom, raise], rfl⟩
  | succ levels ih =>
      obtain ⟨b, bits, hbits⟩ : ∃ b bits, d.bitsLeft = b :: bits :=
        List.exists_cons_of_length_pos (by omega)
      obtain ⟨d', hget, hready, hbits'⟩ := getBits_one hd hbits
      rw [hbits, Math.PrefixCode.decodeFrom] at hnone
      have hcount := htree.counts (l + 1) (by omega)
      cases hsym : (symbolsBelow lens lens.length (l + 1))[2 * offs + b.toNat]? with
      | some s =>
          rw [hsym] at hnone
          cases hnone
      | none =>
          rw [hsym] at hnone
          have hge := List.getElem?_eq_none_iff.1 hsym
          rw [length_symbolsBelow_length] at hge
          rw [hbits, List.length_cons] at hlen
          obtain ⟨d'', hrun, herror⟩ := ih (l + 1) (2 * offs + b.toNat - count lens (l + 1))
            (by omega) hready (by rw [hbits']; omega) (by rw [hbits']; exact hnone)
          refine ⟨d'', ?_, herror⟩
          rw [decodeFrom]
          simpa [hget, failed_apply, hready.error, load_eq hcount, not_lt.2 hge, base] using hrun

/-- Every symbol with a codeword is read off it, whatever bits follow; and fifteen bits without
a codeword in front are an error. -/
structure DecodesCode (lens : List ℕ) (tree : Tree) : Prop where
  codeword : ∀ s l, lens[s]? = some l → 0 < l → ∃! w, Assigns lens s w
  symbol : ∀ s w rest d, Assigns lens s w → Deflate.Ready d → d.bitsLeft = w ++ rest →
    ∃ d', decodeSymbol tree d = .ok (s, d') ∧ d'.error = .NONE ∧ d'.bitsLeft = rest
  none : ∀ w rest d, w.length = 15 → (∀ p s, p <+: w → ¬ Assigns lens s p) →
    Deflate.Ready d → d.bitsLeft = w ++ rest →
    ∃ d', decodeSymbol tree d = .ok (0, d') ∧ d'.error = .SYMBOL

theorem Represents.decodesCode (htree : Represents tree lens) (hlens : ∀ l ∈ lens, l ≤ maxBits)
    (hroom : ¬ OverSubscribed lens maxBits) : DecodesCode lens tree := by
  constructor
  · intro s l hs hpos
    exact existsUnique_assigns hroom hs hpos (hlens l (List.mem_of_getElem? hs))
  · intro s w rest d hw hd hbits
    have hlen : w.length ≤ maxBits := hlens _ (List.mem_of_getElem? hw.2.1)
    have hrun : (symbol lens).run d.reading = .ok s { d.reading with bits := rest } := by
      show (symbol lens).run ⟨d.bitsLeft, d.dest, []⟩ = _
      rw [hbits]
      exact symbol_append hw hlen rest d.dest []
    have hagrees := decodeSymbol_sim (n := d.bitsLeft.length) htree d d.reading
      (hd.follows (Nat.lt_succ_self _)) (Nat.le_refl d.dest.length)
    rw [hrun] at hagrees
    obtain ⟨_, d', hdecode, rfl, -, hd'⟩ := hagrees.2 (Nat.le_refl _)
    exact ⟨d', hdecode, hd'.error, hd'.bits⟩
  · intro w rest d hlen hnone hd hbits
    refine decodeFrom_exhausted htree maxBits 0 0 (Nat.zero_add _) hd ?_ ?_
    · rw [hbits, List.length_append, hlen]
      exact Nat.le_add_right _ _
    · rw [← decode]
      cases hdecode : decode lens maxBits d.bitsLeft with
      | none => rfl
      | some p =>
          obtain ⟨q, hq, hassigns, hsplit⟩ := decode_eq_some_iff.1 hdecode
          rw [hbits] at hsplit
          refine absurd hassigns (hnone q p.1 ?_)
          exact List.prefix_of_prefix_length_le ⟨p.2, hsplit.symm⟩ (List.prefix_append w rest)
            (hq.trans hlen.ge)

/-- The tree of any code for which there is room decodes that code. -/
theorem huffmanTree_decodesCode {tree : Tree} (htree : tree.sorted_symbols.length = MAX_SYMBOLS)
    {lens : List ℕ} (hsize : lens.length ≤ MAX_SYMBOLS) (hlens : ∀ l ∈ lens, l ≤ 15)
    (hroom : ¬ OverSubscribed lens 15) :
    ∃ t, huffmanTree tree lens lens.length = .ok t ∧ DecodesCode lens t := by
  have htake : lens.take lens.length = lens := List.take_length
  obtain ⟨t, hrun, hrep, -⟩ := huffmanTree_eq lens lens.length htree le_rfl hsize
    (by rwa [htake])
  rw [htake] at hrep
  exact ⟨t, hrun, hrep.decodesCode hlens hroom⟩

/-- An incomplete code: the second symbol has none of its codewords. -/
theorem decodesCode_incomplete : ∃ t,
    huffmanTree (initial []).ll [2, 0, 1, 3] 4 = .ok t ∧ DecodesCode [2, 0, 1, 3] t :=
  huffmanTree_decodesCode List.length_replicate (by decide) (by decide) (by decide)

theorem decodeLl_sim (h : Represents frame.ll lens) :
    Sim (setting cap) (Follows frame (n + 1)) decodeLl (symbol lens)
      (fun v v' d r => v = v' ∧ v < lens.length ∧ Follows frame n d r) (· = 0) := by
  apply Sim.step _ (decodeSymbol_sim h)
  intro d r hd
  exact ⟨d, by simp [decodeLl, hd.ll], hd⟩

theorem decodeDistance_sim (h : Represents frame.distance lens) :
    Sim (setting cap) (Follows frame (n + 1)) decodeDistance (symbol lens)
      (fun v v' d r => v = v' ∧ v < lens.length ∧ Follows frame n d r) (· = 0) := by
  apply Sim.step _ (decodeSymbol_sim h)
  intro d r hd
  exact ⟨d, by simp [decodeDistance, hd.distance], hd⟩

theorem idle_decodeDistance : Idle (setting cap) decodeDistance (· = 0) := by
  intro d hd
  obtain ⟨a, ha, rfl⟩ := idle_decodeSymbol cap d.distance d hd
  exact ⟨0, by simp [decodeDistance, ha], rfl⟩

end Cyanea.Boot
