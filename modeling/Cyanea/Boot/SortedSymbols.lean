/-
# Where a symbol is read

`decode_symbol` returns `sorted_symbols[sum + offs]` and assumes that the index is in range.
It is, whatever lengths the tree was built from: at each level `sum` is the number of the
shorter codewords and `offs` is checked against the number of those of the level. The
counters are 16 bits wide in the source; `keep` stands for what storing a number in one of
them does to it.
-/

import Cyanea.Boot.HuffmanTree

namespace Cyanea.Boot

open Math Math.Bits Math.PrefixCode Math.Simulation Rfc1951

section Counters

variable (keep : ℕ → ℕ)

/-- `countLength` with counters that `keep` numbers. -/
def countLengthIn (lengths : List ℕ) (bl_count : List ℕ) (it : ℕ) : Except Fault (List ℕ) := do
  let l ← load lengths it
  store bl_count l (keep ((← load bl_count l) + 1))

/-- `offsets` with counters that `keep` numbers. -/
def offsetsIn : List ℕ → ℕ → List ℕ
  | [], _ => []
  | c :: cs, sum => sum :: offsetsIn cs (keep (sum + c))

/-- `sortSymbol` with counters that `keep` numbers. -/
def sortSymbolIn (lengths : List ℕ) (s : List (Option ℕ) × List ℕ) (it : ℕ) :
    Except Fault (List (Option ℕ) × List ℕ) := do
  let l ← load lengths it
  if l ≠ 0 then
    let at_ ← load s.2 l
    return (← store s.1 at_ (some it), ← store s.2 l (keep (at_ + 1)))
  else
    return s

/-- `huffmanTree` with counters that `keep` numbers. -/
def huffmanTreeIn (tree : Tree) (lengths : List ℕ) (nr_sym : ℕ) : Except Fault Tree := do
  let bl_count ← (List.range nr_sym).foldlM (countLengthIn keep lengths)
    (List.replicate MAX_BITS 0)
  let bl_count := bl_count.set 0 0
  let (sorted_symbols, _) ← (List.range nr_sym).foldlM (sortSymbolIn keep lengths)
    (tree.sorted_symbols, offsetsIn keep bl_count 0)
  return { bl_count, sorted_symbols }

/-- The loop of `decode_symbol` with such counters, up to the index `sum + offs` at which the
symbol is read. -/
def decodeIndexFrom (tree : Tree) : ℕ → ℕ → ℕ → ℕ → Inflate (Option ℕ)
  | 0, _, _, _ => do
      raise .SYMBOL
      return none
  | levels + 1, it, sum, offs => do
      let bit ← getBits 1
      if ← failed then
        return none
      else
        let offs := keep (2 * offs + bit)
        let leaves ← load tree.bl_count it
        if offs < leaves then
          return some (sum + offs)
        else
          decodeIndexFrom tree levels (it + 1) (keep (sum + leaves)) (keep (offs - leaves))

def decodeIndex (tree : Tree) : Inflate (Option ℕ) :=
  decodeIndexFrom keep tree (MAX_BITS - 1) 1 0 0

end Counters

/-- `return tree->sorted_symbols[sum + offs]`, or `SUCCESS` where no index was found. -/
def readSymbol (tree : Tree) : Option ℕ → Inflate ℕ
  | none => return 0
  | some i => do
      match ← load tree.sorted_symbols i with
      | some symbol => return symbol
      | none => throw .unset

/-- Storing in 16 bits: smaller numbers are kept, and nothing is known of others. -/
def Exact16 (keep : ℕ → ℕ) : Prop := ∀ x < 2 ^ 16, keep x = x

/-- An `unsigned short`. -/
theorem exact16_mod : Exact16 (· % 2 ^ 16) := fun _ hx => Nat.mod_eq_of_lt hx

/-- What is asked for of the tree that `huffman_tree` builds for these lengths in a tree. No
counter holds a number that 16 bits do not keep. -/
structure SymbolsInRange (old : Tree) (lens : List ℕ) (tree : Tree) : Prop where
  built : ∀ keep, Exact16 keep → huffmanTreeIn keep old lens lens.length = .ok tree
  decoded : ∀ keep, Exact16 keep → ∀ d, Deflate.Ready d →
    (decodeIndex keep tree >>= readSymbol tree) d = decodeSymbol tree d
  returns : ∀ d, Deflate.Ready d → ∃ s d', decodeSymbol tree d = .ok (s, d')
  in_range : ∀ d s d', Deflate.Ready d → decodeSymbol tree d = .ok (s, d') → d'.error = .NONE →
    ∃ i, (∀ keep, Exact16 keep → decodeIndex keep tree d = .ok (some i, d')) ∧
      i < lens.countP (· ≠ 0) ∧ tree.sorted_symbols[i]? = some (some s) ∧ s < lens.length ∧
      ∃ l, lens[s]? = some l ∧ l ≤ d.bitsLeft.length ∧ d'.bitsLeft = d.bitsLeft.drop l

/-! ## Building the tree -/

variable {keep : ℕ → ℕ}

theorem load_eq_ok {α : Type} {xs : List α} {i : ℕ} {x : α} (h : load xs i = .ok x) :
    xs[i]? = some x := by
  rw [load] at h
  split at h
  next hx => rw [hx, Except.ok.inj h]
  next => cases h

theorem store_eq_ok {α : Type} {xs ys : List α} {i : ℕ} {x : α} (h : store xs i x = .ok ys) :
    ys = xs.set i x := by
  rw [store] at h
  split at h
  next => exact (Except.ok.inj h).symm
  next => cases h

/-- No number of a list is over `n`. -/
def UpTo (n : ℕ) (xs : List ℕ) : Prop := ∀ x ∈ xs, x ≤ n

theorem UpTo.set_succ {n i x : ℕ} {xs : List ℕ} (h : UpTo n xs) (hx : x ≤ n) :
    UpTo (n + 1) (xs.set i (x + 1)) := by
  intro y hy
  rcases List.mem_or_eq_of_mem_set hy with hmem | rfl
  · exact Nat.le_succ_of_le (h y hmem)
  · exact Nat.succ_le_succ hx

theorem UpTo.load {n l x : ℕ} {xs : List ℕ} (h : UpTo n xs) (hx : load xs l = .ok x) : x ≤ n :=
  h x (List.mem_of_getElem? (load_eq_ok hx))

/-- A count is at most the number of the lengths counted. -/
theorem countLengthsIn_eq (hkeep : Exact16 keep) (lengths : List ℕ) {n : ℕ} (hn : n ≤ MAX_SYMBOLS) :
    (List.range n).foldlM (countLengthIn keep lengths) (List.replicate MAX_BITS 0) =
        (List.range n).foldlM (countLength lengths) (List.replicate MAX_BITS 0) ∧
      ∀ cs, (List.range n).foldlM (countLength lengths) (List.replicate MAX_BITS 0) = .ok cs →
        cs.length = MAX_BITS ∧ UpTo n cs := by
  apply foldlM_range_congr (I := fun i (cs : List ℕ) => cs.length = MAX_BITS ∧ UpTo i cs)
  · refine ⟨List.length_replicate, fun c hc => ?_⟩
    rw [List.eq_of_mem_replicate hc]
  · rintro i cs hi ⟨-, hcs⟩
    rw [countLengthIn, countLength]
    cases load lengths i with
    | error e => rfl
    | ok l =>
        cases hc : load cs l with
        | error e => simp [hc]
        | ok c =>
            have hle := hcs.load hc
            have hexact : keep (c + 1) = c + 1 := by
              apply hkeep
              simp only [MAX_SYMBOLS] at hn
              omega
            simp [hc, hexact]
  · rintro i cs cs' hi ⟨hlen, hcs⟩ hrun
    rw [countLength, bind_eq_ok] at hrun
    obtain ⟨l, -, hrun⟩ := hrun
    obtain ⟨c, hc, hstore⟩ := bind_eq_ok.1 hrun
    obtain rfl := store_eq_ok hstore
    exact ⟨by simpa using hlen, hcs.set_succ (hcs.load hc)⟩

/-- The offsets add up at most as many times `n` as there are counts. -/
theorem offsetsIn_eq (hkeep : Exact16 keep) {n : ℕ} {cs : List ℕ} (hcs : UpTo n cs) (sum : ℕ)
    (hsum : sum + n * cs.length < 2 ^ 16) :
    offsetsIn keep cs sum = offsets cs sum ∧ UpTo (sum + n * cs.length) (offsets cs sum) := by
  induction cs generalizing sum with
  | nil => exact ⟨rfl, fun _ hx => absurd hx List.not_mem_nil⟩
  | cons c cs ih =>
      have hc : c ≤ n := hcs c List.mem_cons_self
      rw [List.length_cons, Nat.mul_succ] at hsum ⊢
      obtain ⟨heq, hle⟩ := ih (fun x hx => hcs x (List.mem_cons_of_mem c hx)) (sum + c)
        (by omega)
      rw [offsetsIn, offsets, hkeep _ (by omega : sum + c < 2 ^ 16), heq]
      refine ⟨rfl, fun x hx => ?_⟩
      rcases List.mem_cons.1 hx with rfl | hx
      · exact Nat.le_add_right x _
      · exact (hle x hx).trans (by omega)

/-- An offset is advanced at most once for each length. -/
theorem sortSymbolsIn_eq (hkeep : Exact16 keep) (lengths : List ℕ) {n m : ℕ}
    {s : List (Option ℕ) × List ℕ} (hs : UpTo m s.2) (hm : m + n < 2 ^ 16) :
    (List.range n).foldlM (sortSymbolIn keep lengths) s =
      (List.range n).foldlM (sortSymbol lengths) s := by
  apply And.left
  apply foldlM_range_congr (I := fun i (s : List (Option ℕ) × List ℕ) => UpTo (m + i) s.2) hs
  · intro i s hi hs
    rw [sortSymbolIn, sortSymbol]
    cases load lengths i with
    | error e => rfl
    | ok l =>
        cases hx : load s.2 l with
        | error e => simp [hx]
        | ok x =>
            have hle := hs.load hx
            have hexact : keep (x + 1) = x + 1 := hkeep _ (by omega)
            simp [hx, hexact]
  · intro i s s' hi hs hrun
    rw [sortSymbol] at hrun
    obtain ⟨l, -, hrun⟩ := bind_eq_ok.1 hrun
    split at hrun
    next =>
        obtain ⟨x, hx, hrun⟩ := bind_eq_ok.1 hrun
        obtain ⟨symbols, -, hrun⟩ := bind_eq_ok.1 hrun
        obtain ⟨offs, hoffs, hrun⟩ := bind_eq_ok.1 hrun
        obtain rfl := store_eq_ok hoffs
        obtain rfl := Except.ok.inj hrun
        exact hs.set_succ (hs.load hx)
    next =>
        obtain rfl := Except.ok.inj hrun
        exact fun x hx => Nat.le_succ_of_le (hs x hx)

theorem huffmanTreeIn_eq (hkeep : Exact16 keep) (tree : Tree) (lengths : List ℕ) {nr_sym : ℕ}
    (hnr : nr_sym ≤ MAX_SYMBOLS) :
    huffmanTreeIn keep tree lengths nr_sym = huffmanTree tree lengths nr_sym := by
  obtain ⟨hcount, hbound⟩ := countLengthsIn_eq hkeep lengths hnr
  rw [huffmanTreeIn, huffmanTree, hcount]
  cases hrun : (List.range nr_sym).foldlM (countLength lengths) (List.replicate MAX_BITS 0) with
  | error e => rfl
  | ok cs =>
      obtain ⟨hlen, hcs⟩ := hbound cs hrun
      have hcs' : UpTo nr_sym (cs.set 0 0) := by
        intro c hc
        rcases List.mem_or_eq_of_mem_set hc with hmem | rfl
        · exact hcs c hmem
        · exact Nat.zero_le _
      -- at most 288 for each of 16 lengths, and 288 more while sorting
      have hroom : 0 + nr_sym * (cs.set 0 0).length + nr_sym < 2 ^ 16 := by
        rw [List.length_set, hlen]
        simp only [MAX_SYMBOLS, MAX_BITS] at hnr ⊢
        omega
      obtain ⟨hoffs, hoffs'⟩ := offsetsIn_eq hkeep hcs' 0 (by omega)
      simp only [ok_bind, hoffs, sortSymbolsIn_eq hkeep lengths
        (s := (tree.sorted_symbols, offsets (cs.set 0 0) 0)) hoffs' hroom]

/-! ## Decoding -/

/-- `decode_symbol` finds the index and reads the symbol there. -/
theorem decodeFrom_eq (tree : Tree) (levels it sum offs : ℕ) :
    decodeFrom tree levels it sum offs =
      decodeIndexFrom id tree levels it sum offs >>= readSymbol tree := by
  induction levels generalizing it sum offs with
  | zero => rfl
  | succ levels ih =>
      rw [decodeFrom, decodeIndexFrom, bind_assoc]
      congr 1
      funext bit
      rw [bind_assoc]
      congr 1
      funext b
      cases b with
      | true => rfl
      | false =>
          simp only [Bool.false_eq_true, if_false, bind_assoc, id]
          congr 1
          funext leaves
          split
          next => rfl
          next => exact ih _ _ _

/-- The symbol with the index `i` was found below level `l`. -/
structure Found (tree : Tree) (lens : List ℕ) (l : ℕ) (d : Deflate) (i : ℕ) (d' : Deflate) :
    Prop where
  ready : d'.Ready
  entry : ∃ s n, i < base lens (maxBits + 1) ∧ tree.sorted_symbols[i]? = some (some s) ∧
    s < lens.length ∧ lens[s]? = some (l + n) ∧ n ≤ d.bitsLeft.length ∧
      d'.bitsLeft = d.bitsLeft.drop n

/-- How the search for an index ends. -/
def Searched (tree : Tree) (lens : List ℕ) (l : ℕ) (d : Deflate) (d' : Deflate) : Option ℕ → Prop
  | some i => Found tree lens l d i d'
  | none => d'.error ≠ .NONE

/-- One bit was read on the way from level `l` to the next. -/
theorem Searched.level {tree : Tree} {lens : List ℕ} {l : ℕ} {d d₁ d' : Deflate} {r : Option ℕ}
    {b : Bool} {bits : List Bool} (h : Searched tree lens (l + 1) d₁ d' r)
    (hbits : d.bitsLeft = b :: bits) (hbits₁ : d₁.bitsLeft = bits) :
    Searched tree lens l d d' r := by
  cases r with
  | none => exact h
  | some i =>
      obtain ⟨hready, s, n, hi, hentry, hs, hlens, hn, hrest⟩ := h
      rw [hbits₁] at hn hrest
      refine ⟨hready, s, n + 1, hi, hentry, hs, ?_, ?_, ?_⟩
      · rw [hlens, Nat.add_assoc, Nat.add_comm 1 n]
      · rw [hbits, List.length_cons]
        exact Nat.succ_le_succ hn
      · rw [hbits, List.drop_succ_cons, hrest]

/-- The entry for the `k`-th codeword of a length. -/
theorem Represents.entry {tree : Tree} {lens : List ℕ} (htree : Represents tree lens) {l k : ℕ}
    (hl : l + 1 ≤ maxBits) (hk : k < count lens (l + 1)) :
    ∃ s, base lens (l + 1) + k < base lens (maxBits + 1) ∧
      tree.sorted_symbols[base lens (l + 1) + k]? = some (some s) ∧ s < lens.length ∧
      lens[s]? = some (l + 1) := by
  rw [← length_symbolsBelow_length] at hk
  have hsym := List.getElem?_eq_getElem hk
  generalize (symbolsBelow lens lens.length (l + 1))[k] = s at hsym
  obtain ⟨hs, hlens, -⟩ := (getElem?_symbolsBelow le_rfl).1 hsym
  rw [length_symbolsBelow_length] at hk
  refine ⟨s, ?_, htree.symbols (l + 1) hl (Nat.succ_pos l) k s hsym, hs, hlens⟩
  calc
    base lens (l + 1) + k < base lens (l + 2) := Nat.add_lt_add_left hk _
    _ ≤ base lens (maxBits + 1) := base_mono lens (Nat.succ_le_succ hl)

/-- The search from level `l` on, where the codewords down to there are `base lens (l + 1)`. -/
theorem decodeIndexFrom_ends {tree : Tree} {lens : List ℕ} (htree : Represents tree lens)
    (hsize : lens.length ≤ MAX_SYMBOLS) (levels l offs : ℕ) (hl : l + levels = maxBits)
    (hoffs : offs < 2 ^ l) {d : Deflate} (hd : d.Ready) :
    ∃ r d', (∀ keep, Exact16 keep →
        decodeIndexFrom keep tree levels (l + 1) (base lens (l + 1)) offs d = .ok (r, d')) ∧
      Searched tree lens l d d' r := by
  induction levels generalizing l offs d with
  | zero =>
      refine ⟨none, { d with error := .SYMBOL }, fun keep _ => ?_, fun h => Err.noConfusion h⟩
      simp [decodeIndexFrom, raise]
  | succ levels ih =>
      cases hbits : d.bitsLeft with
      | nil =>
          obtain ⟨d', hrun, herror⟩ := getBits_of_lt (k := 1) (by omega) hd (by simp [hbits])
          have hne : d'.error ≠ .NONE := by simp [herror]
          refine ⟨none, d', fun keep _ => ?_, hne⟩
          rw [decodeIndexFrom]
          simp [hrun, failed_apply, hne]
      | cons b bits =>
          obtain ⟨d₁, hrun, hd₁, hbits₁⟩ := getBits_one hd hbits
          have hcount := htree.counts (l + 1) (by omega)
          have hb : b.toNat < 2 := b.toNat_lt
          have hoffs' : 2 * offs + b.toNat < 2 ^ (l + 1) := by
            rw [Nat.pow_succ]
            omega
          have hpow : 2 ^ (l + 1) ≤ 2 ^ 15 :=
            Nat.pow_le_pow_right (by decide) (by simp only [maxBits] at hl; omega)
          have hkept : ∀ keep, Exact16 keep → keep (2 * offs + b.toNat) = 2 * offs + b.toNat :=
            fun keep hkeep => hkeep _ (by omega)
          by_cases hlt : 2 * offs + b.toNat < count lens (l + 1)
          · obtain ⟨s, hi, hentry, hs, hlens⟩ := htree.entry (by omega) hlt
            refine ⟨some (base lens (l + 1) + (2 * offs + b.toNat)), d₁, fun keep hkeep => ?_,
              hd₁, s, 1, hi, hentry, hs, hlens, by simp [hbits], by simp [hbits, hbits₁]⟩
            rw [decodeIndexFrom]
            simp [hrun, failed_apply, hd₁.error, load_eq hcount, hkept keep hkeep, hlt]
          · have hsum : base lens (l + 1) + count lens (l + 1) < 2 ^ 16 := by
              have hle : base lens (l + 2) ≤ lens.length := base_le_length lens (l + 2)
              rw [base] at hle
              simp only [MAX_SYMBOLS] at hsize
              omega
            obtain ⟨r, d', hnext, hr⟩ := ih (l + 1) (2 * offs + b.toNat - count lens (l + 1))
              (by omega) (by omega) hd₁
            refine ⟨r, d', fun keep hkeep => ?_, hr.level hbits hbits₁⟩
            have hoffs₁ : keep (2 * offs + b.toNat - count lens (l + 1)) =
                2 * offs + b.toNat - count lens (l + 1) := hkeep _ (by omega)
            have hsum₁ : keep (base lens (l + 1) + count lens (l + 1)) = base lens (l + 1 + 1) :=
              hkeep _ hsum
            rw [decodeIndexFrom]
            simpa [hrun, failed_apply, hd₁.error, load_eq hcount, hkept keep hkeep, hlt, hoffs₁,
              hsum₁] using hnext keep hkeep

/-! ## Any lengths -/

/-- The codewords of all lengths together. -/
theorem base_eq_countP {lens : List ℕ} (hlens : ∀ l ∈ lens, l ≤ maxBits) :
    base lens (maxBits + 1) = lens.countP (· ≠ 0) := by
  induction lens with
  | nil => rfl
  | cons x lens ih =>
      have hx := hlens x List.mem_cons_self
      rw [base_cons, List.countP_cons, ih fun l hl => hlens l (List.mem_cons_of_mem x hl)]
      by_cases hzero : x = 0
      · simp [hzero]
      · simp [hzero, Nat.lt_succ_of_le hx]

theorem readSymbol_eq {tree : Tree} {i s : ℕ} (h : tree.sorted_symbols[i]? = some (some s))
    (d : Deflate) : readSymbol tree (some i) d = .ok (s, d) := by
  simp [readSymbol, load_eq h]

/-- Where `decode_symbol` goes, whatever happens to numbers of more than 16 bits. -/
theorem Represents.decodeIndex_ends {tree : Tree} {lens : List ℕ} (htree : Represents tree lens)
    (hsize : lens.length ≤ MAX_SYMBOLS) {d : Deflate} (hd : d.Ready) :
    ∃ r d', (∀ keep, Exact16 keep → decodeIndex keep tree d = .ok (r, d')) ∧
      decodeSymbol tree d = readSymbol tree r d' ∧ Searched tree lens 0 d d' r := by
  obtain ⟨r, d', hindex, hr⟩ := decodeIndexFrom_ends htree hsize maxBits 0 0 (Nat.zero_add _)
    Nat.one_pos hd
  refine ⟨r, d', hindex, ?_, hr⟩
  have hid : decodeIndex id tree d = .ok (r, d') := hindex id fun _ _ => rfl
  rw [decodeSymbol, decodeFrom_eq]
  show (decodeIndex id tree >>= readSymbol tree) d = _
  rw [bind_apply, hid]
  rfl

theorem Represents.symbolsInRange {old tree : Tree} {lens : List ℕ} (htree : Represents tree lens)
    (hsize : lens.length ≤ MAX_SYMBOLS) (hlens : ∀ l ∈ lens, l ≤ maxBits)
    (hbuilt : huffmanTree old lens lens.length = .ok tree) : SymbolsInRange old lens tree := by
  constructor
  · intro keep hkeep
    rw [huffmanTreeIn_eq hkeep old lens hsize, hbuilt]
  · intro keep hkeep d hd
    obtain ⟨r, d', hindex, hsymbol, -⟩ := htree.decodeIndex_ends hsize hd
    rw [hsymbol, bind_apply, hindex keep hkeep]
    rfl
  · intro d hd
    obtain ⟨r, d', -, hsymbol, hr⟩ := htree.decodeIndex_ends hsize hd
    cases r with
    | none => exact ⟨0, d', hsymbol⟩
    | some i =>
        obtain ⟨-, s, n, -, hentry, -⟩ := hr
        exact ⟨s, d', hsymbol.trans (readSymbol_eq hentry d')⟩
  · intro d s d' hd hrun hnone
    obtain ⟨r, d₁, hindex, hsymbol, hr⟩ := htree.decodeIndex_ends hsize hd
    cases r with
    | none =>
        obtain ⟨-, rfl⟩ := Prod.mk.inj (Except.ok.inj (hrun.symm.trans hsymbol))
        exact absurd hnone hr
    | some i =>
        obtain ⟨-, s₁, l, hi, hentry, hs, hl, hn, hrest⟩ := hr
        rw [readSymbol_eq hentry] at hsymbol
        obtain ⟨rfl, rfl⟩ := Prod.mk.inj (Except.ok.inj (hrun.symm.trans hsymbol))
        rw [base_eq_countP hlens] at hi
        rw [Nat.zero_add] at hl
        exact ⟨i, hindex, hi, hentry, hs, l, hl, hn, hrest⟩

/-- The symbols of the tree for any lengths are read in range. -/
theorem huffmanTree_symbolsInRange {old : Tree} (hold : old.sorted_symbols.length = MAX_SYMBOLS)
    {lens : List ℕ} (hsize : lens.length ≤ 288) (hlens : ∀ l ∈ lens, l ≤ 15) :
    ∃ tree, huffmanTree old lens lens.length = .ok tree ∧ SymbolsInRange old lens tree := by
  have htake : lens.take lens.length = lens := List.take_length
  obtain ⟨tree, hrun, hrep, -⟩ := huffmanTree_eq lens lens.length hold le_rfl hsize
    (by rwa [htake])
  rw [htake] at hrep
  exact ⟨tree, hrun, hrep.symbolsInRange hsize hlens hrun⟩

/-- Over-subscribed: three codewords of one bit. -/
theorem symbolsInRange_overSubscribed : ∃ tree,
    huffmanTree (initial []).ll [1, 1, 0, 1] 4 = .ok tree ∧
      SymbolsInRange (initial []).ll [1, 1, 0, 1] tree :=
  huffmanTree_symbolsInRange List.length_replicate (by decide) (by decide)

end Cyanea.Boot
