/-
# The trees a block sends

`huffman_dynamic_tree` against the codes of a block that sends its own. The array
`lengths[]` is used twice: first for the lengths of the code length code, sent out of
order, and then, from its start again, for the lengths of both alphabets in one sequence.
-/

import Cyanea.Boot.HuffmanTree

namespace Cyanea.Boot

open Math.Simulation Rfc1951

variable {cap n turns : ℕ} {frame : Frame}

/-- How many code lengths there is room for. -/
def nrLengths : ℕ := MAX_SYMBOLS + MAX_DISTANCE

/-! ## The code length code -/

/-- The lengths after `sent` was stored in the order of the code length code, from its
`it`-th place on. -/
def placeLengths : ℕ → List ℕ → List ℕ → List ℕ
  | _, lengths, [] => lengths
  | it, lengths, l :: sent =>
      placeLengths (it + 1) (lengths.set (codeLengthOrder.getD it 0) l) sent

theorem length_placeLengths (it : ℕ) (lengths sent : List ℕ) :
    (placeLengths it lengths sent).length = lengths.length := by
  induction sent generalizing it lengths with
  | nil => rfl
  | cons l sent ih => rw [placeLengths, ih, List.length_set]

theorem codeLengthOrder_getD : ∀ it < 19, ∀ s < 19,
    (codeLengthOrder.getD it 0 = s ↔ codeLengthOrder.idxOf s = it) := by
  decide

theorem codeLengthOrder_lt : ∀ it < 19, codeLengthOrder.getD it 0 < 19 := by
  decide

theorem getElem?_placeLengths {it s : ℕ} {lengths sent : List ℕ} (hs : s < 19)
    (hroom : 19 ≤ lengths.length) (hit : it + sent.length ≤ 19) :
    (placeLengths it lengths sent)[s]? =
      if it ≤ codeLengthOrder.idxOf s ∧ codeLengthOrder.idxOf s < it + sent.length then
        sent[codeLengthOrder.idxOf s - it]?
      else lengths[s]? := by
  induction sent generalizing it lengths with
  | nil =>
      rw [placeLengths, if_neg]
      simp only [List.length_nil]
      omega
  | cons l sent ih =>
      rw [List.length_cons] at hit ⊢
      have hplace := codeLengthOrder_getD it (by omega) s hs
      have hlt := codeLengthOrder_lt it (by omega)
      rw [placeLengths, ih (by simpa using hroom) (by omega), List.getElem?_set]
      by_cases hhere : codeLengthOrder.idxOf s = it
      · rw [if_neg (by omega), if_pos (hplace.2 hhere), if_pos (by omega), if_pos (by omega),
          hhere, Nat.sub_self]
        rfl
      · rw [if_neg (mt hplace.1 hhere)]
        by_cases hlater : it + 1 ≤ codeLengthOrder.idxOf s ∧
            codeLengthOrder.idxOf s < it + 1 + sent.length
        · rw [if_pos hlater, if_pos (by omega)]
          obtain ⟨j, hj⟩ := Nat.exists_eq_add_of_le hlater.1
          rw [hj, show it + 1 + j - (it + 1) = j by omega,
            show it + 1 + j - it = j + 1 by omega, List.getElem?_cons_succ]
        · rw [if_neg hlater, if_neg (by omega)]

/-- The first 19 lengths are those of the code length code. -/
theorem take_placeLengths {sent : List ℕ} (hsent : sent.length ≤ 19) :
    (placeLengths 0 (List.replicate nrLengths 0) sent).take 19 = codeLengthCode sent := by
  apply List.ext_getElem?
  intro s
  have hlen : (codeLengthCode sent).length = 19 := by
    rw [codeLengthCode, List.length_map, List.length_range]
    rfl
  by_cases hs : s < 19
  · have hs' : s < (codeLengthCode sent).length := by omega
    rw [List.getElem?_take_of_lt hs, List.getElem?_eq_getElem hs',
      getElem?_placeLengths hs (by rw [List.length_replicate]; decide) (by omega)]
    have hcode : (codeLengthCode sent)[s] = sent.getD (codeLengthOrder.idxOf s) 0 := by
      simp only [codeLengthCode, List.getElem_map, List.getElem_range]
    rw [hcode, Nat.zero_add, Nat.sub_zero, List.getD_eq_getElem?_getD]
    split
    · next h => rw [List.getElem?_eq_getElem h.2, Option.getD_some]
    · next h =>
        have hnone : sent[codeLengthOrder.idxOf s]? = none :=
          List.getElem?_eq_none (by omega)
        rw [hnone, Option.getD_none, List.getElem?_replicate,
          if_pos (by simp only [nrLengths, MAX_SYMBOLS, MAX_DISTANCE]; omega)]
  · rw [List.getElem?_eq_none (by simp; omega), List.getElem?_eq_none (by omega)]

theorem codeLengthCode_le {sent : List ℕ} (hsent : ∀ l ∈ sent, l < 8) :
    ∀ l ∈ codeLengthCode sent, l ≤ maxBits := by
  intro l hl
  obtain ⟨s, -, rfl⟩ := List.mem_map.1 hl
  rw [List.getD_eq_getElem?_getD]
  cases h : sent[codeLengthOrder.idxOf s]? with
  | none => exact Nat.zero_le _
  | some l =>
      have hlt := hsent l (List.mem_of_getElem? h)
      rw [Option.getD_some, maxBits]
      omega

theorem load_code_len_for_code_idx {it : ℕ} (hit : it < 19) :
    load code_len_for_code_idx it = .ok (codeLengthOrder.getD it 0) := by
  apply load_eq
  rw [List.getD_eq_getElem?_getD]
  show codeLengthOrder[it]? = _
  rw [List.getElem?_eq_getElem hit, Option.getD_some]

theorem readCodeLengths_sim (left it : ℕ) (lengths : List ℕ) (hit : it + left ≤ 19)
    (hroom : 19 ≤ lengths.length) :
    Sim (setting cap) (Follows frame n) (readCodeLengths left it lengths) (threeBits left)
      (fun ls sent d r => ls = placeLengths it lengths sent ∧ sent.length = left ∧
        (∀ l ∈ sent, l < 8) ∧ Follows frame n d r) (fun _ => True) ∧
    Idle (setting cap) (readCodeLengths left it lengths) (fun _ => True) := by
  induction left generalizing it lengths with
  | zero => exact ⟨Sim.pure fun d r hd => ⟨rfl, rfl, by simp, hd⟩, Idle.pure trivial⟩
  | succ left ih =>
      have hstore (l : ℕ) := store_eq l
        (lt_of_lt_of_le (codeLengthOrder_lt it (by omega)) hroom)
      have hrec (l : ℕ) := ih (it + 1) (lengths.set (codeLengthOrder.getD it 0) l) (by omega)
        (by simpa using hroom)
      have hnext (l : ℕ) : (do
            let place ← load code_len_for_code_idx it
            let lengths ← store lengths place l
            readCodeLengths left (it + 1) lengths : Inflate (List ℕ)) =
          readCodeLengths left (it + 1) (lengths.set (codeLengthOrder.getD it 0) l) := by
        rw [lift_bind (load_code_len_for_code_idx (by omega)), lift_bind (hstore l)]
      rw [readCodeLengths, threeBits]
      constructor
      · apply Sim.bind ((getBits_sim (n := n) (by omega)).consequence
          (fun _ _ h => h.mono (by omega)) (fun _ _ _ _ h => h) (fun _ h => h))
        · intro l l'
          rw [hnext]
          apply Sim.assume (φ := l = l' ∧ l < 8) (fun d r h => ⟨h.1, h.2.1⟩)
          rintro ⟨rfl, hl⟩
          apply Sim.map_right ((hrec l).1.consequence (fun d r h => h.2.2)
            (fun _ _ _ _ h => h) (fun _ h => h))
          rintro ls sent d r ⟨rfl, hlen, hsent, hd⟩
          exact ⟨rfl, by simp [hlen], by simpa using ⟨hl, hsent⟩, hd⟩
        · rintro l rfl
          rw [hnext]
          exact (hrec 0).2
      · apply Idle.bind idle_getBits
        rintro l rfl
        rw [hnext]
        exact (hrec 0).2

/-! ## The code lengths -/

theorem storeLengths_eq (symbol length it : ℕ) (lengths : List ℕ)
    (hroom : it + length ≤ lengths.length) :
    ∃ ls, storeLengths symbol length it lengths = .ok ls ∧ ls.length = lengths.length ∧
      ls.take (it + length) = lengths.take it ++ List.replicate length symbol := by
  induction length generalizing it lengths with
  | zero => exact ⟨lengths, rfl, rfl, by simp⟩
  | succ length ih =>
      obtain ⟨ls, hls, hlen, htake⟩ := ih (it + 1) (lengths.set it symbol) (by simp; omega)
      refine ⟨ls, ?_, by simpa using hlen, ?_⟩
      · rw [storeLengths, store_eq _ (by omega)]
        exact hls
      · rw [show it + (length + 1) = it + 1 + length by omega, htake, List.replicate_succ,
          List.take_succ_eq_append_getElem (by simp; omega), List.take_set_of_le le_rfl]
        simp

/-- A run that leaves the array stops the call. -/
theorem storeLengths_error (symbol length it : ℕ) (lengths : List ℕ)
    (hit : it ≤ lengths.length) (hroom : lengths.length < it + length) :
    storeLengths symbol length it lengths = .error .outOfBounds := by
  induction length generalizing it lengths with
  | zero => omega
  | succ length ih =>
      rw [storeLengths]
      by_cases hlt : it < lengths.length
      · rw [store_eq _ hlt]
        exact ih (it + 1) (lengths.set it symbol) (by simp; omega) (by simp; omega)
      · rw [store, if_neg hlt]
        rfl

/-- The array holds the lengths known so far. -/
structure Holds (lengths lens : List ℕ) : Prop where
  room : lengths.length = nrLengths
  prefix_eq : lengths.take lens.length = lens
  bounded : ∀ l ∈ lens, l ≤ maxBits

theorem Holds.le {lengths lens : List ℕ} (h : Holds lengths lens) :
    lens.length ≤ nrLengths := by
  have hle := List.length_take_le' lens.length lengths
  rw [h.prefix_eq] at hle
  rwa [h.room] at hle

theorem Holds.slice {lengths lens : List ℕ} (h : Holds lengths lens) {i k : ℕ}
    (hik : i + k ≤ lens.length) : (lengths.drop i).take k = (lens.drop i).take k := by
  conv_rhs => rw [← h.prefix_eq, List.drop_take, List.take_take, min_eq_left (by omega)]

theorem Holds.take {lengths lens : List ℕ} (h : Holds lengths lens) {k : ℕ}
    (hk : k ≤ lens.length) : lengths.take k = lens.take k := by
  simpa using h.slice (i := 0) (by omega)

/-- A repeated length comes with the extra bits that say how often. -/
theorem expandExtra_sim (k base l : ℕ) (hk : k ≤ 24) (hl : l ≤ maxBits) :
    Sim (setting cap) (Follows frame n) (do return (l, ← getExtraBits k base))
      (do return (l, ← above base k))
      (fun p q d r => p = q ∧ p.1 ≤ maxBits ∧ Follows frame n d r) (fun _ => True) := by
  apply Sim.bind (getExtraBits_sim hk base)
  · intro v v'
    apply Sim.pure
    rintro d r ⟨rfl, -, -, hd⟩
    exact ⟨rfl, hl, hd⟩
  · exact fun v _ => Idle.pure trivial

/-- `expandSymbol` tells what a symbol of the code length alphabet stands for. -/
theorem expandSymbol_sim {lengths lens : List ℕ} (h : Holds lengths lens) {s : ℕ}
    (hs : s < 19) :
    Sim (setting cap) (Follows frame n) (expandSymbol lengths lens.length s)
      (repeated lens s)
      (fun p q d r => p = q ∧ p.1 ≤ maxBits ∧ Follows frame n d r) (fun _ => True) := by
  rw [expandSymbol, repeated, SYM_CL_COPY_3_6, SYM_CL_REPEAT_3_10, SYN_CL_REPEAT_11_138]
  by_cases hcopy : s = 16
  · rw [if_pos hcopy, if_pos hcopy]
    cases hlast : lens.getLast? with
    | none =>
        -- there is no length to copy
        rw [List.getLast?_eq_none_iff.1 hlast, if_pos List.length_nil]
        intro d r hd hr
        refine Agrees.of_rejected (a := (0, 0)) (d := { d with error := .SYMBOL }) ?_ hr ?_
          trivial
        · simp [raise]
        · show Err.SYMBOL ≠ .NONE
          decide
    | some l =>
        have hne : lens.length ≠ 0 := by
          rintro hzero
          rw [List.length_eq_zero_iff.1 hzero] at hlast
          exact absurd hlast (by simp)
        have hl : lengths[lens.length - 1]? = some l := by
          rw [List.getLast?_eq_getElem?] at hlast
          rw [← hlast, ← h.prefix_eq, List.getElem?_take_of_lt, h.prefix_eq]
          rw [h.prefix_eq]
          omega
        rw [if_neg hne, lift_bind (load_eq hl)]
        exact expandExtra_sim 2 3 l (by omega) (h.bounded l (List.mem_of_getLast? hlast))
  · rw [if_neg hcopy, if_neg hcopy]
    by_cases hzeros : s = 17
    · rw [if_pos hzeros, if_pos hzeros]
      exact expandExtra_sim 3 3 0 (by omega) (Nat.zero_le _)
    · rw [if_neg hzeros, if_neg hzeros]
      by_cases hmany : s = 18
      · rw [if_pos hmany, if_pos hmany]
        exact expandExtra_sim 7 11 0 (by omega) (Nat.zero_le _)
      · rw [if_neg hmany, if_neg hmany]
        apply Sim.pure
        intro d r hd
        refine ⟨rfl, ?_, hd⟩
        show s ≤ 15
        omega

/-- A rule that is only noted. -/
theorem sim_require {α β : Type} {rule : Rule} {p : Prop} [Decidable p] {f : Inflate α}
    {k : Unit → Reader Reading β} {N : α → β → Deflate → Reading → Prop} {P : α → Prop}
    (h : Sim (setting cap) (Follows frame n) f (k ()) N P) :
    Sim (setting cap) (Follows frame n) f (require rule p >>= k) N P := by
  apply Sim.bind_right (Q := fun _ => Follows frame n) _ fun _ => h
  intro d r hd hr
  refine ⟨(), if p then r else { r with broken := r.broken ++ [rule] }, rfl, ?_, ?_⟩
  · split
    · exact hr
    · exact hr
  · split
    · exact hd
    · exact { hd with }

/-- The loop over the code lengths between two turns. -/
def LengthsLoop (frame : Frame) (turns : ℕ) (s : ℕ × List ℕ) (lens : List ℕ) (d : Deflate)
    (r : Reading) : Prop :=
  s.1 = lens.length ∧ Holds s.2 lens ∧ Follows frame turns d r

/-- The code lengths at the end of the loop. -/
def LengthsDone (frame : Frame) (turns total : ℕ) (lengths lens : List ℕ) (d : Deflate)
    (r : Reading) : Prop :=
  total ≤ lens.length ∧ Holds lengths lens ∧ Follows frame turns d r

theorem lengthTurn_sim {code lengths lens : List ℕ} (hcode : Represents frame.ll code)
    (hsize : code.length = 19) (h : Holds lengths lens) (total : ℕ) {m : ℕ} (hm : m < turns) :
    Sim (setting cap) (Follows frame (m + 1)) (lengthTurn total (lens.length, lengths))
      (Rfc1951.lengthTurn code total lens)
      (TurnRel (LengthsLoop frame turns) (LengthsDone frame turns total) Reading.left m)
      (Leaves fun _ => True) := by
  rw [lengthTurn, Rfc1951.lengthTurn]
  dsimp only
  by_cases hmore : lens.length < total
  · rw [if_pos hmore, if_pos hmore]
    apply Sim.bind (decodeLl_sim hcode)
    · intro s s'
      apply Sim.assume (φ := s = s' ∧ s < 19) fun d r h => ⟨h.1, hsize ▸ h.2.1⟩
      rintro ⟨rfl, hs⟩
      apply sim_check fun d r hd => hd.2.2.error
      apply Sim.bind ((expandSymbol_sim h hs).consequence (fun d r hd => hd.2.2)
        (fun _ _ _ _ h => h) (fun _ h => h))
      · rintro ⟨l, k⟩ ⟨l', k'⟩
        apply Sim.assume (φ := l = l' ∧ k = k' ∧ l ≤ maxBits) fun d r h =>
          ⟨congrArg Prod.fst h.1, congrArg Prod.snd h.1, h.2.1⟩
        rintro ⟨rfl, rfl, hl⟩
        apply sim_check fun d r hd => hd.2.2.error
        apply Sim.consequence (sim_require ?_) (fun d r hd => hd.2.2) (fun _ _ _ _ h => h)
          (fun _ h => h)
        by_cases hroom : lens.length + k ≤ maxLengths
        · obtain ⟨ls, hls, hlen, htake⟩ := storeLengths_eq l k lens.length lengths
            (by rw [h.room]; exact hroom)
          rw [if_pos hroom, lift_bind hls]
          apply Sim.pure
          intro d r hd
          refine ⟨⟨by simp, ⟨by rw [hlen, h.room], ?_, ?_⟩, hd.mono hm.le⟩, hd.left⟩
          · rw [List.length_append, List.length_replicate, htake, h.prefix_eq]
          · intro x hx
            rcases List.mem_append.1 hx with hx | hx
            · exact h.bounded x hx
            · rwa [List.eq_of_mem_replicate hx]
        · have herror := storeLengths_error l k lens.length lengths (by rw [h.room]; exact h.le)
            (by rw [h.room]; exact not_le.1 hroom)
          rw [if_neg hroom]
          intro d r hd hr
          exact Agrees.of_lost (lift_error_bind herror) hr (.inl rfl)
      · exact fun p _ => idle_check trivial
    · exact fun s _ => idle_check trivial
  · rw [if_neg hmore, if_neg hmore]
    apply Sim.pure
    intro d r hd
    exact ⟨not_lt.1 hmore, h, hd.mono (by omega)⟩

theorem lengthsLoop_sim {code lengths : List ℕ} (hcode : Represents frame.ll code)
    (hsize : code.length = 19) (hroom : lengths.length = nrLengths) (total : ℕ) :
    Sim (setting cap) (Follows frame turns)
      (iterate .unfinished (lengthTurn total) turns (0, lengths))
      (Reader.iterateWithin Reading.left (Rfc1951.lengthTurn code total) [])
      (LengthsDone frame turns total) (fun _ => True) := by
  apply (Sim.iterateWithin (I := LengthsLoop frame turns) Reading.left turns _ _ _ _).consequence
  · exact fun d r hd => ⟨rfl, ⟨hroom, rfl, by simp⟩, hd⟩
  · exact fun _ _ _ _ h => h
  · exact fun _ h => h
  · rintro ⟨it, ls⟩ lens m
    apply Sim.assume (φ := it = lens.length ∧ Holds ls lens ∧ m < turns)
    · rintro d r ⟨⟨hit, h, hd⟩, rfl⟩
      exact ⟨hit, h, hd.left⟩
    · rintro ⟨rfl, h, hm⟩
      apply (lengthTurn_sim hcode hsize h total hm).consequence
      · rintro d r ⟨⟨-, -, hd⟩, rfl⟩
        exact { hd with left := Nat.lt_succ_self _ }
      · exact fun _ _ _ _ h => h
      · exact fun _ h => h
  · exact fun s lens d r hd => hd.2.2.left

/-- The trees of a `struct deflate` have room for every symbol. -/
structure Frame.Full (frame : Frame) : Prop where
  ll : frame.ll.sorted_symbols.length = MAX_SYMBOLS
  distance : frame.distance.sorted_symbols.length = MAX_SYMBOLS

/-- The trees are those of a block's codes, and nothing but them has changed. -/
structure TreesFor (dest : List UInt8) (size : ℕ) (literal distance : List ℕ) (n : ℕ)
    (d : Deflate) (r : Reading) : Prop where
  ll : Represents d.ll literal
  distance : Represents d.distance distance
  full : d.frame.Full
  follows : Follows ⟨dest, size, d.ll, d.distance⟩ n d r

theorem Follows.setTrees {d : Deflate} {r : Reading} (hd : Follows frame n d r)
    (ll distance : Tree) :
    Follows { frame with ll, distance } n { d with ll, distance } r :=
  { error := hd.error
    sound := ⟨hd.sound.bit_accum, hd.sound.in_ptr⟩
    nr_bits := hd.nr_bits
    bits := hd.bits
    left := hd.left
    dest := hd.dest
    frame := by rw [← hd.frame]; rfl }

/-- The last step: the trees of the two alphabets, out of one array of lengths. -/
theorem storeTrees_sim (frame : Frame) (hfull : frame.Full) {lengths lens : List ℕ} (h : Holds lengths lens)
    {hlit hdist : ℕ} (hlens : hlit + hdist ≤ lens.length) (hlit_le : hlit ≤ MAX_SYMBOLS)
    (hdist_le : hdist ≤ MAX_DISTANCE) :
    Sim (setting cap) (Follows frame turns)
      (do
        let d ← get
        let ll ← huffmanTree d.ll lengths hlit
        let distance ← huffmanTree d.distance (lengths.drop hlit) hdist
        set { d with ll, distance })
      (pure (lens.take hlit, (lens.drop hlit).take hdist))
      (fun _ c => TreesFor frame.dest frame.dest_size c.1 c.2 turns) (fun _ => True) := by
  have hroom := h.le
  have hlen := h.room
  have hliteral := h.take (k := hlit) (by omega)
  have hslice := h.slice hlens
  obtain ⟨ll, hll, hrepll, hfullll⟩ := huffmanTree_eq lengths hlit
    hfull.ll (by omega) hlit_le (by
      rw [hliteral]
      exact fun l hl => h.bounded l (List.mem_of_mem_take hl))
  obtain ⟨dist, hdt, hrepdt, hfulldt⟩ := huffmanTree_eq (lengths.drop hlit) hdist
    hfull.distance (by rw [List.length_drop]; omega)
    (hdist_le.trans (by decide)) (by
      rw [hslice]
      exact fun l hl => h.bounded l (List.mem_of_mem_drop (List.mem_of_mem_take hl)))
  intro d r hd hr
  refine Agrees.of_ok (a := ()) (d := { d with ll, distance := dist }) ?_ hr ?_
  · simp [hd.ll, hd.distance, hll, hdt]
  · exact
      { ll := hliteral ▸ hrepll
        distance := hslice ▸ hrepdt
        full := ⟨hfullll, hfulldt⟩
        follows := hd.setTrees ll dist }

/-- `huffman_dynamic_tree` builds the trees of the codes that are sent. -/
theorem huffmanDynamicTree_sim (hfull : frame.Full) :
    Sim (setting cap) (Follows frame turns) (huffmanDynamicTree turns) codes
      (fun _ c => TreesFor frame.dest frame.dest_size c.1 c.2 turns) (fun _ => True) := by
  rw [huffmanDynamicTree, codes]
  dsimp only
  apply Sim.bind (getExtraBits_sim (by omega) 257)
  · intro hlit hlit'
    apply Sim.assume (φ := hlit = hlit' ∧ hlit < 257 + 2 ^ 5) fun d r h => ⟨h.1, h.2.2.1⟩
    rintro ⟨rfl, hhlit⟩
    apply Sim.bind ((getExtraBits_sim (by omega) 1).consequence (fun d r h => h.2.2.2)
      (fun _ _ _ _ h => h) (fun _ h => h))
    · intro hdist hdist'
      apply Sim.assume (φ := hdist = hdist' ∧ hdist < 1 + 2 ^ 5) fun d r h => ⟨h.1, h.2.2.1⟩
      rintro ⟨rfl, hhdist⟩
      apply Sim.bind ((getExtraBits_sim (by omega) 4).consequence (fun d r h => h.2.2.2)
        (fun _ _ _ _ h => h) (fun _ h => h))
      · intro hclen hclen'
        apply Sim.assume (φ := hclen = hclen' ∧ hclen < 4 + 2 ^ 4) fun d r h => ⟨h.1, h.2.2.1⟩
        rintro ⟨rfl, hhclen⟩
        apply sim_check fun d r hd => hd.2.2.2.error
        apply Sim.consequence (sim_require ?_) (fun d r hd => hd.2.2.2) (fun _ _ _ _ h => h)
          (fun _ h => h)
        apply Sim.bind (readCodeLengths_sim hclen 0 _ (by omega)
          (by rw [List.length_replicate]; decide)).1
        · intro lengths sent
          apply Sim.assume (φ := lengths = placeLengths 0 (List.replicate nrLengths 0) sent ∧
            sent.length ≤ 19 ∧ ∀ l ∈ sent, l < 8) fun d r h => ⟨h.1, by omega, h.2.2.1⟩
          rintro ⟨rfl, hsent, hsmall⟩
          have hroom : (placeLengths 0 (List.replicate nrLengths 0) sent).length = nrLengths := by
            rw [length_placeLengths, List.length_replicate]
          obtain ⟨t, ht, hrep, hfullt⟩ := huffmanTree_eq
            (placeLengths 0 (List.replicate nrLengths 0) sent) 19
            hfull.ll (by rw [hroom]; decide) (by decide) (by
              rw [take_placeLengths hsent]
              exact codeLengthCode_le hsmall)
          rw [take_placeLengths hsent] at hrep
          apply sim_check fun d r hd => hd.2.2.2.error
          apply Sim.consequence (sim_require ?_) (fun d r hd => hd.2.2.2) (fun _ _ _ _ h => h)
            (fun _ h => h)
          apply Sim.bind_left (Q := fun d₀ d r => d₀ = d ∧ Follows frame turns d r)
            fun d r hd => ⟨d, d, rfl, rfl, hd⟩
          intro d₀
          apply Sim.assume (φ := d₀.ll = frame.ll ∧ d₀.distance = frame.distance)
          · rintro d r ⟨rfl, hd⟩
            exact ⟨hd.ll, hd.distance⟩
          · rintro ⟨hll, hdistance⟩
            rw [hll, lift_bind ht]
            apply Sim.bind_left (Q := fun _ => Follows { frame with ll := t } turns)
            · rintro d r ⟨rfl, hd⟩
              refine ⟨(), { d₀ with ll := t }, rfl, ?_⟩
              rw [← hdistance]
              exact hd.setTrees t d₀.distance
            intro _
            apply Sim.bind (lengthsLoop_sim hrep (by simp [codeLengthCode, codeLengthOrder])
              hroom (hlit + hdist))
            · intro lengths lens
              apply Sim.assume (φ := hlit + hdist ≤ lens.length ∧ Holds lengths lens)
                fun d r hd => ⟨hd.1, hd.2.1⟩
              rintro ⟨htotal, hholds⟩
              apply sim_check fun d r hd => hd.2.2.error
              refine Sim.consequence (sim_require (sim_require ?_)) (fun d r hd => hd.2.2)
                (fun _ _ _ _ h => h) (fun _ h => h)
              exact storeTrees_sim { frame with ll := t } ⟨hfullt, hfull.distance⟩
                hholds htotal (by simp only [MAX_SYMBOLS]; omega)
                (by simp only [MAX_DISTANCE]; omega)
            · exact fun _ _ => idle_check trivial
        · exact fun _ _ => idle_check trivial
      · exact fun _ _ => idle_check trivial
    · exact fun _ _ => Idle.bind (idle_getExtraBits 4) fun _ _ => idle_check trivial
  · exact fun _ _ => Idle.bind (idle_getExtraBits 1) fun _ _ =>
      Idle.bind (idle_getExtraBits 4) fun _ _ => idle_check trivial

end Cyanea.Boot
