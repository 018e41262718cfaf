/-
# Blocks

The three kinds of block against their readings. Within a block `dest_size` stays as it
was and is brought up to date at its end, so between two blocks it is the number of bytes
stored; there the trees can hold anything, because every block that needs trees builds
them.
-/

import Cyanea.Boot.DynamicTree

namespace Cyanea.Boot

open Math.Bits Math.Simulation Rfc1951

variable {cap n turns : ℕ} {frame : Frame} {literal dist : List ℕ}

/-! ## Lengths and distances -/

theorem lengthCodes_getElem? : ∀ i < 29,
    length_bits[i]? = lengthCodes[i]?.map Prod.fst ∧
      length_base[i]? = lengthCodes[i]?.map Prod.snd := by
  decide

theorem lengthCodes_bounds : ∀ p ∈ lengthCodes, p.1 ≤ 24 ∧ 0 < p.2 := by
  decide

theorem distanceCodes_getElem? : ∀ i < 30,
    dist_bits[i]? = distanceCodes[i]?.map Prod.fst ∧
      dist_base[i]? = distanceCodes[i]?.map Prod.snd := by
  decide

theorem distanceCodes_bounds : ∀ p ∈ distanceCodes, p.1 ≤ 24 ∧ 0 < p.2 := by
  decide

theorem load_error {α : Type} {xs : List α} {i : ℕ} (h : xs.length ≤ i) :
    load xs i = .error .outOfBounds := by
  simp [load, h]

/-- A length symbol, from 257 on. -/
theorem getLength_sim (s : ℕ) :
    Sim (setting cap) (Follows frame n) (getLength s) (lengthOf (s - 257))
      (fun v v' d r => v = v' ∧ 0 < v ∧ Follows frame n d r) (fun _ => True) := by
  rw [getLength, lengthOf, SYM_LL_LENGTH]
  generalize s - 257 = i
  by_cases hi : i < 29
  · obtain ⟨p, hget⟩ : ∃ p, lengthCodes[i]? = some p := ⟨_, List.getElem?_eq_getElem hi⟩
    have hmem : p ∈ lengthCodes := List.mem_of_getElem? hget
    obtain ⟨hbits, hbase⟩ := lengthCodes_getElem? i hi
    rw [hget] at hbits hbase
    obtain ⟨hk, hpos⟩ := lengthCodes_bounds p hmem
    rw [hget, lift_bind (load_eq hbits), lift_bind (load_eq hbase)]
    apply (getExtraBits_sim hk p.2).consequence (fun _ _ h => h)
    · rintro v v' d r ⟨rfl, hbase, -, hd⟩
      exact ⟨rfl, by omega, hd⟩
    · exact fun _ _ => trivial
  · have hnone : lengthCodes[i]? = none := List.getElem?_eq_none (not_lt.1 hi)
    rw [hnone]
    by_cases hi' : i = 29
    · subst hi'
      rw [if_pos rfl, lift_bind (load_eq (show length_bits[29]? = some 127 from rfl)),
        lift_bind (load_eq (show length_base[29]? = some 0 from rfl))]
      exact (getExtraBits_tooMany (by omega) 0 _).consequence (fun _ _ h => h)
        (fun _ _ _ _ h => h) (fun _ _ => trivial)
    · rw [if_neg hi']
      have herror : load length_bits i = .error .outOfBounds :=
        load_error (show 30 ≤ i by omega)
      intro d r hd hr
      exact Agrees.of_lost (lift_error_bind herror) hr (.inl rfl)

theorem getOffset_sim (t : ℕ) :
    Sim (setting cap) (Follows frame n) (getOffset t) (distanceOf t)
      (fun v v' d r => v = v' ∧ 0 < v ∧ Follows frame n d r) (fun _ => True) := by
  rw [getOffset, distanceOf]
  by_cases ht : t < 30
  · obtain ⟨p, hget⟩ : ∃ p, distanceCodes[t]? = some p := ⟨_, List.getElem?_eq_getElem ht⟩
    have hmem : p ∈ distanceCodes := List.mem_of_getElem? hget
    obtain ⟨hbits, hbase⟩ := distanceCodes_getElem? t ht
    rw [hget] at hbits hbase
    obtain ⟨hk, hpos⟩ := distanceCodes_bounds p hmem
    rw [hget, lift_bind (load_eq hbits), lift_bind (load_eq hbase)]
    apply (getExtraBits_sim hk p.2).consequence (fun _ _ h => h)
    · rintro v v' d r ⟨rfl, hbase, -, hd⟩
      exact ⟨rfl, by omega, hd⟩
    · exact fun _ _ => trivial
  · have hnone : distanceCodes[t]? = none := List.getElem?_eq_none (not_lt.1 ht)
    rw [hnone]
    have herror : load dist_bits t = .error .outOfBounds := load_error (not_lt.1 ht)
    intro d r hd hr
    exact Agrees.of_lost (lift_error_bind herror) hr (.inl rfl)

theorem idle_getOffset_zero : Idle (setting cap) (getOffset 0) (fun _ => True) := by
  rw [getOffset, lift_bind (load_eq (show dist_bits[0]? = some 0 from rfl)),
    lift_bind (load_eq (show dist_base[0]? = some 1 from rfl))]
  intro d hd
  have h : Idle (setting cap) (getExtraBits 0 1) (· = 1) := idle_getExtraBits 1
  obtain ⟨a, ha, -⟩ := h d hd
  exact ⟨a, ha, trivial⟩

/-! ## Storing -/

theorem storeDest_eq {d : Deflate} (b : UInt8) (h : d.dest.length < cap) :
    storeDest cap b d = .ok ((), { d with dest := d.dest ++ [b] }) := by
  simp [storeDest, h]

theorem storeDest_error {d : Deflate} (b : UInt8) (h : cap ≤ d.dest.length) :
    storeDest cap b d = .error .overflow := by
  simp [storeDest, not_lt.2 h]

/-- Copying byte by byte, as far as there is room. -/
theorem copyMatch_eq (cap : ℕ) {offset : ℕ} (hpos : 0 < offset) (length : ℕ) {d : Deflate}
    (hback : offset ≤ d.dest.length) :
    copyMatch cap offset length d =
      if length = 0 ∨ d.dest.length + length ≤ cap then
        .ok ((), { d with dest := copyBack offset length d.dest })
      else .error .overflow := by
  induction length generalizing d with
  | zero => rfl
  | succ length ih =>
      have hload : load d.dest (d.dest.length - offset) =
          .ok (d.dest.getD (d.dest.length - offset) 0) := by
        apply load_eq
        rw [List.getD_eq_getElem?_getD, List.getElem?_eq_getElem (by omega), Option.getD_some]
      by_cases hroom : d.dest.length < cap
      · have hnext := ih (d := { d with
          dest := d.dest ++ [d.dest.getD (d.dest.length - offset) 0] }) (by simp; omega)
        have hrun : copyMatch cap offset (length + 1) d = copyMatch cap offset length
            { d with dest := d.dest ++ [d.dest.getD (d.dest.length - offset) 0] } := by
          simp only [copyMatch, bind_apply, get_apply, ok_bind, not_lt.2 hback, if_false,
            liftM_apply, hload, storeDest_eq _ hroom]
        rw [hrun, hnext]
        have hiff : (length = 0 ∨ d.dest.length + 1 + length ≤ cap) ↔
            (length + 1 = 0 ∨ d.dest.length + (length + 1) ≤ cap) := by omega
        simp only [List.length_append, List.length_singleton, hiff, copyBack]
      · rw [if_neg (by omega)]
        simp only [copyMatch, bind_apply, get_apply, ok_bind, not_lt.2 hback, if_false,
          liftM_apply, hload, storeDest_error _ (not_lt.1 hroom), error_bind]

/-! ## Compressed blocks -/

/-- What stands in the frame once the output is `dest`. -/
def Frame.at (frame : Frame) (dest : List UInt8) : Frame := { frame with dest }

theorem Follows.emit {d : Deflate} {r : Reading} (hd : Follows frame n d r)
    (out : List UInt8) : Follows (frame.at out) n { d with dest := out } { r with out } :=
  { error := hd.error
    sound := ⟨hd.sound.bit_accum, hd.sound.in_ptr⟩
    nr_bits := hd.nr_bits
    bits := hd.bits
    left := hd.left
    dest := rfl
    frame := by rw [← hd.frame]; rfl }

/-- The reading has output of its own, and all else in the frame is as before. -/
def Within (frame : Frame) (n : ℕ) (d : Deflate) (r : Reading) : Prop :=
  Follows (frame.at r.out) n d r

theorem Follows.within {d : Deflate} {r : Reading} (hd : Follows frame n d r) :
    Within frame n d r := by
  have hout : frame.at r.out = frame := by rw [hd.out]; rfl
  rw [Within, hout]
  exact hd

theorem storeDest_sim (b : UInt8) {P : Unit → Prop} :
    Sim (setting cap) (Within frame n) (storeDest cap b) (emit [b])
      (fun _ _ => Within frame n) P := by
  intro d r hd hr
  have hlen : d.dest.length = r.out.length := congrArg List.length hd.dest
  by_cases hroom : d.dest.length < cap
  · refine Agrees.of_ok (storeDest_eq b hroom) ?_ ?_
    · show (r.out ++ [b]).length ≤ cap
      rw [List.length_append, List.length_singleton]
      omega
    · have h := hd.emit (r.out ++ [b])
      rwa [← hd.dest] at h ⊢
  · refine Agrees.of_overflow (storeDest_error b (not_lt.1 hroom)) ?_
    show ¬ (r.out ++ [b]).length ≤ cap
    rw [List.length_append, List.length_singleton]
    omega

theorem length_copyBack (distance length : ℕ) (out : List UInt8) :
    (copyBack distance length out).length = out.length + length := by
  induction length generalizing out with
  | zero => rfl
  | succ length ih =>
      rw [copyBack, ih, List.length_append, List.length_singleton]
      omega

theorem copyMatch_sim {offset length : ℕ} (hoffset : 0 < offset) (hlength : 0 < length)
    {P : Unit → Prop} :
    Sim (setting cap) (Within frame n) (copyMatch cap offset length) (copy offset length)
      (fun _ _ => Within frame n) P := by
  intro d r hd hr
  have hlen : d.dest.length = r.out.length := congrArg List.length hd.dest
  by_cases hback : offset ≤ r.out.length
  · have hrun := copyMatch_eq cap hoffset length (d := d) (by omega)
    have hgoal : (copy offset length).run r =
        .ok () { r with out := copyBack offset length r.out } := if_pos hback
    rw [hgoal]
    by_cases hroom : d.dest.length + length ≤ cap
    · rw [if_pos (.inr hroom)] at hrun
      refine Agrees.of_ok hrun ?_ ?_
      · show (copyBack offset length r.out).length ≤ cap
        rw [length_copyBack]
        omega
      · have h := hd.emit (copyBack offset length r.out)
        rwa [← hd.dest] at h ⊢
    · rw [if_neg (by omega)] at hrun
      refine Agrees.of_overflow hrun ?_
      show ¬ (copyBack offset length r.out).length ≤ cap
      rw [length_copyBack]
      omega
  · have hgoal : (copy offset length).run r =
        .lost { r with broken := r.broken ++ [.distance] } := if_neg hback
    rw [hgoal]
    obtain ⟨length, rfl⟩ := Nat.exists_eq_succ_of_ne_zero hlength.ne'
    refine Agrees.of_lost (e := .beforeDest) ?_ hr (.inr (.inr rfl))
    have hlt : d.dest.length < offset := by omega
    simp [copyMatch, hlt]

/-- Reading bits between two pieces of output. -/
theorem sim_within {α β : Type} {m : ℕ} {f : Inflate α} {g : Reader Reading β}
    {Q : α → β → Prop} {P : α → Prop}
    (h : ∀ out, Sim (setting cap) (Follows (frame.at out) n) f g
      (fun a b d r => Q a b ∧ Follows (frame.at out) m d r) P) :
    Sim (setting cap) (Within frame n) f g (fun a b d r => Q a b ∧ Within frame m d r) P := by
  intro d r hd hr
  apply (h r.out d r hd hr).mono
  · rintro a b d' r' ⟨hq, hd'⟩
    have hout : r'.out = r.out := hd'.out
    exact ⟨hq, by rw [Within, hout]; exact hd'⟩
  · exact fun _ h => h

/-- What a block leaves behind when it ends: `dest_size` has grown by what was stored since
the block began at `t_dest`. -/
def Ended (frame : Frame) (t_dest n : ℕ) (d : Deflate) (r : Reading) : Prop :=
  Follows ⟨r.out, frame.dest_size + (r.out.length - t_dest), frame.ll, frame.distance⟩ n d r

theorem Ended.mono {t_dest m : ℕ} {d : Deflate} {r : Reading} (h : Ended frame t_dest n d r)
    (hnm : n ≤ m) : Ended frame t_dest m d r :=
  Follows.mono h hnm

theorem Follows.end {d : Deflate} {r : Reading} (hd : Within frame n d r) (t_dest : ℕ) :
    Ended frame t_dest n
      { d with dest_size := d.dest_size + (d.dest.length - t_dest) } r :=
  { error := hd.error
    sound := ⟨hd.sound.bit_accum, hd.sound.in_ptr⟩
    nr_bits := hd.nr_bits
    bits := hd.bits
    left := hd.left
    dest := hd.dest
    frame := by
      show (⟨d.dest, d.dest_size + (d.dest.length - t_dest), d.ll, d.distance⟩ : Frame) = _
      rw [hd.dest, hd.dest_size, hd.ll, hd.distance]
      rfl }

theorem decodeLl_within (hll : Represents frame.ll literal) :
    Sim (setting cap) (Within frame (n + 1)) decodeLl (symbol literal)
      (fun v v' d r => (v = v' ∧ v < literal.length) ∧ Within frame n d r) (· = 0) := by
  apply sim_within
  intro out
  have hll' : Represents (frame.at out).ll literal := hll
  exact (decodeLl_sim hll').consequence (fun _ _ h => h) (fun _ _ _ _ h => and_assoc.2 h)
    fun _ h => h

theorem decodeDistance_within (hdist : Represents frame.distance dist) :
    Sim (setting cap) (Within frame n) decodeDistance (symbol dist)
      (fun v v' d r => v = v' ∧ Within frame n d r) (· = 0) := by
  apply sim_within
  intro out
  have hdist' : Represents (frame.at out).distance dist := hdist
  exact (decodeDistance_sim (n := n) hdist').consequence (fun _ _ h => h.mono (Nat.le_succ n))
    (fun _ _ _ _ h => ⟨h.1, h.2.2⟩) fun _ h => h

theorem getLength_within (s : ℕ) :
    Sim (setting cap) (Within frame n) (getLength s) (lengthOf (s - 257))
      (fun v v' d r => (v = v' ∧ 0 < v) ∧ Within frame n d r) (fun _ => True) :=
  sim_within fun _ => (getLength_sim s).consequence (fun _ _ h => h)
    (fun _ _ _ _ h => and_assoc.2 h) fun _ h => h

theorem getOffset_within (t : ℕ) :
    Sim (setting cap) (Within frame n) (getOffset t) (distanceOf t)
      (fun v v' d r => (v = v' ∧ 0 < v) ∧ Within frame n d r) (fun _ => True) :=
  sim_within fun _ => (getOffset_sim t).consequence (fun _ _ h => h)
    (fun _ _ _ _ h => and_assoc.2 h) fun _ h => h

/-- How the two sides stand after a turn of the symbol loop. -/
abbrev SymbolTurn (frame : Frame) (t_dest turns : ℕ) :
    ℕ → Turn Unit Unit → Turn Unit Unit → Deflate → Reading → Prop :=
  TurnRel (fun _ _ => Within frame turns) (fun _ _ => Ended frame t_dest turns) Reading.left

theorem again_sim {t_dest m : ℕ} (hm : m ≤ turns) :
    Sim (setting cap) (Within frame m) (pure (.again ())) (pure (.again ()))
      (SymbolTurn frame t_dest turns m) (Leaves fun _ => True) := by
  apply Sim.pure
  intro d r hd
  exact ⟨Follows.mono hd hm, hd.left⟩

/-- A length and distance pair. -/
theorem match_sim (hdist : Represents frame.distance dist) (s : ℕ) {t_dest m : ℕ}
    (hm : m ≤ turns) :
    Sim (setting cap) (Within frame m)
      (do
        let length ← getLength s
        let distance ← decodeDistance
        let offset ← getOffset distance
        if ← failed then
          return .leave ()
        else
          copyMatch cap offset length
          return .again ())
      (do
        let length ← lengthOf (s - 257)
        let t ← symbol dist
        let distance ← distanceOf t
        copy distance length
        return .again ())
      (SymbolTurn frame t_dest turns m) (Leaves fun _ => True) := by
  apply Sim.bind (getLength_within s)
  · intro length length'
    apply Sim.assume (φ := length = length' ∧ 0 < length) fun d r h => h.1
    rintro ⟨rfl, hlength⟩
    apply Sim.bind ((decodeDistance_within hdist).consequence (fun _ _ h => h.2)
      (fun _ _ _ _ h => h) fun _ h => h)
    · intro t t'
      apply Sim.assume (φ := t = t') fun d r h => h.1
      rintro rfl
      apply Sim.bind ((getOffset_within t).consequence (fun _ _ h => h.2)
        (fun _ _ _ _ h => h) fun _ h => h)
      · intro offset offset'
        apply Sim.assume (φ := offset = offset' ∧ 0 < offset) fun d r h => h.1
        rintro ⟨rfl, hoffset⟩
        apply sim_check fun d r hd => hd.2.error
        apply Sim.bind ((copyMatch_sim hoffset hlength (P := fun _ => False)).consequence
          (fun _ _ h => h.2) (fun _ _ _ _ h => h) fun _ h => h)
        · exact fun _ _ => again_sim hm
        · exact fun _ h => h.elim
      · exact fun _ _ => idle_check trivial
    · rintro _ rfl
      exact Idle.bind idle_getOffset_zero fun _ _ => idle_check trivial
  · intro length _
    apply Idle.bind idle_decodeDistance
    rintro _ rfl
    exact Idle.bind idle_getOffset_zero fun _ _ => idle_check trivial

theorem symbolTurn_sim (hll : Represents frame.ll literal)
    (hdist : Represents frame.distance dist) (t_dest : ℕ) {m : ℕ} (hm : m ≤ turns) :
    Sim (setting cap) (Within frame (m + 1)) (symbolTurn cap t_dest)
      (Rfc1951.symbolTurn literal dist) (SymbolTurn frame t_dest turns m)
      (Leaves fun _ => True) := by
  rw [symbolTurn, Rfc1951.symbolTurn, SYM_LL_EOB, endOfBlock]
  apply Sim.bind (decodeLl_within hll)
  · intro s s'
    apply Sim.assume (φ := s = s') fun d r h => h.1.1
    rintro rfl
    apply sim_check fun d r hd => hd.2.error
    by_cases hend : s = 256
    · rw [if_pos hend, if_pos hend]
      intro d r hd hr
      exact Agrees.of_ok rfl hr ((Follows.end hd.2 t_dest).mono hm)
    · rw [if_neg hend, if_neg hend]
      by_cases hliteral : s < 256
      · rw [if_pos hliteral, if_pos hliteral]
        apply Sim.bind ((storeDest_sim (UInt8.ofNat s) (P := fun _ => False)).consequence
          (fun _ _ h => h.2) (fun _ _ _ _ h => h) fun _ h => h)
        · exact fun _ _ => again_sim hm
        · exact fun _ h => h.elim
      · rw [if_neg hliteral, if_neg hliteral]
        exact (match_sim hdist s hm).consequence (fun _ _ h => h.2) (fun _ _ _ _ h => h)
          fun _ h => h
  · exact fun _ _ => idle_check trivial

/-- The loop over the symbols of a block. -/
theorem symbolLoop_sim (hll : Represents frame.ll literal)
    (hdist : Represents frame.distance dist) (t_dest : ℕ) :
    Sim (setting cap) (Within frame turns)
      (iterate .unfinished (fun _ => symbolTurn cap t_dest) turns ())
      (symbols literal dist) (fun _ _ => Ended frame t_dest turns) (fun _ => True) := by
  apply Sim.iterateWithin (I := fun _ _ => Within frame turns) Reading.left turns
  · intro _ _ m
    apply Sim.assume (φ := m < turns)
    · rintro d r ⟨hd, rfl⟩
      exact hd.left
    · intro hm
      apply (symbolTurn_sim hll hdist t_dest hm.le).consequence
      · rintro d r ⟨hd, rfl⟩
        exact { hd with left := Nat.lt_succ_self _ }
      · exact fun _ _ _ _ h => h
      · exact fun _ h => h
  · exact fun _ _ d r hd => hd.left

/-- Between two blocks `dest_size` is the number of bytes stored. -/
structure Boundary (n : ℕ) (d : Deflate) (r : Reading) : Prop where
  full : d.frame.Full
  follows : Follows ⟨r.out, r.out.length, d.ll, d.distance⟩ n d r

theorem Ended.boundary {d : Deflate} {r : Reading} {t_dest : ℕ}
    (h : Ended frame t_dest n d r) (hfull : frame.Full)
    (hsize : frame.dest_size + (r.out.length - t_dest) = r.out.length) : Boundary n d r := by
  have hd := h
  rw [Ended, hsize] at hd
  constructor
  · rw [hd.frame]
    exact ⟨hfull.ll, hfull.distance⟩
  · rw [hd.ll, hd.distance]
    exact hd

/-- `deflate_block` reads the symbols of the block whose trees are in place. -/
theorem deflateBlock_sim :
    Sim (setting cap) (fun d r => TreesFor r.out r.out.length literal dist turns d r)
      (deflateBlock cap turns) (symbols literal dist) (fun _ _ => Boundary turns)
      (fun _ => True) := by
  intro d r hd hr
  have hrun : deflateBlock cap turns d =
      iterate .unfinished (fun _ => symbolTurn cap d.dest.length) turns () d := rfl
  rw [hrun, hd.follows.dest]
  have hll : Represents (⟨r.out, r.out.length, d.ll, d.distance⟩ : Frame).ll literal := hd.ll
  have hsymbols : Sim (setting cap) (Within ⟨r.out, r.out.length, d.ll, d.distance⟩ turns) _ _
      _ _ := symbolLoop_sim hll hd.distance r.out.length
  have hloop := Sim.stable (K := fun r' => r.out.length ≤ r'.out.length)
    (fun _ _ hle h => h.trans (Reading.out_le hle)) hsymbols
  apply (hloop d r ⟨hd.follows.within, le_rfl⟩ hr).mono
  · rintro _ _ d' r' ⟨hended, hle⟩
    apply hended.boundary
    · exact ⟨hd.full.ll, hd.full.distance⟩
    · show r.out.length + (r'.out.length - r.out.length) = r'.out.length
      omega
  · exact fun _ _ => trivial

/-! ## Stored blocks -/

theorem number16_ofBytes (a b : UInt8) (rest out : List UInt8) (broken : List Rule) :
    (number 16).run ⟨ofBytes (a :: b :: rest), out, broken⟩ =
      .ok (a.toNat + 2 ^ 8 * b.toNat) ⟨ofBytes rest, out, broken⟩ := by
  have hbits : ofBytes (a :: b :: rest) =
      (ofNat 8 a.toNat ++ ofNat 8 b.toNat) ++ ofBytes rest := by simp
  rw [hbits, number_append (by simp), toNat_append, toNat_ofNat, toNat_ofNat, length_ofNat,
    Nat.mod_eq_of_lt a.toNat_lt, Nat.mod_eq_of_lt b.toNat_lt]

/-- Storing bytes from the source, as far as there is room. -/
theorem copyStored_eq (cap it : ℕ) {d : Deflate} (hit : d.in_ptr + it ≤ d.in_end) :
    copyStored cap it d =
      if it = 0 ∨ d.dest.length + it ≤ cap then
        .ok ((), { d with in_ptr := d.in_ptr + it,
                          dest := d.dest ++ (d.source.drop d.in_ptr).take it })
      else .error .overflow := by
  induction it generalizing d with
  | zero => simp [copyStored]
  | succ it ih =>
      have hlt : d.in_ptr < d.source.length := by
        show d.in_ptr < d.in_end
        omega
      have hget : d.source[d.in_ptr]? = some d.source[d.in_ptr] := List.getElem?_eq_getElem hlt
      generalize d.source[d.in_ptr] = b at hget
      have hload : loadSource d.source d.in_ptr = .ok b := by simp [loadSource, hget]
      by_cases hroom : d.dest.length < cap
      · have hnext := ih (d := { d with in_ptr := d.in_ptr + 1, dest := d.dest ++ [b] })
          (by show d.in_ptr + 1 + it ≤ d.in_end; omega)
        have hrun : copyStored cap (it + 1) d = copyStored cap it
            { d with in_ptr := d.in_ptr + 1, dest := d.dest ++ [b] } := by
          have hstore := storeDest_eq (d := { d with in_ptr := d.in_ptr + 1 }) b hroom
          simp only [copyStored, bind_apply, get_apply, ok_bind, liftM_apply, hload, set_apply,
            hstore]
        rw [hrun, hnext, drop_in_ptr hget]
        simp only [List.length_append, List.length_singleton, List.take_succ_cons,
          List.append_assoc, List.singleton_append, Nat.add_assoc, Nat.add_comm 1 it]
        exact if_congr (by omega) rfl rfl
      · rw [if_neg (by omega)]
        have hstore := storeDest_error (d := { d with in_ptr := d.in_ptr + 1 }) b
          (not_lt.1 hroom)
        simp only [copyStored, bind_apply, get_apply, ok_bind, liftM_apply, hload, set_apply,
          hstore, error_bind]

theorem getUnalignedLe16_eq {source : List UInt8} {i : ℕ} {a b : UInt8} {rest : List UInt8}
    (h : source.drop i = a :: b :: rest) :
    getUnalignedLe16 source i = .ok (a.toNat + 2 ^ 8 * b.toNat) := by
  have ha : source[i]? = some a := by
    have := congrArg (·[0]?) h
    simpa using this
  have hb : source[i + 1]? = some b := by
    have := congrArg (·[1]?) h
    simpa using this
  simp [getUnalignedLe16, loadSource, ha, hb, pure, Except.pure]

/-- The padding to the next byte boundary is what is left in the accumulator. -/
theorem run_align {d : Deflate} {r : Reading} (hd : Follows frame n d r) :
    align.run r = .ok () { r with bits := ofBytes (d.source.drop d.in_ptr) } := by
  have hpad : r.bits.length % 8 = d.nr_bits := by
    rw [← hd.bits, length_bitsLeft]
    have := hd.nr_bits
    omega
  have hdrop : r.bits.drop d.nr_bits = ofBytes (d.source.drop d.in_ptr) := by
    rw [← hd.bits, Deflate.bitsLeft, List.drop_left' (length_ofNat _ _)]
  simp only [align, hpad, hdrop]

/-- Neither `LEN` nor `NLEN` may be cut short. -/
theorem stored_short {d : Deflate} {r : Reading} (hd : Follows frame n d r)
    (hshort : d.in_end - d.in_ptr < 4) :
    ∃ r', stored.run r = .rejected r' ∧ r'.out = r.out := by
  have hlen : (ofBytes (d.source.drop d.in_ptr)).length = 8 * (d.in_end - d.in_ptr) := by
    rw [length_ofBytes, List.length_drop]
    rfl
  rw [stored, run_bind, run_align hd]
  show ∃ r', Result.bind ((number 16).run _) _ = _ ∧ _
  by_cases htwo : 16 ≤ (ofBytes (d.source.drop d.in_ptr)).length
  · have hfirst : (number 16).run { r with bits := ofBytes (d.source.drop d.in_ptr) } =
        .ok (toNat ((ofBytes (d.source.drop d.in_ptr)).take 16))
          { r with bits := (ofBytes (d.source.drop d.in_ptr)).drop 16 } := if_pos htwo
    rw [hfirst]
    refine ⟨{ r with bits := (ofBytes (d.source.drop d.in_ptr)).drop 16 }, ?_, rfl⟩
    show Result.bind ((number 16).run _) _ = _
    rw [number_rejected (by show (List.drop 16 _).length < 16; rw [List.length_drop]; omega)]
    rfl
  · refine ⟨{ r with bits := ofBytes (d.source.drop d.in_ptr) }, ?_, rfl⟩
    rw [number_rejected (not_le.1 htwo)]
    rfl

/-- What a stored block adds to where the call stands. -/
theorem Boundary.stored {d : Deflate} {r : Reading} (hd : Boundary n d r) {p : ℕ}
    (hp : p ≤ d.in_end) (data : List UInt8) (broken : List Rule)
    (hleft : (ofBytes (d.source.drop p)).length < n) :
    Boundary n
      { d with
        in_ptr := p
        dest := d.dest ++ data
        dest_size := d.dest_size + data.length
        bit_accum := 0
        nr_bits := 0 }
      ⟨ofBytes (d.source.drop p), r.out ++ data, broken⟩ :=
  { full := ⟨hd.full.ll, hd.full.distance⟩
    follows :=
      { error := hd.follows.error
        sound := ⟨Nat.one_pos, hp⟩
        nr_bits := Nat.succ_pos 7
        bits := rfl
        left := hleft
        dest := by
          show d.dest ++ data = r.out ++ data
          rw [hd.follows.dest]
        frame := by
          show (⟨d.dest ++ data, d.dest_size + data.length, d.ll, d.distance⟩ : Frame) = _
          rw [hd.follows.dest, hd.follows.dest_size, List.length_append] } }

/-- A stored block. -/
theorem deflateUncompressedBlock_sim :
    Sim (setting cap) (Boundary turns) (deflateUncompressedBlock cap) stored
      (fun _ _ => Boundary turns) (fun _ => True) := by
  intro d r hd hr
  have hlen : d.dest.length = r.out.length := congrArg List.length hd.follows.dest
  have hptr := hd.follows.sound.in_ptr
  by_cases hshort : d.in_end - d.in_ptr < 4
  · obtain ⟨r', hrun, hout⟩ := stored_short hd.follows hshort
    rw [hrun]
    refine Agrees.of_rejected (a := ()) (d := { d with error := .OVERFLOW }) ?_ ?_ ?_ trivial
    · simp [deflateUncompressedBlock, hshort, raise]
    · show r'.out.length ≤ cap
      rwa [hout]
    · show Err.OVERFLOW ≠ .NONE
      decide
  · have hdrop : (d.source.drop d.in_ptr).length = d.in_end - d.in_ptr := List.length_drop
    obtain ⟨a, b, a', b', rest, hrest⟩ : ∃ a b a' b' rest,
        d.source.drop d.in_ptr = a :: b :: a' :: b' :: rest := by
      rcases hdata : d.source.drop d.in_ptr with _ | ⟨a, _ | ⟨b, _ | ⟨a', _ | ⟨b', rest⟩⟩⟩⟩
      case cons.cons.cons.cons => exact ⟨a, b, a', b', rest, rfl⟩
      all_goals
        rw [hdata] at hdrop
        simp at hdrop
        omega
    have hrest' : d.source.drop (d.in_ptr + 4) = rest := by
      rw [← List.drop_drop, hrest]
      rfl
    have hrestlen : rest.length = d.in_end - (d.in_ptr + 4) := by
      rw [← hrest', List.length_drop]
      rfl
    have hload := getUnalignedLe16_eq hrest
    obtain ⟨broken, hread⟩ : ∃ broken, stored.run r =
        Result.bind ((bytes (a.toNat + 2 ^ 8 * b.toNat)).run ⟨ofBytes rest, r.out, broken⟩)
          fun data r => (emit data).run r := by
      refine ⟨if a'.toNat + 2 ^ 8 * b'.toNat = 2 ^ 16 - 1 - (a.toNat + 2 ^ 8 * b.toNat) then
        r.broken else r.broken ++ [.complement], ?_⟩
      simp only [stored, run_bind, run_align hd.follows, hrest, number16_ofBytes, run_require,
        Result.bind]
    rw [hread]
    generalize hk : a.toNat + 2 ^ 8 * b.toNat = k at hload
    by_cases hcut : rest.length < k
    · obtain ⟨bits, hrej⟩ := bytes_rejected k rest r.out broken hcut
      rw [hrej]
      refine Agrees.of_rejected (a := ())
        (d := { d with in_ptr := d.in_ptr + 4, error := .OVERFLOW }) ?_ hr ?_ trivial
      · have hlt : d.in_end - (d.in_ptr + 4) < k := by omega
        simp [deflateUncompressedBlock, hshort, hload, hlt, raise]
      · show Err.OVERFLOW ≠ .NONE
        decide
    · have hge : ¬ d.in_end - (d.in_ptr + 4) < k := by omega
      have htake : (rest.take k).length = k := by rw [List.length_take]; omega
      have hsplit := bytes_ofBytes k (rest.take k) r.out broken (ofBytes (rest.drop k)) htake
      rw [← ofBytes_append, List.take_append_drop] at hsplit
      rw [hsplit]
      show Agrees _ _ (.ok () (⟨ofBytes (rest.drop k), r.out ++ rest.take k, broken⟩ : Reading))
        _ _
      have hcopy := copyStored_eq cap k (d := { d with in_ptr := d.in_ptr + 4 })
        (by show d.in_ptr + 4 + k ≤ d.in_end; omega)
      have hsource : List.drop (d.in_ptr + 4) d.source = rest := hrest'
      rw [hsource] at hcopy
      have hrun : deflateUncompressedBlock cap d =
          (copyStored cap k { d with in_ptr := d.in_ptr + 4 } >>= fun p =>
            .ok ((), { p.2 with
              dest_size := p.2.dest_size + k, bit_accum := 0, nr_bits := 0 })) := by
        simp [deflateUncompressedBlock, hshort, hload, hge]
      by_cases hroom : d.dest.length + k ≤ cap
      · rw [if_pos (.inr hroom)] at hcopy
        rw [hcopy] at hrun
        refine Agrees.of_ok hrun ?_ ?_
        · show (r.out ++ rest.take k).length ≤ cap
          rw [List.length_append, htake]
          omega
        · have hdropped : rest.drop k = d.source.drop (d.in_ptr + 4 + k) := by
            rw [← hrest', List.drop_drop]
          have hleft : (ofBytes (d.source.drop (d.in_ptr + 4 + k))).length < turns := by
            have h := hd.follows.left
            rw [← hd.follows.bits, length_bitsLeft] at h
            rw [length_ofBytes, List.length_drop]
            show 8 * (d.in_end - _) < turns
            omega
          have hnext := hd.stored (p := d.in_ptr + 4 + k) (by omega) (rest.take k) broken hleft
          rw [htake] at hnext
          rw [hdropped]
          exact hnext
      · have hroom' : ¬ (k = 0 ∨ d.dest.length + k ≤ cap) := by
          have hfits : r.out.length ≤ cap := hr
          have hdest : r.out = d.dest := hd.follows.dest.symm
          rintro (rfl | h)
          · rw [hdest] at hfits
            exact hroom hfits
          · exact hroom h
        rw [if_neg hroom'] at hcopy
        rw [hcopy] at hrun
        refine Agrees.of_overflow hrun ?_
        show ¬ (r.out ++ rest.take k).length ≤ cap
        rw [List.length_append, htake]
        omega

/-! ## The stream -/

theorem fixedBlock_sim :
    Sim (setting cap) (Boundary turns)
      (do
        let d ← get
        let (ll, distance) ← huffmanFixedTree d.ll d.distance
        set { d with ll, distance }
        deflateBlock cap turns)
      (symbols fixedLiteral fixedDistance) (fun _ _ => Boundary turns) (fun _ => True) := by
  apply Sim.step _ deflateBlock_sim
  intro d r hd
  obtain ⟨ll, distance, hrun, hll, hdistance, hfullll, hfulldist⟩ :=
    huffmanFixedTree_eq hd.full.ll hd.full.distance
  have hrun' : huffmanFixedTree d.ll d.distance = .ok (ll, distance) := hrun
  refine ⟨{ d with ll, distance }, ?_, ?_⟩
  · simp only [bind_apply, get_apply, ok_bind, liftM_apply, hrun', set_apply]
  · exact ⟨hll, hdistance, ⟨hfullll, hfulldist⟩, hd.follows.setTrees ll distance⟩

theorem dynamicBlock_sim :
    Sim (setting cap) (Boundary turns)
      (do
        huffmanDynamicTree turns
        if ← failed then
          return
        else
          deflateBlock cap turns)
      (do
        let (literal, dist) ← codes
        symbols literal dist)
      (fun _ _ => Boundary turns) (fun _ => True) := by
  apply Sim.bind (N := fun _ c d r => TreesFor r.out r.out.length c.1 c.2 turns d r)
    (P := fun _ => True)
  · intro d r hd hr
    have hfull : (⟨r.out, r.out.length, d.ll, d.distance⟩ : Frame).Full :=
      ⟨hd.full.ll, hd.full.distance⟩
    apply (huffmanDynamicTree_sim hfull d r hd.follows hr).mono
    · intro _ c d' r' h
      have hout : r'.out = r.out := h.follows.out
      rw [hout]
      exact h
    · exact fun _ _ => trivial
  · rintro _ ⟨literal, dist⟩
    exact sim_check (fun d r hd => hd.follows.error) deflateBlock_sim
  · exact fun _ _ => idle_check trivial

/-- Each block type is read as the format says. -/
theorem deflateBlockOfType_sim (block_type : ℕ) :
    Sim (setting cap) (Boundary turns) (deflateBlockOfType cap turns block_type)
      (block block_type) (fun _ _ => Boundary turns) (fun _ => True) := by
  match block_type with
  | 0 => exact deflateUncompressedBlock_sim
  | 1 => exact fixedBlock_sim
  | 2 => exact dynamicBlock_sim
  | n + 3 =>
      intro d r hd hr
      refine Agrees.of_rejected (a := ()) (d := { d with error := .UNDEFINED }) ?_ hr ?_
        trivial
      · simp [deflateBlockOfType, BTYPE_NO_COMPRESSION, BTYPE_COMPRESSED_FIXED,
          BTYPE_COMPRESSED_DYNAMIC, raise]
      · show Err.UNDEFINED ≠ .NONE
        decide

/-- Reading bits between two blocks. -/
theorem sim_boundary {α β : Type} {m : ℕ} {f : Inflate α} {g : Reader Reading β}
    {Q : α → β → Prop} {P : α → Prop}
    (h : ∀ frame, Sim (setting cap) (Follows frame n) f g
      (fun a b d r => Q a b ∧ Follows frame m d r) P) :
    Sim (setting cap) (Boundary n) f g (fun a b d r => Q a b ∧ Boundary m d r) P := by
  intro d r hd hr
  apply (h _ d r hd.follows hr).mono
  · rintro a b d' r' ⟨hq, hd'⟩
    have hout : r'.out = r.out := hd'.out
    refine ⟨hq, ?_, ?_⟩
    · rw [hd'.frame]
      exact ⟨hd.full.ll, hd.full.distance⟩
    · rw [hout, hd'.ll, hd'.distance]
      exact hd'
  · exact fun _ h => h

theorem getBits_boundary {k : ℕ} (hk : k ≤ 24) :
    Sim (setting cap) (Boundary (n + k)) (getBits k) (number k)
      (fun v v' d r => v = v' ∧ Boundary n d r) (· = 0) :=
  sim_boundary fun _ => (getBits_sim hk).consequence (fun _ _ h => h)
    (fun _ _ _ _ h => ⟨h.1, h.2.2⟩) fun _ h => h

theorem Boundary.mono {m : ℕ} {d : Deflate} {r : Reading} (h : Boundary n d r)
    (hnm : n ≤ m) : Boundary m d r :=
  ⟨h.full, h.follows.mono hnm⟩

/-- A block and the three bits before it. -/
theorem bufferTurn_sim {m : ℕ} (hm : m ≤ turns) :
    Sim (setting cap) (Boundary (m + 1)) (bufferTurn cap turns) blockTurn
      (TurnRel (fun (_ _ : Unit) => Boundary turns) (fun (_ _ : Unit) => Boundary turns)
        Reading.left m) (Leaves fun _ => True) := by
  rw [bufferTurn, blockTurn]
  apply Sim.bind (getBits_boundary (by omega))
  · intro final final'
    apply Sim.assume (φ := final = final') fun d r h => h.1
    rintro rfl
    apply Sim.bind ((getBits_boundary (n := m) (by omega)).consequence
      (fun _ _ h => h.2.mono (by omega)) (fun _ _ _ _ h => h) fun _ h => h)
    · intro type type'
      apply Sim.assume (φ := type = type') fun d r h => h.1
      rintro rfl
      apply sim_check fun d r hd => hd.2.follows.error
      have hof : Sim (setting cap) (Boundary turns) (deflateBlockOfType cap turns type) _ _ _ :=
        deflateBlockOfType_sim type
      have hblock := Sim.stable (K := fun r => r.bits.length < m)
        (fun _ _ hle h => lt_of_le_of_lt (Reading.bits_le hle) h) hof
      apply Sim.bind (hblock.consequence
        (fun d r h => ⟨h.2.mono hm, h.2.follows.left⟩) (fun _ _ _ _ h => h) fun _ h => h)
      · rintro _ _ d r ⟨hd, hleft⟩ hr
        by_cases hfinal : final = 0
        · rw [if_pos hfinal]
          rw [run_pure]
          have hturn : TurnRel (fun (_ _ : Unit) => Boundary turns)
              (fun (_ _ : Unit) => Boundary turns) Reading.left m (.again ()) (.again ()) d r :=
            ⟨hd, hleft⟩
          apply Agrees.of_ok _ hr hturn
          simp [hd.follows.error, hfinal]
        · rw [if_neg hfinal]
          rw [run_pure]
          have hturn : TurnRel (fun (_ _ : Unit) => Boundary turns)
              (fun (_ _ : Unit) => Boundary turns) Reading.left m (.leave ()) (.leave ()) d r :=
            hd
          apply Agrees.of_ok _ hr hturn
          simp [hfinal]
      · intro _ _ d hd
        have hd' : d.error ≠ .NONE := hd
        exact ⟨.leave (), by simp [hd'], trivial⟩
    · exact fun _ _ => idle_check trivial
  · exact fun _ _ => Idle.bind idle_getBits fun _ _ => idle_check trivial

/-- The loop over the blocks of a stream. -/
theorem bufferLoop_sim :
    Sim (setting cap) (Boundary turns)
      (iterate .unfinished (fun _ => bufferTurn cap turns) turns ()) blocks
      (fun _ _ => Boundary turns) (fun _ => True) := by
  apply Sim.iterateWithin (I := fun _ _ => Boundary turns) Reading.left turns
  · intro _ _ m
    apply Sim.assume (φ := m < turns)
    · rintro d r ⟨hd, rfl⟩
      exact hd.follows.left
    · intro hm
      apply (bufferTurn_sim hm.le).consequence
      · rintro d r ⟨hd, rfl⟩
        exact ⟨hd.full, { hd.follows with left := Nat.lt_succ_self _ }⟩
      · exact fun _ _ _ _ h => h
      · exact fun _ h => h
  · exact fun _ _ d r hd => hd.follows.left

end Cyanea.Boot
