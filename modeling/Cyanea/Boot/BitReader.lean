/-
# The bit reader

`get_bits` against the numbers of the format. The bits that are left are those in the
accumulator and, behind them, those of the bytes not yet fetched; `Follows` relates a
`struct deflate` to a reading by them. Fetching bytes does not change the bits left, and
there are never eight or more bits in the accumulator between two calls.
-/

import Cyanea.Boot.Deflate
import Cyanea.Rfc1951.Reading

namespace Cyanea.Boot

open Math.Bits Math.Simulation Rfc1951

/-- The bits that are left to read. -/
def Deflate.bitsLeft (d : Deflate) : List Bool :=
  ofNat d.nr_bits d.bit_accum ++ ofBytes (d.source.drop d.in_ptr)

/-- The accumulator holds nothing but its bits, and `in_ptr` is not past `in_end`. -/
structure Deflate.Sound (d : Deflate) : Prop where
  bit_accum : d.bit_accum < 2 ^ d.nr_bits
  in_ptr : d.in_ptr ≤ d.in_end

/-- Between two calls: there is no error, and the accumulator holds less than a byte. -/
structure Deflate.Ready (d : Deflate) : Prop where
  error : d.error = .NONE
  sound : d.Sound
  nr_bits : d.nr_bits < 8

/-- What reading bits leaves alone. -/
structure Frame where
  dest : List UInt8
  dest_size : ℕ
  ll : Tree
  distance : Tree

def Deflate.frame (d : Deflate) : Frame := ⟨d.dest, d.dest_size, d.ll, d.distance⟩

/-- A `struct deflate` without an error stands where the reading does, with fewer than `n`
bits left. -/
structure Follows (frame : Frame) (n : ℕ) (d : Deflate) (r : Reading) : Prop where
  error : d.error = .NONE
  sound : d.Sound
  nr_bits : d.nr_bits < 8
  bits : d.bitsLeft = r.bits
  left : r.bits.length < n
  dest : d.dest = r.out
  frame : d.frame = frame

section Follows

variable {frame : Frame} {n : ℕ} {d : Deflate} {r : Reading}

theorem Follows.ll (h : Follows frame n d r) : d.ll = frame.ll :=
  congrArg Frame.ll h.frame

theorem Follows.distance (h : Follows frame n d r) : d.distance = frame.distance :=
  congrArg Frame.distance h.frame

theorem Follows.dest_size (h : Follows frame n d r) : d.dest_size = frame.dest_size :=
  congrArg Frame.dest_size h.frame

theorem Follows.out (h : Follows frame n d r) : r.out = frame.dest :=
  h.dest.symm.trans (congrArg Frame.dest h.frame)

theorem Follows.mono {m : ℕ} (h : Follows frame n d r) (hnm : n ≤ m) : Follows frame m d r :=
  { h with left := lt_of_lt_of_le h.left hnm }

end Follows

/-- The undefined behaviour that bad input can lead to. -/
def Fault.Undefined (f : Fault) : Prop :=
  f = .outOfBounds ∨ f = .shift ∨ f = .beforeDest

/-- The inflater against a reading, with a destination of `cap` bytes. -/
def setting (cap : ℕ) : Setting Deflate Reading Fault where
  idle d := d.error ≠ .NONE
  fits r := r.out.length ≤ cap
  fits_of_le h hr := le_trans h.2.1.length_le hr
  overflow := .overflow
  undefined := Fault.Undefined

/-! ## Fetching -/

variable {d : Deflate} {k : ℕ}

/-- The `struct deflate` after the byte at `in_ptr` was put above the bits there are. -/
def Deflate.fetch (d : Deflate) (b : UInt8) : Deflate :=
  { d with
    bit_accum := (d.bit_accum ||| b.toNat <<< d.nr_bits) % 2 ^ 32
    in_ptr := d.in_ptr + 1
    nr_bits := d.nr_bits + 8 }

theorem fetchTurn_enough (h : k ≤ d.nr_bits) : fetchTurn k d = .ok (.leave true, d) := by
  simp [fetchTurn, not_lt.2 h]

theorem fetchTurn_end (h : d.nr_bits < k) (hend : d.in_ptr = d.in_end) :
    fetchTurn k d = .ok (.leave false, { d with error := .OVERFLOW }) := by
  simp [fetchTurn, h, hend, raise]

theorem in_ptr_lt {b : UInt8} (hb : d.source[d.in_ptr]? = some b) : d.in_ptr < d.in_end :=
  (List.getElem?_eq_some_iff.1 hb).1

theorem drop_in_ptr {b : UInt8} (hb : d.source[d.in_ptr]? = some b) :
    d.source.drop d.in_ptr = b :: d.source.drop (d.in_ptr + 1) := by
  obtain ⟨hlt, rfl⟩ := List.getElem?_eq_some_iff.1 hb
  exact List.drop_eq_getElem_cons hlt

theorem fetchTurn_fetch {b : UInt8} (h : d.nr_bits < k) (hb : d.source[d.in_ptr]? = some b)
    (hshift : d.nr_bits < 32) : fetchTurn k d = .ok (.again (), d.fetch b) := by
  simp [fetchTurn, h, (in_ptr_lt hb).ne, loadSource, hb, not_le.2 hshift, Deflate.fetch]

theorem fetchTurn_shift {b : UInt8} (h : d.nr_bits < k) (hb : d.source[d.in_ptr]? = some b)
    (hshift : 32 ≤ d.nr_bits) : fetchTurn k d = .error .shift := by
  simp [fetchTurn, h, (in_ptr_lt hb).ne, loadSource, hb, hshift]

/-- A fetched byte moves from the source into the accumulator. -/
theorem Deflate.Sound.fetch {b : UInt8} (h : d.Sound) (hb : d.source[d.in_ptr]? = some b)
    (hroom : d.nr_bits ≤ 24) : (d.fetch b).Sound ∧ (d.fetch b).bitsLeft = d.bitsLeft := by
  have hlt := or_shiftLeft_lt (k := 8) h.bit_accum b.toNat_lt
  have hmod : (d.bit_accum ||| b.toNat <<< d.nr_bits) % 2 ^ 32 =
      d.bit_accum ||| b.toNat <<< d.nr_bits :=
    Nat.mod_eq_of_lt (lt_of_lt_of_le hlt (Nat.pow_le_pow_right (by omega) (by omega)))
  constructor
  · constructor
    · show _ % 2 ^ 32 < _
      rwa [hmod]
    · exact in_ptr_lt hb
  · show ofNat (d.nr_bits + 8) (_ % 2 ^ 32) ++ ofBytes (d.source.drop (d.in_ptr + 1)) = _
    rw [hmod, ofNat_or_shiftLeft h.bit_accum, Deflate.bitsLeft,
      drop_in_ptr hb, ofBytes_cons, List.append_assoc]

theorem length_bitsLeft (d : Deflate) :
    d.bitsLeft.length = d.nr_bits + 8 * (d.in_end - d.in_ptr) := by
  simp [Deflate.bitsLeft, Deflate.in_end]

/-- With `k` bits left, fetching gets them into the accumulator; with fewer, it ends at the
end of the source with an error. -/
theorem fetch_loop (hk : k ≤ 24) (turns : ℕ) (hd : d.Sound) (hroom : d.nr_bits < k + 8)
    (hturns : k + 8 ≤ d.nr_bits + 8 * turns) :
    (k ≤ d.bitsLeft.length ∧ ∃ a p m, (iterate .unfinished (fun _ => fetchTurn k) turns ()) d =
        .ok (true, { d with bit_accum := a, in_ptr := p, nr_bits := m }) ∧
      ({ d with bit_accum := a, in_ptr := p, nr_bits := m } : Deflate).Sound ∧
      ({ d with bit_accum := a, in_ptr := p, nr_bits := m } : Deflate).bitsLeft = d.bitsLeft ∧
      k ≤ m ∧ m < k + 8) ∨
    (d.bitsLeft.length < k ∧ ∃ d', (iterate .unfinished (fun _ => fetchTurn k) turns ()) d =
        .ok (false, d') ∧ d'.error = .OVERFLOW) := by
  induction turns generalizing d with
  | zero => omega
  | succ turns ih =>
      by_cases henough : k ≤ d.nr_bits
      · left
        refine ⟨?_, d.bit_accum, d.in_ptr, d.nr_bits, ?_, hd, rfl, henough, hroom⟩
        · rw [length_bitsLeft]
          omega
        · exact iterate_leave (fetchTurn_enough henough)
      · rw [not_le] at henough
        cases hb : d.source[d.in_ptr]? with
        | none =>
            have hend : d.in_ptr = d.in_end :=
              le_antisymm hd.in_ptr (List.getElem?_eq_none_iff.1 hb)
            right
            refine ⟨?_, _, iterate_leave (fetchTurn_end henough hend), rfl⟩
            rw [length_bitsLeft, hend]
            omega
        | some b =>
            obtain ⟨hsound, hbits⟩ := hd.fetch hb (by omega)
            have hnr : (d.fetch b).nr_bits = d.nr_bits + 8 := rfl
            rw [iterate_again (fetchTurn_fetch henough hb (by omega)), ← hbits]
            exact ih hsound (by omega) (by omega)

/-- More than 32 bits cannot be fetched: the fifth byte would have to be shifted too far. -/
theorem fetch_loop_shift (hk : 40 ≤ k) (turns : ℕ) (hptr : d.in_ptr ≤ d.in_end)
    (hroom : d.nr_bits < 40) (hturns : 40 ≤ d.nr_bits + 8 * turns) :
    (40 ≤ d.bitsLeft.length ∧
      (iterate .unfinished (fun _ => fetchTurn k) turns ()) d = .error .shift) ∨
    (d.bitsLeft.length < 40 ∧ ∃ d', (iterate .unfinished (fun _ => fetchTurn k) turns ()) d =
        .ok (false, d') ∧ d'.error = .OVERFLOW) := by
  induction turns generalizing d with
  | zero => omega
  | succ turns ih =>
      have hmore : d.nr_bits < k := by omega
      cases hb : d.source[d.in_ptr]? with
      | none =>
          have hend : d.in_ptr = d.in_end := le_antisymm hptr (List.getElem?_eq_none_iff.1 hb)
          right
          refine ⟨?_, _, iterate_leave (fetchTurn_end hmore hend), rfl⟩
          rw [length_bitsLeft, hend]
          omega
      | some b =>
          have hlt := in_ptr_lt hb
          by_cases hshift : 32 ≤ d.nr_bits
          · left
            refine ⟨?_, iterate_error (fetchTurn_shift hmore hb hshift)⟩
            rw [length_bitsLeft]
            omega
          · rw [not_le] at hshift
            have hlen : (d.fetch b).bitsLeft.length = d.bitsLeft.length := by
              rw [length_bitsLeft, length_bitsLeft]
              show d.nr_bits + 8 + 8 * (d.in_end - (d.in_ptr + 1)) = _
              omega
            have hnr : (d.fetch b).nr_bits = d.nr_bits + 8 := rfl
            rw [iterate_again (fetchTurn_fetch hmore hb hshift), ← hlen]
            exact ih hlt (by omega) (by omega)

/-! ## Numbers -/

variable {cap n : ℕ} {frame : Frame}

theorem failed_apply (d : Deflate) : failed d = .ok (d.error != .NONE, d) := by
  simp [failed]

theorem getBits_of_error (hd : d.error ≠ .NONE) : getBits k d = .ok (0, d) := by
  simp [getBits, failed, hd]

theorem idle_getBits : Idle (setting cap) (getBits k) (· = 0) :=
  fun _ hd => ⟨0, getBits_of_error hd, rfl⟩

/-- Where a related state has no error, the check for one is passed over. -/
theorem sim_check {α β : Type} {M : Deflate → Reading → Prop} {x : α} {f : Inflate α}
    {g : Reader Reading β} {N : α → β → Deflate → Reading → Prop} {P : α → Prop}
    (hM : ∀ d r, M d r → d.error = .NONE) (h : Sim (setting cap) M f g N P) :
    Sim (setting cap) M (failed >>= fun b => if b = true then pure x else f) g N P := by
  intro d r hm hr
  have hrun : (failed >>= fun b => if b = true then pure x else f) d = f d := by
    simp [failed_apply, hM d r hm]
  rw [hrun]
  exact h d r hm hr

theorem idle_check {α : Type} {x : α} {f : Inflate α} {P : α → Prop} (hx : P x) :
    Idle (setting cap) (failed >>= fun b => if b = true then pure x else f) P := by
  intro d hd
  have hd' : d.error ≠ .NONE := hd
  exact ⟨x, by simp [failed_apply, hd'], hx⟩

/-- Cutting the low bits off the accumulator. -/
theorem getBits_accum {a m : ℕ} (hk : k ≤ m) (ha : a < 2 ^ m) (rest : List Bool) :
    a &&& (1 <<< k - 1) = toNat ((ofNat m a ++ rest).take k) ∧
      a >>> k < 2 ^ (m - k) ∧
      ofNat (m - k) (a >>> k) ++ rest = (ofNat m a ++ rest).drop k := by
  have hlen : k ≤ (ofNat m a).length := by simpa using hk
  refine ⟨?_, ?_, ?_⟩
  · rw [List.take_append_of_le_length hlen, take_ofNat hk, toNat_ofNat, Nat.shiftLeft_eq,
      Nat.one_mul, Nat.and_two_pow_sub_one_eq_mod]
  · rw [Nat.shiftRight_eq_div_pow, Nat.div_lt_iff_lt_mul (Nat.two_pow_pos k), ← Nat.pow_add,
      Nat.sub_add_cancel hk]
    exact ha
  · rw [List.drop_append_of_le_length hlen, drop_ofNat]

/-- A request for bits that are left takes them off. -/
theorem getBits_of_le (hk : k ≤ 24) (hd : d.Ready) (hlen : k ≤ d.bitsLeft.length) :
    ∃ d', getBits k d = .ok (toNat (d.bitsLeft.take k), d') ∧ d'.Ready ∧
      d'.bitsLeft = d.bitsLeft.drop k ∧ d'.source = d.source ∧ d'.frame = d.frame := by
  have hnr := hd.nr_bits
  obtain ⟨-, a, p, m, hrun, hsound, hbits, hkm, hm⟩ | ⟨hless, -⟩ :=
    fetch_loop (d := d) hk (k + 1) hd.sound (by omega) (by omega)
  · obtain ⟨hvalue, haccum, hrest⟩ :=
      getBits_accum hkm hsound.bit_accum (ofBytes (d.source.drop p))
    have hall : ofNat m a ++ ofBytes (d.source.drop p) = d.bitsLeft := hbits
    rw [hall] at hvalue hrest
    refine ⟨{ d with bit_accum := a >>> k, in_ptr := p, nr_bits := m - k }, ?_,
      ⟨hd.error, ⟨haccum, hsound.in_ptr⟩, ?_⟩, hrest, rfl, rfl⟩
    · simp [getBits, failed, hd.error, hrun, ← hvalue, show ¬ 32 ≤ k by omega]
    · show m - k < 8
      omega
  · omega

/-- A request for more bits than are left is refused. -/
theorem getBits_of_lt (hk : k ≤ 24) (hd : d.Ready) (hless : d.bitsLeft.length < k) :
    ∃ d', getBits k d = .ok (0, d') ∧ d'.error = .OVERFLOW := by
  have hnr := hd.nr_bits
  obtain ⟨hlen, -⟩ | ⟨-, d', hrun, herr⟩ :=
    fetch_loop (d := d) hk (k + 1) hd.sound (by omega) (by omega)
  · omega
  · exact ⟨d', by simp [getBits, failed, hd.error, hrun], herr⟩

theorem Follows.ready {r : Reading} (hd : Follows frame n d r) : d.Ready :=
  ⟨hd.error, hd.sound, hd.nr_bits⟩

/-- `get_bits` reads a number. -/
theorem getBits_sim (hk : k ≤ 24) :
    Sim (setting cap) (Follows frame (n + k)) (getBits k) (number k)
      (fun v v' d r => v = v' ∧ v < 2 ^ k ∧ Follows frame n d r) (· = 0) := by
  intro d r hd hr
  rcases Nat.lt_or_ge d.bitsLeft.length k with hless | hlen
  · obtain ⟨d', hrun, herr⟩ := getBits_of_lt hk hd.ready hless
    have hgoal : (number k).run r = .rejected r := if_neg (by rw [← hd.bits]; omega)
    rw [hgoal]
    refine Agrees.of_rejected hrun hr ?_ rfl
    show d'.error ≠ .NONE
    simp [herr]
  · obtain ⟨d', hrun, hready, hbits, -, hframe⟩ := getBits_of_le hk hd.ready hlen
    rw [hd.bits] at hrun hbits hlen
    have hgoal : (number k).run r =
        .ok (toNat (r.bits.take k)) { r with bits := r.bits.drop k } := if_pos hlen
    rw [hgoal]
    refine Agrees.of_ok hrun hr ⟨rfl, ?_, ?_⟩
    · have hlt := toNat_lt (r.bits.take k)
      rwa [List.length_take, min_eq_left hlen] at hlt
    · have hleft := hd.left
      exact
        { error := hready.error
          sound := hready.sound
          nr_bits := hready.nr_bits
          bits := hbits
          left := by show (r.bits.drop k).length < n; rw [List.length_drop]; omega
          dest := (congrArg Frame.dest hframe).trans hd.dest
          frame := hframe.trans hd.frame }

theorem idle_getExtraBits (base : ℕ) :
    Idle (setting cap) (getExtraBits k base) (· = base) := by
  intro d hd
  refine ⟨base, ?_, rfl⟩
  by_cases hk : k = 0 <;> simp [getExtraBits, hk, getBits_of_error hd]

/-- `get_extra_bits` reads a number of any width, none of whose bits are there where it is
zero. -/
theorem getExtraBits_sim (hk : k ≤ 24) (base : ℕ) :
    Sim (setting cap) (Follows frame n) (getExtraBits k base) (above base k)
      (fun v v' d r => v = v' ∧ base ≤ v ∧ v < base + 2 ^ k ∧ Follows frame n d r)
      (· = base) := by
  rw [getExtraBits, above]
  apply Sim.bind (N := fun v v' d r => v = v' ∧ v < 2 ^ k ∧ Follows frame n d r) (P := (· = 0))
  · by_cases hzero : k = 0
    · subst hzero
      intro d r hd hr
      exact .of_ok rfl hr ⟨rfl, by simp, { hd with }⟩
    · rw [if_pos hzero]
      exact (getBits_sim hk).consequence (fun _ _ h => h.mono (by omega)) (fun _ _ _ _ h => h)
        (fun _ h => h)
  · intro v v'
    apply Sim.pure
    rintro d r ⟨rfl, hlt, hd⟩
    exact ⟨rfl, by omega, by omega, hd⟩
  · rintro v rfl
    exact Idle.pure (by simp)

/-- The extra bits of length symbol 286 are more than can be read. -/
theorem getExtraBits_tooMany (hk : 40 ≤ k) (base : ℕ) {β : Type} (N : ℕ → β → Deflate →
    Reading → Prop) :
    Sim (setting cap) (Follows frame n) (getExtraBits k base) tooManyBits N (· = base) := by
  intro d r hd hr
  have hnr := hd.nr_bits
  have hzero : k ≠ 0 := by omega
  rcases fetch_loop_shift (d := d) hk (k + 1) hd.sound.in_ptr (by omega) (by omega) with
    ⟨hlen, hrun⟩ | ⟨hlen, d', hrun, herr⟩
  · have hgoal : (tooManyBits (β := β)).run r =
        .lost { r with broken := r.broken ++ [.lengthSymbol] } :=
      if_pos (by rwa [← hd.bits])
    rw [hgoal]
    refine Agrees.of_lost (e := .shift) ?_ hr (.inr (.inl rfl))
    simp [getExtraBits, hzero, getBits, failed, hd.error, hrun]
  · have hgoal : (tooManyBits (β := β)).run r = .rejected r :=
      if_neg (by rw [← hd.bits]; omega)
    rw [hgoal]
    refine Agrees.of_rejected (a := base) (d := d') ?_ hr ?_ rfl
    · simp [getExtraBits, hzero, getBits, failed, hd.error, hrun]
    · show d'.error ≠ .NONE
      simp [herr]

end Cyanea.Boot
