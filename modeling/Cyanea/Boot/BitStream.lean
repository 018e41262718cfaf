/-
# The stream of bits

`get_bits` as a stream of the bits of the source. A request takes bits off the front, or is
refused where there are fewer left, and after that nothing is served any more. The inflater
stands at a position in the bits of the source, and between two requests the accumulator
holds what is left of the byte in front of `in_ptr`. So a stored block, which drops the
accumulator, goes on at the next byte boundary.
-/

import Cyanea.Boot.Progress

namespace Cyanea.Boot

open Math Math.Bits Math.Simulation

/-! ## What is asked for -/

/-- A stream of bits with the least significant bit of a number first. There is no stream
left after a request that asked for too much. -/
def serve : Option (List Bool) → ℕ → ℕ × Option (List Bool)
  | none, _ => (0, none)
  | some bits, k =>
      if k ≤ bits.length then (toNat (bits.take k), some (bits.drop k)) else (0, none)

/-- The requests one after the other. -/
def serveAll : Option (List Bool) → List ℕ → List ℕ × Option (List Bool)
  | stream, [] => ([], stream)
  | stream, k :: ks =>
      let next := serve stream k
      let rest := serveAll next.2 ks
      (next.1 :: rest.1, rest.2)

/-- `get_bits` called once for each number. -/
def requests : List ℕ → Inflate (List ℕ)
  | [] => pure []
  | k :: ks => do
      let bits ← getBits k
      let rest ← requests ks
      pure (bits :: rest)

/-- How many bits of the source have been taken. -/
def Deflate.position (d : Deflate) : ℕ := 8 * d.in_ptr - d.nr_bits

/-- The stream that the inflater has left of the source. -/
def Deflate.stream (source : List UInt8) (d : Deflate) : Option (List Bool) :=
  if d.error = .NONE then some ((ofBytes source).drop d.position) else none

section Width

variable (width : ℕ)

/-- `fetchTurn` with an accumulator of `width` bits. -/
def fetchTurnIn (nr_bits : ℕ) : Inflate (Turn Unit Bool) := do
  let d ← get
  if d.nr_bits < nr_bits then
    if d.in_ptr = d.in_end then
      raise .OVERFLOW
      return .leave false
    else
      let b ← loadSource d.source d.in_ptr
      if width ≤ d.nr_bits then
        throw .shift
      else
        set { d with
          bit_accum := (d.bit_accum ||| b.toNat <<< d.nr_bits) % 2 ^ width
          in_ptr := d.in_ptr + 1
          nr_bits := d.nr_bits + 8 }
        return .again ()
  else
    return .leave true

/-- `getBits` with an accumulator of `width` bits. -/
def getBitsIn (nr_bits : ℕ) : Inflate ℕ := do
  if ← failed then
    return 0
  else if ← iterate .unfinished (fun _ => fetchTurnIn width nr_bits) (nr_bits + 1) () then
    if width ≤ nr_bits then
      throw .shift
    else
      let d ← get
      set { d with bit_accum := d.bit_accum >>> nr_bits, nr_bits := d.nr_bits - nr_bits }
      return d.bit_accum &&& (1 <<< nr_bits - 1)
  else
    return 0

end Width

theorem getBitsIn_32 (k : ℕ) : getBitsIn 32 k = getBits k := rfl

/-- The states between requests: the inflater starts, asks for bits, and copies stored blocks
while there is no error; what else it does leaves the reader alone and keeps an error. -/
inductive ReachedFrom (source : List UInt8) : Deflate → Prop
  | start : ReachedFrom source (initial source)
  | request {d d' : Deflate} {k bits : ℕ} (h : ReachedFrom source d) (hpos : 1 ≤ k) (hk : k ≤ 16)
      (hrun : getBits k d = .ok (bits, d')) : ReachedFrom source d'
  | stored {d d' : Deflate} {cap : ℕ} (h : ReachedFrom source d) (hnone : d.error = .NONE)
      (hrun : deflateUncompressedBlock cap d = .ok ((), d')) : ReachedFrom source d'
  | other {d : Deflate} (h : ReachedFrom source d) (dest : List UInt8) (error : Err)
      (dest_size : ℕ) (ll distance : Tree) (hkept : error = .NONE → d.error = .NONE) :
      ReachedFrom source { d with dest, error, dest_size, ll, distance }

/-- Between two requests, without an error. The unread bits are the upper ones of the last
byte consumed, and `in_ptr` is at the byte boundary that comes next. -/
structure Between (source : List UInt8) (d : Deflate) : Prop where
  bit_accum : d.bit_accum < 2 ^ d.nr_bits
  nr_bits : d.nr_bits < 8
  last_byte : 0 < d.nr_bits → ∃ b, 0 < d.in_ptr ∧ source[d.in_ptr - 1]? = some b ∧
    d.bit_accum = b.toNat >>> (8 - d.nr_bits)
  boundary : d.in_ptr = (d.position + 7) / 8

/-- The inflater reads the bits of the source in order, with an accumulator for which 23 bits
are enough. -/
structure ReadsStream (source : List UInt8) (d : Deflate) : Prop where
  between : d.error = .NONE → Between source d
  requests_eq : ∀ ks : List ℕ, (∀ k ∈ ks, 1 ≤ k ∧ k ≤ 16) → ∃ d',
    requests ks d = .ok ((serveAll (d.stream source) ks).1, d') ∧
      d'.stream source = (serveAll (d.stream source) ks).2
  overflow_iff : d.error = .NONE → ∀ k, 1 ≤ k → k ≤ 16 → ∃ bits d',
    getBits k d = .ok (bits, d') ∧ (d'.error = .NONE ∨ d'.error = .OVERFLOW) ∧
      (d'.error = .OVERFLOW ↔ 8 * source.length < d.position + k)
  width : ∀ k, 1 ≤ k → k ≤ 16 → ∀ width, 23 ≤ width → getBitsIn width k d = getBits k d

/-! ## A position in the source -/

/-- Without an error, the bits left are those of the source from the position on. -/
structure Standing (source : List UInt8) (d : Deflate) : Prop where
  ready : d.Ready
  source_eq : d.source = source
  nr_bits_le : d.nr_bits ≤ 8 * d.in_ptr
  bits : d.bitsLeft = (ofBytes source).drop d.position

variable {source : List UInt8} {d d' : Deflate} {k : ℕ}

theorem Standing.in_ptr_le (h : Standing source d) : d.in_ptr ≤ source.length := by
  rw [← h.source_eq]
  exact h.ready.sound.in_ptr

theorem Standing.left (h : Standing source d) :
    d.bitsLeft.length + d.position = 8 * source.length := by
  have hle := h.nr_bits_le
  have hptr := h.in_ptr_le
  rw [length_bitsLeft, Deflate.in_end, h.source_eq, Deflate.position]
  omega

/-- Whoever has a rest of the source left stands where it begins. -/
theorem standing_of_bits {n : ℕ} (hd : d.Ready) (hsource : d.source = source)
    (hn : n ≤ 8 * source.length) (hbits : d.bitsLeft = (ofBytes source).drop n) :
    Standing source d ∧ d.position = n := by
  have hlen := congrArg List.length hbits
  have hptr : d.in_ptr ≤ source.length := hsource ▸ hd.sound.in_ptr
  rw [length_bitsLeft, List.length_drop, length_ofBytes, Deflate.in_end, hsource] at hlen
  have hpos : d.position = n := by
    rw [Deflate.position]
    omega
  exact ⟨⟨hd, hsource, by omega, hpos ▸ hbits⟩, hpos⟩

theorem standing_initial (source : List UInt8) : Standing source (initial source) := by
  have hready : (initial source).Ready := ⟨rfl, ⟨Nat.one_pos, Nat.zero_le _⟩, Nat.succ_pos 7⟩
  exact (standing_of_bits hready rfl (Nat.zero_le _) rfl).1

theorem Standing.stream (h : Standing source d) : d.stream source = some d.bitsLeft := by
  rw [Deflate.stream, if_pos h.ready.error, h.bits]

/-- What is in the accumulator is what is left of the byte in front of `in_ptr`. -/
theorem Standing.between (h : Standing source d) : Between source d := by
  have hnr := h.ready.nr_bits
  have hle := h.nr_bits_le
  refine ⟨h.ready.sound.bit_accum, hnr, fun hpos => ?_, ?_⟩
  · have hlt : d.in_ptr - 1 < source.length := by
      have hptr := h.in_ptr_le
      omega
    refine ⟨source[d.in_ptr - 1], by omega, List.getElem?_eq_getElem hlt, ?_⟩
    have hdrop := List.drop_eq_getElem_cons hlt
    generalize source[d.in_ptr - 1] = b at hdrop
    -- the position is in that byte
    have hbits := h.bits
    rw [show d.position = 8 * (d.in_ptr - 1) + (8 - d.nr_bits) by rw [Deflate.position]; omega,
      ← List.drop_drop, drop_ofBytes, hdrop, ofBytes_cons,
      List.drop_append_of_le_length (by rw [length_ofNat]; omega), drop_ofNat,
      show 8 - (8 - d.nr_bits) = d.nr_bits by omega, Deflate.bitsLeft] at hbits
    have hnumber := congrArg toNat (List.append_inj_left hbits (by simp))
    rw [toNat_ofNat, toNat_ofNat, Nat.mod_eq_of_lt h.ready.sound.bit_accum] at hnumber
    rw [hnumber]
    apply Nat.mod_eq_of_lt
    rw [Nat.shiftRight_eq_div_pow, Nat.div_lt_iff_lt_mul (Nat.two_pow_pos _), ← Nat.pow_add,
      show d.nr_bits + (8 - d.nr_bits) = 8 by omega]
    exact b.toNat_lt
  · rw [Deflate.position]
    omega

/-! ## One request -/

theorem Standing.getBits_of_le (h : Standing source d) (hk : k ≤ 24)
    (hlen : k ≤ d.bitsLeft.length) : ∃ d',
    getBits k d = .ok (toNat (d.bitsLeft.take k), d') ∧ Standing source d' ∧
      d'.bitsLeft = d.bitsLeft.drop k := by
  obtain ⟨d', hrun, hready, hbits, hsource, -⟩ := Boot.getBits_of_le hk h.ready hlen
  have hleft := h.left
  have hdrop : d'.bitsLeft = (ofBytes source).drop (d.position + k) := by
    rw [hbits, h.bits, List.drop_drop]
  exact ⟨d', hrun, (standing_of_bits hready (hsource.trans h.source_eq) (by omega) hdrop).1, hbits⟩

theorem stream_of_error (hd : d.error ≠ .NONE) : d.stream source = none := if_neg hd

/-- A request serves what the stream has, and leaves what the stream leaves. -/
theorem getBits_serve (h : d.error = .NONE → Standing source d) (hk : k ≤ 24) : ∃ d',
    getBits k d = .ok ((serve (d.stream source) k).1, d') ∧
      d'.stream source = (serve (d.stream source) k).2 ∧
      (d'.error = .NONE → Standing source d') := by
  by_cases herror : d.error = .NONE
  · have hd := h herror
    rw [hd.stream, serve]
    split
    next hlen =>
        obtain ⟨d', hrun, hd', hbits⟩ := hd.getBits_of_le hk hlen
        exact ⟨d', hrun, by rw [hd'.stream, hbits], fun _ => hd'⟩
    next hless =>
        obtain ⟨d', hrun, herror'⟩ := getBits_of_lt hk hd.ready (not_le.1 hless)
        have hne : d'.error ≠ .NONE := by simp [herror']
        exact ⟨d', hrun, stream_of_error hne, fun h => absurd h hne⟩
  · rw [stream_of_error herror]
    exact ⟨d, getBits_of_error herror, stream_of_error herror, h⟩

theorem requests_serveAll (h : d.error = .NONE → Standing source d) {ks : List ℕ}
    (hks : ∀ k ∈ ks, k ≤ 24) : ∃ d',
    requests ks d = .ok ((serveAll (d.stream source) ks).1, d') ∧
      d'.stream source = (serveAll (d.stream source) ks).2 := by
  induction ks generalizing d with
  | nil => exact ⟨d, rfl, rfl⟩
  | cons k ks ih =>
      obtain ⟨d₁, hrun, hstream, hd₁⟩ := getBits_serve h (hks k (by simp))
      obtain ⟨d₂, hrest, hstream'⟩ := ih hd₁ fun j hj => hks j (by simp [hj])
      rw [hstream] at hrest hstream'
      refine ⟨d₂, ?_, hstream'⟩
      rw [requests, serveAll]
      simp [hrun, hrest]

/-- The error is raised exactly where fewer bits are left. -/
theorem Standing.overflow_iff (h : Standing source d) (hk : k ≤ 24) : ∃ bits d',
    getBits k d = .ok (bits, d') ∧ (d'.error = .NONE ∨ d'.error = .OVERFLOW) ∧
      (d'.error = .OVERFLOW ↔ 8 * source.length < d.position + k) := by
  have hleft := h.left
  rcases Nat.lt_or_ge d.bitsLeft.length k with hless | hlen
  · obtain ⟨d', hrun, herror⟩ := getBits_of_lt hk h.ready hless
    exact ⟨0, d', hrun, .inr herror, iff_of_true herror (by omega)⟩
  · obtain ⟨d', hrun, hd', -⟩ := h.getBits_of_le hk hlen
    have herror := hd'.ready.error
    exact ⟨_, d', hrun, .inl herror, iff_of_false (by simp [herror]) (by omega)⟩

/-! ## The width of the accumulator -/

variable {width : ℕ}

/-- With fewer than 16 bits in the accumulator, one more byte fits into 23 bits. -/
theorem fetched_mod (hwidth : 23 ≤ width) (hd : d.Sound) (hnr : d.nr_bits < 16) (b : UInt8) :
    (d.bit_accum ||| b.toNat <<< d.nr_bits) % 2 ^ width =
      d.bit_accum ||| b.toNat <<< d.nr_bits := by
  apply Nat.mod_eq_of_lt
  calc
    d.bit_accum ||| b.toNat <<< d.nr_bits < 2 ^ (d.nr_bits + 8) :=
      or_shiftLeft_lt hd.bit_accum b.toNat_lt
    _ ≤ 2 ^ width := Nat.pow_le_pow_right (by omega) (by omega)

theorem fetchTurnIn_eq (hwidth : 23 ≤ width) (hk : k ≤ 16) (hd : d.Sound) :
    fetchTurnIn width k d = fetchTurn k d := by
  by_cases hmore : d.nr_bits < k
  · cases hb : d.source[d.in_ptr]? with
    | none => simp [fetchTurnIn, fetchTurn, hmore, loadSource, hb]
    | some b =>
        rw [fetchTurn_fetch hmore hb (by omega), Deflate.fetch, fetched_mod (by omega) hd (by omega)]
        have hfits : ¬ width ≤ d.nr_bits := by omega
        simp [fetchTurnIn, hmore, (in_ptr_lt hb).ne, loadSource, hb, hfits,
          fetched_mod hwidth hd (by omega)]
  · rw [fetchTurn_enough (not_lt.1 hmore)]
    simp [fetchTurnIn, hmore]

theorem fetch_loop_width (hwidth : 23 ≤ width) (hk : k ≤ 16) (turns : ℕ) (hd : d.Sound) :
    (iterate .unfinished (fun _ => fetchTurnIn width k) turns ()) d =
      (iterate .unfinished (fun _ => fetchTurn k) turns ()) d := by
  induction turns generalizing d with
  | zero => rfl
  | succ turns ih =>
      have hturn := fetchTurnIn_eq hwidth hk hd
      by_cases hmore : d.nr_bits < k
      · cases hb : d.source[d.in_ptr]? with
        | none =>
            have hend : d.in_ptr = d.in_end :=
              le_antisymm hd.in_ptr (List.getElem?_eq_none_iff.1 hb)
            rw [fetchTurn_end hmore hend] at hturn
            rw [iterate_leave hturn, iterate_leave (fetchTurn_end hmore hend)]
        | some b =>
            have hfetch := fetchTurn_fetch hmore hb (by omega)
            rw [hfetch] at hturn
            rw [iterate_again hturn, iterate_again hfetch, ih (hd.fetch hb (by omega)).1]
      · have hleave := fetchTurn_enough (not_lt.1 hmore)
        rw [hleave] at hturn
        rw [iterate_leave hturn, iterate_leave hleave]

/-- An accumulator of 23 bits does what a wider one does. -/
theorem getBitsIn_eq (hwidth : 23 ≤ width) (hk : k ≤ 16)
    (h : d.error = .NONE → Standing source d) : getBitsIn width k d = getBits k d := by
  by_cases herror : d.error = .NONE
  · have hloop := fetch_loop_width hwidth hk (k + 1) (h herror).ready.sound
    have hfits : ¬ width ≤ k := by omega
    have hfits' : ¬ 32 ≤ k := by omega
    simp [getBitsIn, getBits, failed, herror, hloop, hfits, hfits']
  · rw [getBits_of_error herror]
    simp [getBitsIn, failed, herror]

/-! ## Every state between requests -/

/-- A stored block that is copied goes on at a byte boundary. -/
theorem Standing.stored {cap : ℕ} (h : Standing source d)
    (hrun : deflateUncompressedBlock cap d = .ok ((), d')) (hnone : d'.error = .NONE) :
    Standing source d' := by
  have hends : Ends (fun p => p.2.error = .NONE → Standing source p.2) (fun _ => True)
      (deflateUncompressedBlock cap d) := by
    have hend : d.in_end = d.source.length := rfl
    rw [deflateUncompressedBlock]
    simp only [bind_apply, get_apply, ok_bind, if_apply]
    split
    next => exact fun hno => Err.noConfusion hno
    next hshort =>
        have hheader : Ends (fun _ => True) Allowed (getUnalignedLe16 d.source d.in_ptr) :=
          ends_getUnalignedLe16 (by omega)
        simp only [liftM_apply, bind_assoc, ok_bind]
        apply Ends.bind (hheader.mono (fun _ h => h) fun _ _ => trivial)
        intro length _
        simp only [set_apply, ok_bind]
        split
        next => exact fun hno => Err.noConfusion hno
        next hlong =>
            have hcopy : Ends _ Allowed (copyStored cap length { d with in_ptr := d.in_ptr + 4 }) :=
              copyStored_ends length _ (by show d.in_ptr + 4 + length ≤ d.in_end; omega)
            apply (hcopy.mono (fun _ h => h) fun _ _ => trivial).bind
            rintro ⟨_, d₁⟩ ⟨hsource, hptr, herror, -⟩ hnone
            have hsource' : d₁.source = source := hsource.trans h.source_eq
            have hptr' : d₁.in_ptr ≤ d₁.in_end := by
              have hptr₁ : d₁.in_ptr = d.in_ptr + 4 + length := hptr
              have hend₁ : d₁.in_end = d.in_end := congrArg List.length hsource
              omega
            -- nothing is left in the accumulator
            refine (standing_of_bits (n := 8 * d₁.in_ptr) ⟨hnone, ⟨Nat.one_pos, hptr'⟩, by simp⟩
              hsource' ?_ ?_).1
            · rw [← hsource']
              exact Nat.mul_le_mul_left 8 hptr'
            · rw [drop_ofBytes, ← hsource']
              rfl
  rw [hrun] at hends
  exact hends hnone

theorem ReachedFrom.standing (h : ReachedFrom source d) : d.error = .NONE → Standing source d := by
  induction h with
  | start => exact fun _ => standing_initial source
  | @request d d' k bits h hpos hk hrun ih =>
      obtain ⟨d₁, hrun₁, -, hd₁⟩ := getBits_serve ih (by omega : k ≤ 24)
      obtain ⟨-, rfl⟩ := Prod.mk.inj (Except.ok.inj (hrun.symm.trans hrun₁))
      exact hd₁
  | stored h hnone hrun ih => exact (ih hnone).stored hrun
  | other h dest error dest_size ll distance hkept ih =>
      intro hnone
      have hd := ih (hkept hnone)
      exact ⟨⟨hnone, ⟨hd.ready.sound.bit_accum, hd.ready.sound.in_ptr⟩, hd.ready.nr_bits⟩,
        hd.source_eq, hd.nr_bits_le, hd.bits⟩

/-- `get_bits` serves a stream of bits in every state that is reached. -/
theorem ReachedFrom.readsStream (h : ReachedFrom source d) : ReadsStream source d where
  between hnone := (h.standing hnone).between
  requests_eq ks hks := requests_serveAll h.standing fun k hk => by
    have := (hks k hk).2
    omega
  overflow_iff hnone k _ hk := (h.standing hnone).overflow_iff (by omega)
  width k _ hk _ hwidth := getBitsIn_eq hwidth hk h.standing

/-- After three bits of two bytes. -/
theorem readsStream_threeBits :
    ∃ d, getBits 3 (initial [0xa5, 0x0f]) = .ok (5, d) ∧ ReadsStream [0xa5, 0x0f] d :=
  ⟨_, rfl, (ReachedFrom.start.request (k := 3) (by decide) (by decide) rfl).readsStream⟩

end Cyanea.Boot
