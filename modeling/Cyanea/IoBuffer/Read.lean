/-
# Reading and pushing back

To a reader the buffer and the source behind it are one stream. A read takes its bytes off
the front of the stream, a character that is pushed back is put in front of it, and nothing
else changes it, however the source cuts its bytes into pieces.
-/

import Cyanea.IoBuffer.Buffer
import Mathlib.Data.List.Induction

namespace Cyanea.IoBuffer

/-- A stream with a character in front of it. -/
def push (c : UInt8) (stream : Bytes) : Bytes := fun i => if i = 0 then c else stream (i - 1)

/-- A stream without its first `n` bytes. -/
def behind (n : ℕ) (stream : Bytes) : Bytes := fun i => stream (n + i)

/-- What the reads will deliver: the bytes of the buffer, then those of the source. -/
def World.stream (hooks : Hooks) (w : World) : Bytes := fun i =>
  if i < w.io.in_ then w.io.buffer (w.io.inptr + i)
  else hooks.source (w.taken + (i - w.io.in_))

/-- The end of the buffer is not behind the end of its memory. -/
def World.Placed (w : World) : Prop :=
  w.io.inptr + w.io.in_ ≤ w.io.io_unget_slop + w.io.buf_size

/-- The bytes of the buffer are in its memory. -/
def World.Inside (w : World) : Prop :=
  ∀ i, w.io.inptr ≤ i → i < w.io.inptr + w.io.in_ → i < w.io.io_unget_slop + w.io.buf_size

theorem World.Placed.inside {w : World} (h : w.Placed) : w.Inside :=
  fun _ _ hlt => Nat.lt_of_lt_of_le hlt h

theorem World.Inside.placed {w : World} (h : w.Inside) (hin : w.io.in_ ≠ 0) : w.Placed := by
  have hlast := h (w.io.inptr + w.io.in_ - 1) (by omega) (by omega)
  rw [World.Placed]
  omega

@[simp]
theorem behind_zero (stream : Bytes) : behind 0 stream = stream := by
  funext i
  rw [behind, Nat.zero_add]

theorem behind_behind (m n : ℕ) (stream : Bytes) :
    behind n (behind m stream) = behind (m + n) stream := by
  funext i
  rw [behind, behind, behind, Nat.add_assoc]

theorem slice_behind (n start len : ℕ) (stream : Bytes) :
    slice (behind n stream) start len = slice stream (n + start) len := by
  induction len generalizing start with
  | zero => rfl
  | succ len ih =>
      rw [slice, slice, ih]
      rfl

/-- What a part of a read does: it delivers `data` off the front of the stream. -/
structure Delivers (hooks : Hooks) (w w' : World) (count : ℕ) (data : List UInt8) : Prop where
  data_eq : data = slice (w.stream hooks) 0 data.length
  stream : w'.stream hooks = behind data.length (w.stream hooks)
  length_le : data.length ≤ count
  inside : w'.Inside
  placed : w.Placed → w'.Placed
  located : count < w.io.buf_size → data ≠ [] → w'.Placed
  out : w'.io.out = w.io.out
  buf_size : w'.io.buf_size = w.io.buf_size
  slop : w'.io.io_unget_slop = w.io.io_unget_slop
  account : w.io.in_ + w'.taken = w'.io.in_ + w.taken + data.length
  bounded : ∀ n, (∀ calls taken, hooks.ready calls taken ≤ n - taken) → w.taken ≤ n →
    w'.taken ≤ n

/-- A read is short only where the buffer is empty and the source has just had nothing to
give. -/
def Exhausted (hooks : Hooks) (w' : World) (count : ℕ) (data : List UInt8) : Prop :=
  data.length < count → w'.io.in_ = 0 ∧ hooks.ready (w'.calls - 1) w'.taken = 0

variable {hooks : Hooks} {w w₁ w₂ : World} {count : ℕ} {data data' : List UInt8}

/-- A call of a hook alone does nothing. -/
theorem Delivers.idle (hinside : w.Inside) (count calls : ℕ) :
    Delivers hooks w { w with calls } count [] :=
  ⟨rfl, (behind_zero _).symm, Nat.zero_le _, hinside, id, fun _ h => absurd rfl h, rfl, rfl, rfl,
    rfl, fun _ _ h => h⟩

/-- What is delivered from a buffer that has just been filled. -/
theorem Delivers.of_refill (h : Delivers hooks w₁ w₂ count data) (hplaced : w₁.Placed)
    (hstream : w₁.stream hooks = w.stream hooks) (hout : w₁.io.out = w.io.out)
    (hsize : w₁.io.buf_size = w.io.buf_size)
    (hslop : w₁.io.io_unget_slop = w.io.io_unget_slop)
    (haccount : w.io.in_ + w₁.taken = w₁.io.in_ + w.taken)
    (hready : w₁.taken ≤ w.taken + w.ready hooks) :
    Delivers hooks w w₂ count data where
  data_eq := by rw [← hstream]; exact h.data_eq
  stream := by rw [← hstream]; exact h.stream
  length_le := h.length_le
  inside := h.inside
  placed := fun _ => h.placed hplaced
  located := fun _ _ => h.placed hplaced
  out := h.out.trans hout
  buf_size := h.buf_size.trans hsize
  slop := h.slop.trans hslop
  account := by
    have := h.account
    omega
  bounded := by
    intro n hbound hle
    have := hbound w.calls w.taken
    rw [World.ready] at hready
    exact h.bounded n hbound (by omega)

/-- Two parts of a read are one. -/
theorem Delivers.trans (h : Delivers hooks w w₁ count data)
    (h' : Delivers hooks w₁ w₂ (count - data.length) data') :
    Delivers hooks w w₂ count (data ++ data') where
  data_eq := by
    rw [List.length_append, slice_add, ← h.data_eq, Nat.zero_add]
    have hrest := h'.data_eq
    rw [h.stream, slice_behind, Nat.add_zero] at hrest
    rw [← hrest]
  stream := by rw [h'.stream, h.stream, behind_behind, List.length_append]
  length_le := by
    have := h.length_le
    have := h'.length_le
    rw [List.length_append]
    omega
  inside := h'.inside
  placed := h'.placed ∘ h.placed
  located := by
    intro hcount hne
    by_cases hdata : data = []
    · apply h'.located
      · rw [h.buf_size]
        omega
      · simpa [hdata] using hne
    · exact h'.placed (h.located hcount hdata)
  out := h'.out.trans h.out
  buf_size := h'.buf_size.trans h.buf_size
  slop := h'.slop.trans h.slop
  account := by
    have := h.account
    have := h'.account
    rw [List.length_append]
    omega
  bounded := fun n hbound hle => h'.bounded n hbound (h.bounded n hbound hle)

theorem Exhausted.append (hle : data.length ≤ count)
    (h : Exhausted hooks w₂ (count - data.length) data') :
    Exhausted hooks w₂ count (data ++ data') := by
  intro hlt
  apply h
  rw [List.length_append] at hlt
  omega

/-! ## The turns of the loop -/

/-- Bytes are delivered from the buffer. -/
theorem deliver_buffered (hooks : Hooks) (hinside : w.Inside) (hin : w.io.in_ ≠ 0) {n : ℕ}
    (hn : n ≤ w.io.in_) (hcount : n ≤ count) :
    Delivers hooks w
      { w with io := { w.io with inptr := w.io.inptr + n, in_ := w.io.in_ - n } } count
      (slice w.io.buffer w.io.inptr n) := by
  have hlen := length_slice w.io.buffer w.io.inptr n
  refine ⟨?_, ?_, by rwa [hlen], ?_, ?_, ?_, rfl, rfl, rfl, ?_, fun _ _ h => h⟩
  · rw [hlen]
    apply slice_congr
    intro i hi
    rw [World.stream, Nat.zero_add, if_pos (by omega)]
  · rw [hlen]
    funext i
    rw [World.stream, behind, World.stream]
    by_cases hi : n + i < w.io.in_
    · rw [if_pos hi]
      simp only [Nat.add_assoc]
      rw [if_pos (by omega)]
    · rw [if_neg hi]
      simp only
      rw [if_neg (by omega)]
      congr 2
      omega
  · intro i hi hlt
    exact hinside i (by simp only at hi; omega) (by simp only at hlt; omega)
  · intro hplaced
    simp only [World.Placed] at hplaced ⊢
    omega
  · intro _ _
    have hplaced := hinside.placed hin
    simp only [World.Placed] at hplaced ⊢
    omega
  · rw [hlen]
    simp only
    omega

theorem stream_of_empty (hin : w.io.in_ = 0) :
    w.stream hooks = behind w.taken hooks.source := by
  funext i
  rw [World.stream, if_neg (by omega), hin]
  rfl

/-- The buffer is filled anew. -/
theorem refill (hooks : Hooks) (hin : w.io.in_ = 0) {n : ℕ} (hn : n ≤ w.io.buf_size) (calls : ℕ) :
    let w' : World :=
      { w with
        io := { w.io with
          buffer := memcpy w.io.buffer w.io.io_unget_slop (slice hooks.source w.taken n)
          inptr := w.io.io_unget_slop
          in_ := n }
        taken := w.taken + n
        calls }
    w'.Placed ∧ w'.stream hooks = w.stream hooks := by
  refine ⟨Nat.add_le_add_left hn _, ?_⟩
  rw [stream_of_empty hin]
  funext i
  rw [World.stream]
  by_cases hi : i < n
  · simp only [hi, if_true]
    rw [memcpy_add _ _ (by rwa [length_slice]), getD_slice _ _ hi]
    rfl
  · simp only [hi, if_false]
    rw [behind, show w.taken + n + (i - n) = w.taken + i by omega]

/-- Bytes are delivered past the buffer. -/
theorem deliver_bypassing (hooks : Hooks) (hin : w.io.in_ = 0) (hcount : w.io.buf_size ≤ count) {n : ℕ}
    (hn : n ≤ count) (hready : n ≤ w.ready hooks) (calls : ℕ) :
    Delivers hooks w { w with taken := w.taken + n, calls } count
      (slice hooks.source w.taken n) := by
  have hlen := length_slice hooks.source w.taken n
  refine ⟨?_, ?_, by rwa [hlen], ?_, id, ?_, rfl, rfl, rfl, ?_, ?_⟩
  · rw [hlen, stream_of_empty hin, slice_behind]
    rfl
  · rw [hlen, stream_of_empty hin, behind_behind]
    exact stream_of_empty hin
  · intro i hi hlt
    simp only [hin] at hi hlt
    omega
  · intro hlt
    omega
  · rw [hlen, Nat.add_assoc]
  · intro m hbound hle
    have := hbound w.calls w.taken
    rw [World.ready] at hready
    simp only
    omega

/-! ## A call -/

theorem readLoop_delivers {turns : ℕ} (read : List UInt8) (hinside : w.Inside)
    (hturns : 2 * count + (if w.io.in_ = 0 then 2 else 1) ≤ turns) :
    ∃ data w', readLoop hooks turns count read w = some (read ++ data, w') ∧
      Delivers hooks w w' count data ∧ Exhausted hooks w' count data := by
  induction turns generalizing count read w with
  | zero =>
      exfalso
      by_cases hin : w.io.in_ = 0
      · rw [if_pos hin] at hturns
        omega
      · rw [if_neg hin] at hturns
        omega
  | succ turns ih =>
      rw [readLoop]
      by_cases hcount : count = 0
      · rw [if_pos hcount]
        refine ⟨[], w, by rw [List.append_nil], Delivers.idle hinside count w.calls, ?_⟩
        intro hlt
        omega
      · rw [if_neg hcount]
        by_cases hin : w.io.in_ = 0
        · rw [if_pos hin]
          rw [if_pos hin] at hturns
          by_cases hbuf : count < w.io.buf_size
          · rw [if_pos hbuf]
            simp only [opsRead, length_slice]
            have hle : min (w.ready hooks) w.io.buf_size ≤ w.io.buf_size := Nat.min_le_right ..
            have hready : min (w.ready hooks) w.io.buf_size ≤ w.ready hooks := Nat.min_le_left ..
            by_cases hn : min (w.ready hooks) w.io.buf_size = 0
            · rw [if_pos hn, hn]
              refine ⟨[], _, by rw [List.append_nil, Nat.add_zero],
                Delivers.idle hinside count (w.calls + 1), ?_⟩
              intro _
              refine ⟨hin, ?_⟩
              show w.ready hooks = 0
              omega
            · rw [if_neg hn]
              generalize min (w.ready hooks) w.io.buf_size = n at *
              obtain ⟨hplaced, hstream⟩ := refill hooks hin hle (w.calls + 1)
              have hleft : 2 * count + 1 ≤ turns := by omega
              obtain ⟨data, w', hloop, hdel, hexh⟩ :=
                @ih _ count read hplaced.inside (by simpa [hn] using hleft)
              exact ⟨data, w', hloop, hdel.of_refill hplaced hstream rfl rfl rfl
                (by simp only; omega) (Nat.add_le_add_left hready _), hexh⟩
          · rw [if_neg hbuf]
            simp only [opsRead, length_slice]
            have hle : min (w.ready hooks) count ≤ count := Nat.min_le_right ..
            have hready : min (w.ready hooks) count ≤ w.ready hooks := Nat.min_le_left ..
            by_cases hn : min (w.ready hooks) count = 0
            · rw [if_pos hn, hn]
              refine ⟨[], _, by rw [List.append_nil, Nat.add_zero],
                Delivers.idle hinside count (w.calls + 1), ?_⟩
              intro _
              refine ⟨hin, ?_⟩
              show w.ready hooks = 0
              omega
            · rw [if_neg hn]
              generalize min (w.ready hooks) count = n at *
              have hfirst := deliver_bypassing hooks hin (Nat.le_of_not_lt hbuf) hle hready
                (w.calls + 1)
              have hleft : 2 * (count - n) + 2 ≤ turns := by omega
              obtain ⟨data, w', hloop, hdel, hexh⟩ := @ih _ (count - n)
                (read ++ slice hooks.source w.taken n) hfirst.inside (by simpa [hin] using hleft)
              refine ⟨slice hooks.source w.taken n ++ data, w', ?_, hfirst.trans ?_, ?_⟩
              · rw [hloop, List.append_assoc]
              · rwa [length_slice]
              · apply Exhausted.append hfirst.length_le
                rwa [length_slice]
        · rw [if_neg hin]
          rw [if_neg hin] at hturns
          have hn : 0 < min count w.io.in_ := by omega
          have hle : min count w.io.in_ ≤ w.io.in_ := Nat.min_le_right ..
          have hlec : min count w.io.in_ ≤ count := Nat.min_le_left ..
          generalize min count w.io.in_ = n at *
          have hfirst := deliver_buffered hooks hinside hin hle hlec
          obtain ⟨data, w', hloop, hdel, hexh⟩ := @ih _ (count - n)
            (read ++ slice w.io.buffer w.io.inptr n) hfirst.inside (by split <;> omega)
          refine ⟨slice w.io.buffer w.io.inptr n ++ data, w', ?_, hfirst.trans ?_, ?_⟩
          · rw [hloop, List.append_assoc]
          · rwa [length_slice]
          · apply Exhausted.append hfirst.length_le
            rwa [length_slice]

theorem iobRead_delivers (hooks : Hooks) (count : ℕ) (hinside : w.Inside)
    (hout : w.io.out = 0) :
    ∃ data w', iobRead hooks count w = some (data, w') ∧ Delivers hooks w w' count data ∧
      Exhausted hooks w' count data := by
  have hturns : 2 * count + (if w.io.in_ = 0 then 2 else 1) ≤ 2 * count + 2 := by
    split <;> omega
  obtain ⟨data, w', hloop, hdel, hexh⟩ : ∃ data w', readLoop hooks (2 * count + 2) count [] w =
      some ([] ++ data, w') ∧ _ := readLoop_delivers [] hinside hturns
  refine ⟨data, w', ?_, hdel, hexh⟩
  rw [iobRead, flushIf, if_neg (not_not.2 hout)]
  exact hloop

section Ungetc

variable {c : UInt8}

/-- Where there is no room, nothing is pushed back. -/
theorem iobUngetc_full (c : UInt8) (hout : w.io.out = 0) (hfull : w.io.inptr = 0) :
    iobUngetc c w = (-ENOSPC, w) := by
  rw [iobUngetc, if_neg (not_not.2 hout), if_pos hfull]

/-- What pushing back a character does. -/
structure PushesBack (hooks : Hooks) (c : UInt8) (w w' : World) : Prop where
  stream : w'.stream hooks = push c (w.stream hooks)
  placed : w'.Placed
  out : w'.io.out = 0
  buf_size : w'.io.buf_size = w.io.buf_size
  in_ : w'.io.in_ = w.io.in_ + 1

/-- A character is pushed back where there is room for it. -/
theorem iobUngetc_room (hooks : Hooks) (c : UInt8) (hout : w.io.out = 0) (hplaced : w.Placed)
    (hroom : w.io.inptr ≠ 0) : (iobUngetc c w).1 = c.toInt8.toInt ∧
      PushesBack hooks c w (iobUngetc c w).2 := by
  rw [iobUngetc, if_neg (not_not.2 hout), if_neg hroom]
  refine ⟨rfl, ?_, ?_, hout, rfl, rfl⟩
  · funext i
    rw [World.stream, push, World.stream]
    cases i with
    | zero => simp
    | succ i =>
        have hindex : w.io.inptr - 1 + (i + 1) = w.io.inptr + i := by omega
        have hcount : i + 1 - (w.io.in_ + 1) = i - w.io.in_ := by omega
        have hne : w.io.inptr + i ≠ w.io.inptr - 1 := by omega
        simp only [hindex, hcount, Function.update_of_ne hne, Nat.add_lt_add_iff_right,
          Nat.succ_ne_zero, if_false, Nat.add_sub_cancel]
  · rw [World.Placed] at hplaced ⊢
    simp only
    omega

/-- The numbers that stand for an error. -/
def IsError (result : ℤ) : Prop := result = -EINVAL ∨ result = -ENOSPC

instance (result : ℤ) : Decidable (IsError result) := inferInstanceAs (Decidable (_ ∨ _))

theorem toInt8_toInt_inj {a b : UInt8} (h : a.toInt8.toInt = b.toInt8.toInt) : a = b :=
  congrArg Int8.toUInt8 (Int8.toInt_inj.mp h)

/-- As signed numbers, two characters are errors. -/
theorem isError_char : IsError c.toInt8.toInt ↔ c = 0xFF ∨ c = 0xFD := by
  constructor
  · rintro (h | h)
    · exact .inl (toInt8_toInt_inj (b := 0xFF) h)
    · exact .inr (toInt8_toInt_inj (b := 0xFD) h)
  · rintro (rfl | rfl)
    · exact .inl rfl
    · exact .inr rfl

end Ungetc

/-! ## Every sequence of calls -/

/-- A call of `iobRead` or `iobUngetc`, with what it came to. -/
inductive Event
  | read (count : ℕ) (data : List UInt8)
  | ungetc (before : World) (c : UInt8) (result : ℤ) (after : World)

/-- Characters may be pushed back after a read that asked for less than the buffer holds
and delivered something, and after others that were. -/
def mayUngetc (buf_size : ℕ) (history : List Event) : Prop :=
  history.foldl (fun may event =>
    match event with
    | .read count data => count < buf_size ∧ data ≠ []
    | .ungetc .. => may) False

/-- The sequences of calls, with the states they lead to. -/
inductive Runs (hooks : Hooks) (io : Io) : List Event → World → Prop
  | fresh : Runs hooks io [] (.fresh io)
  | read {history : List Event} {w w' : World} {count : ℕ} {data : List UInt8}
      (h : Runs hooks io history w) (hread : iobRead hooks count w = some (data, w')) :
      Runs hooks io (history ++ [.read count data]) w'
  | ungetc {history : List Event} {w : World} (h : Runs hooks io history w)
      (hmay : mayUngetc io.buf_size history) (c : UInt8) :
      Runs hooks io (history ++ [.ungetc w c (iobUngetc c w).1 (iobUngetc c w).2])
        (iobUngetc c w).2

/-- What is to be read after some calls: the source, less what the reads have delivered,
with what was pushed back in front of it. -/
def following (source : Bytes) (history : List Event) : Bytes :=
  history.foldl (fun stream event =>
    match event with
    | .read _ data => behind data.length stream
    | .ungetc _ c result _ => if IsError result then stream else push c stream) source

/-- Every read has delivered what there was to be read. -/
def InOrder (source : Bytes) (history : List Event) : Prop :=
  ∀ before count data later, history = before ++ .read count data :: later →
    data.length ≤ count ∧ data = slice (following source before) 0 data.length

/-- What is asked for of a run: the reads deliver what there is to be read, the bytes of the
buffer are in its memory, a read ends, short only where the source gives nothing more, and
an error has left everything as it was. -/
structure Serves (hooks : Hooks) (history : List Event) (w : World) : Prop where
  inOrder : InOrder hooks.source history
  inside : w.Inside
  ends : ∀ count, ∃ data w', iobRead hooks count w = some (data, w') ∧
    Exhausted hooks w' count data
  errors : ∀ before c result after, .ungetc before c result after ∈ history →
    IsError result → after = before

/-- No character that reads as an error is pushed back where there is room for it. -/
def Unmistakable (history : List Event) : Prop :=
  ∀ before c result after, .ungetc before c result after ∈ history →
    before.io.inptr = 0 ∨ c ≠ 0xFF ∧ c ≠ 0xFD

theorem Unmistakable.left {history more : List Event} (h : Unmistakable (history ++ more)) :
    Unmistakable history :=
  fun _ _ _ _ hmem => h _ _ _ _ (List.mem_append_left more hmem)

/-- The invariant of the calls. -/
structure Faithful (hooks : Hooks) (io : Io) (history : List Event) (w : World) : Prop where
  inOrder : Unmistakable history → InOrder hooks.source history
  stream : Unmistakable history → w.stream hooks = following hooks.source history
  inside : w.Inside
  placed : mayUngetc io.buf_size history → w.Placed
  out : w.io.out = 0
  buf_size : w.io.buf_size = io.buf_size
  errors : ∀ before c result after, .ungetc before c result after ∈ history →
    ((IsError result → after = before) ↔ before.io.inptr = 0 ∨ c ≠ 0xFF ∧ c ≠ 0xFD)

theorem InOrder.append {source : Bytes} {history : List Event} (h : InOrder source history)
    {event : Event} (hevent : ∀ count data, event = .read count data →
      data.length ≤ count ∧ data = slice (following source history) 0 data.length) :
    InOrder source (history ++ [event]) := by
  intro before count data later heq
  cases later using List.reverseRecOn with
  | nil =>
      obtain ⟨rfl, hlast⟩ := List.append_inj' heq rfl
      exact hevent count data (List.cons.inj hlast).1
  | append_singleton later last =>
      rw [← List.cons_append, ← List.append_assoc] at heq
      exact h before count data later (List.append_inj' heq rfl).1

section Step

variable {hooks : Hooks} {io : Io} {history : List Event} {w' : World}

theorem Faithful.read {count : ℕ} {data : List UInt8} (h : Faithful hooks io history w)
    (hread : iobRead hooks count w = some (data, w')) :
    Faithful hooks io (history ++ [.read count data]) w' := by
  obtain ⟨data', w₁, hread', hdel, -⟩ := iobRead_delivers hooks count h.inside h.out
  obtain ⟨rfl, rfl⟩ : data = data' ∧ w' = w₁ := by simpa [hread] using hread'
  refine ⟨fun hclear => (h.inOrder hclear.left).append ?_, fun hclear => ?_, hdel.inside, ?_,
    hdel.out.trans h.out, hdel.buf_size.trans h.buf_size, ?_⟩
  · rintro count' data' heq
    obtain ⟨rfl, rfl⟩ : count = count' ∧ data = data' := by simpa using heq
    rw [← h.stream hclear.left]
    exact ⟨hdel.length_le, hdel.data_eq⟩
  · rw [hdel.stream, h.stream hclear.left, following, following, List.foldl_append]
    rfl
  · intro hmay
    rw [mayUngetc, List.foldl_append] at hmay
    rw [← h.buf_size] at hmay
    exact hdel.located hmay.1 hmay.2
  · intro before c result after hmem
    obtain hmem | hlast := List.mem_append.mp hmem
    · exact h.errors before c result after hmem
    · cases List.mem_singleton.mp hlast

/-- What a call of `iobUngetc` adds to the invariant. -/
theorem Faithful.push (h : Faithful hooks io history w) (hmay : mayUngetc io.buf_size history)
    (c : UInt8) : Faithful hooks io
      (history ++ [.ungetc w c (iobUngetc c w).1 (iobUngetc c w).2]) (iobUngetc c w).2 := by
  have hinOrder (result : ℤ) (w' : World)
      (hclear : Unmistakable (history ++ [.ungetc w c result w'])) :
      InOrder hooks.source (history ++ [.ungetc w c result w']) :=
    (h.inOrder hclear.left).append nofun
  have herrors (result : ℤ) (w' : World) (hlast : (IsError result → w' = w) ↔
      w.io.inptr = 0 ∨ c ≠ 0xFF ∧ c ≠ 0xFD) : ∀ before c' result' after,
      Event.ungetc before c' result' after ∈ history ++ [.ungetc w c result w'] →
        ((IsError result' → after = before) ↔
          before.io.inptr = 0 ∨ c' ≠ 0xFF ∧ c' ≠ 0xFD) := by
    intro before c' result' after hmem
    obtain hmem | heq := List.mem_append.mp hmem
    · exact h.errors before c' result' after hmem
    · cases List.mem_singleton.mp heq
      exact hlast
  have hfollowing (result : ℤ) (w' : World) :
      following hooks.source (history ++ [.ungetc w c result w']) =
        if IsError result then following hooks.source history
        else IoBuffer.push c (following hooks.source history) := by
    rw [following, List.foldl_append]
    rfl
  by_cases hfull : w.io.inptr = 0
  · rw [iobUngetc_full c h.out hfull]
    refine ⟨hinOrder _ _, fun hclear => ?_, h.inside, fun _ => h.placed hmay, h.out, h.buf_size,
      herrors _ _ (iff_of_true (fun _ => rfl) (.inl hfull))⟩
    rw [hfollowing, if_pos (.inr rfl)]
    exact h.stream hclear.left
  · obtain ⟨hresult, hpushes⟩ := iobUngetc_room hooks c h.out (h.placed hmay) hfull
    rw [hresult]
    refine ⟨hinOrder _ _, fun hclear => ?_, hpushes.placed.inside, fun _ => hpushes.placed,
      hpushes.out, hpushes.buf_size.trans h.buf_size, herrors _ _ ?_⟩
    · have hchar := (hclear w c _ _ (List.mem_append_right _ List.mem_cons_self)).resolve_left hfull
      rw [hfollowing, if_neg fun herr => (isError_char.mp herr).elim hchar.1 hchar.2,
        hpushes.stream, h.stream hclear.left]
    · -- the buffer has one byte more
      have hchanged : (iobUngetc c w).2 ≠ w := fun hsame => by
        have hin := hpushes.in_
        rw [hsame] at hin
        omega
      rw [or_iff_right hfull, isError_char, or_imp]
      exact and_congr ⟨fun h hc => hchanged (h hc), fun h hc => absurd hc h⟩
        ⟨fun h hc => hchanged (h hc), fun h hc => absurd hc h⟩

end Step

/-- Every run is faithful: a read takes its bytes off the stream, and a character that is
pushed back is put in front of it. -/
theorem Runs.isFaithful {hooks : Hooks} {io : Io} {history : List Event} {w : World}
    (h : Runs hooks io history w) : Faithful hooks io history w := by
  induction h with
  | fresh =>
      refine ⟨fun _ => ?_, fun _ => ?_, ?_, False.elim, rfl, rfl, by simp⟩
      · intro before count data later heq
        simp at heq
      · rw [stream_of_empty rfl]
        exact behind_zero _
      · intro i hi hlt
        simp only [World.fresh] at hi hlt
        omega
  | read h hread ih => exact ih.read hread
  | ungetc h hmay c ih => exact ih.push hmay c

/-- Reading and pushing back, in any order in which the callers use them, serves the callers
exactly if no character is pushed back that reads as an error. -/
theorem runs_serves_iff {hooks : Hooks} {io : Io} {history : List Event} {w : World}
    (h : Runs hooks io history w) : Serves hooks history w ↔ Unmistakable history := by
  have hfaithful := h.isFaithful
  constructor
  · intro hserves before c result after hmem
    exact (hfaithful.errors before c result after hmem).mp
      (hserves.errors before c result after hmem)
  · intro hclear
    refine ⟨hfaithful.inOrder hclear, hfaithful.inside, fun count => ?_, ?_⟩
    · obtain ⟨data, w', hread, -, hexh⟩ :=
        iobRead_delivers hooks count hfaithful.inside hfaithful.out
      exact ⟨data, w', hread, hexh⟩
    · intro before c result after hmem
      exact (hfaithful.errors before c result after hmem).mpr (hclear before c result after hmem)

/-- A buffer of four bytes in front of a source that counts, three bytes at a time. -/
def countingHooks : Hooks := ⟨fun i => UInt8.ofNat i, fun _ _ => 3⟩

def countingIo : Io := ⟨._IONBF, 0, 0, fun _ => 0, 4, 0, 0⟩

/-- The first byte has been read. -/
def countingWorld : World :=
  ⟨⟨._IONBF, 2, 0, memcpy (fun _ => 0) 0 [0, 1, 2], 4, 1, 0⟩, [], 3, 1⟩

theorem countingWorld_runs : Runs countingHooks countingIo [.read 1 [0]] countingWorld :=
  Runs.fresh.read rfl

/-- It is pushed back, and read again with the next one. -/
def countingHistory : List Event :=
  [.read 1 [0], .ungetc countingWorld 0 0 (iobUngetc 0 countingWorld).2, .read 2 [0, 1]]

theorem runs_serves_iff_counting : ∃ w,
    Serves countingHooks countingHistory w ↔ Unmistakable countingHistory := by
  have hpushed := countingWorld_runs.ungetc ⟨by decide, by decide⟩ 0
  have hread : Runs countingHooks countingIo countingHistory _ := hpushed.read rfl
  exact ⟨_, runs_serves_iff hread⟩

/-- The character 0xFF is pushed back, and the error `-EINVAL` is returned. -/
theorem not_serves_allOnes :
    Runs countingHooks countingIo [.read 1 [0], .ungetc countingWorld 0xFF (-EINVAL)
      (iobUngetc 0xFF countingWorld).2] (iobUngetc 0xFF countingWorld).2 ∧
    ¬ Serves countingHooks [.read 1 [0], .ungetc countingWorld 0xFF (-EINVAL)
      (iobUngetc 0xFF countingWorld).2] (iobUngetc 0xFF countingWorld).2 := by
  refine ⟨countingWorld_runs.ungetc ⟨by decide, by decide⟩ 0xFF, fun h => ?_⟩
  have hsame := h.errors _ _ _ _ (List.mem_cons_of_mem _ List.mem_cons_self) (.inl rfl)
  exact absurd (congrArg (fun w => w.io.in_) hsame) (by decide)

end Cyanea.IoBuffer
