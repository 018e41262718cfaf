/-
# Buffered input and output

The model of `struct io_buffer` and of `uklib/io_buffer/io_buffer.c`. The hooks are an
adversary: each call moves as many bytes as it likes, and one that moves none has failed.
The memory behind `buffer` is a function of the offset; what has been emitted and how much
of the source has been taken are kept beside the structure. Both loops go on as long as
the hooks let them, so their turns are counted in the model.
-/

import Cyanea.Errno
import Mathlib.Data.List.GetD
import Mathlib.Logic.Function.Basic

namespace Cyanea.IoBuffer

/-- `'\n'`. -/
def NEWLINE : UInt8 := 0x0a

/-- `enum io_bufmode`. -/
inductive Mode
  /-- Unbuffered. -/
  | _IONBF
  /-- Line Buffering. -/
  | _IOLBF
  /-- Full Buffering. -/
  | _IOFBF
  deriving DecidableEq, Repr

/-! ## Memory -/

abbrev Bytes := ℕ → UInt8

/-- The bytes `memory[start .. start + len)`. -/
def slice (memory : Bytes) (start : ℕ) : ℕ → List UInt8
  | 0 => []
  | len + 1 => memory start :: slice memory (start + 1) len

/-- `memcpy(&memory[start], data, length of data)`. -/
def memcpy (memory : Bytes) (start : ℕ) (data : List UInt8) : Bytes := fun i =>
  if start ≤ i ∧ i < start + data.length then data.getD (i - start) 0 else memory i

@[simp]
theorem length_slice (memory : Bytes) (start len : ℕ) :
    (slice memory start len).length = len := by
  induction len generalizing start with
  | zero => rfl
  | succ len ih => rw [slice, List.length_cons, ih]

theorem slice_add (memory : Bytes) (start m n : ℕ) :
    slice memory start (m + n) = slice memory start m ++ slice memory (start + m) n := by
  induction m generalizing start with
  | zero => simp [slice]
  | succ m ih =>
      have hsucc : m + 1 + n = m + n + 1 := by omega
      have hstart : start + (m + 1) = start + 1 + m := by omega
      rw [hsucc, slice, slice, ih, List.cons_append, hstart]

theorem slice_congr {memory memory' : Bytes} {start start' len : ℕ}
    (h : ∀ i < len, memory (start + i) = memory' (start' + i)) :
    slice memory start len = slice memory' start' len := by
  induction len generalizing start start' with
  | zero => rfl
  | succ len ih =>
      have hhead : memory start = memory' start' := h 0 (Nat.succ_pos _)
      have htail : ∀ i < len, memory (start + 1 + i) = memory' (start' + 1 + i) := by
        intro i hi
        rw [Nat.add_assoc, Nat.add_assoc, Nat.add_comm 1 i]
        exact h (i + 1) (by omega)
      rw [slice, slice, hhead, ih htail]

theorem getD_slice (memory : Bytes) (start : ℕ) {len i : ℕ} (hi : i < len) :
    (slice memory start len).getD i 0 = memory (start + i) := by
  induction len generalizing start i with
  | zero => omega
  | succ len ih =>
      cases i with
      | zero => rfl
      | succ i =>
          rw [slice, List.getD_cons_succ, ih (start + 1) (by omega), Nat.add_assoc,
            Nat.add_comm 1 i]

theorem memcpy_add (memory : Bytes) (start : ℕ) {data : List UInt8} {i : ℕ}
    (hi : i < data.length) : memcpy memory start data (start + i) = data.getD i 0 := by
  rw [memcpy, if_pos (by omega), Nat.add_sub_cancel_left]

/-- Bytes in front of those that are copied stay. -/
theorem slice_memcpy_before (memory : Bytes) {start len offset : ℕ}
    (h : start + len ≤ offset) (data : List UInt8) :
    slice (memcpy memory offset data) start len = slice memory start len := by
  apply slice_congr
  intro i hi
  exact if_neg (by omega)

theorem slice_memcpy (memory : Bytes) (start : ℕ) (data : List UInt8) :
    slice (memcpy memory start data) start data.length = data := by
  apply List.ext_getElem (length_slice ..)
  intro i hi hi'
  rw [← List.getD_eq_getElem _ 0 hi, ← List.getD_eq_getElem _ 0 hi', getD_slice _ _ hi',
    memcpy_add _ _ hi']

/-! ## The structure -/

/-- `struct io_buffer`, with `inptr` as an offset into `buffer`. -/
structure Io where
  mode : Mode
  in_ : ℕ
  out : ℕ
  buffer : Bytes
  buf_size : ℕ
  inptr : ℕ
  io_unget_slop : ℕ

/-- The structure, with what the hooks have done so far: the bytes they have emitted, the
number of bytes they have taken from the source, and the number of their calls. -/
structure World where
  io : Io
  emitted : List UInt8
  taken : ℕ
  calls : ℕ

/-- Nothing has been done with the structure yet. -/
def World.fresh (io : Io) : World := ⟨{ io with in_ := 0, out := 0 }, [], 0, 0⟩

/-- The other end of the hooks. The number of bytes that a call is ready to move depends on
how many there were before, and on how much has been read. -/
structure Hooks where
  source : Bytes
  ready : (calls taken : ℕ) → ℕ

section Operations

variable (hooks : Hooks)

/-- What the next call of a hook is ready to move. -/
def World.ready (w : World) : ℕ := hooks.ready w.calls w.taken

/-- `io->ops->flush(io)` emits what is pending, or fails. -/
def opsFlush (w : World) : ℤ × World :=
  if w.ready hooks = 0 then
    (-1, { w with calls := w.calls + 1 })
  else
    (SUCCESS,
      { w with
        io := { w.io with out := 0 }
        emitted := w.emitted ++ slice w.io.buffer 0 w.io.out
        calls := w.calls + 1 })

/-- `if (p) io->ops->flush(io)`. -/
def flushIf (p : Prop) [Decidable p] (w : World) : ℤ × World :=
  if p then opsFlush hooks w else (SUCCESS, w)

/-- `io->ops->write(io, buffer, count)` emits the first bytes. -/
def opsWrite (buffer : List UInt8) (w : World) : ℕ × World :=
  let n := min (w.ready hooks) buffer.length
  (n, { w with emitted := w.emitted ++ buffer.take n, calls := w.calls + 1 })

/-- `io->ops->read(io, buffer, count)`, with the bytes that it puts into `buffer`. -/
def opsRead (count : ℕ) (w : World) : List UInt8 × World :=
  let n := min (w.ready hooks) count
  (slice hooks.source w.taken n, { w with taken := w.taken + n, calls := w.calls + 1 })

/-- The loop of `wbuffer_no_flush`. -/
def wbufferLoop : (turns : ℕ) → (buffer : List UInt8) → (written : ℕ) → World →
    Option (ℕ × World)
  | 0, _, _, _ => none
  | turns + 1, buffer, written, w =>
      let count := buffer.length
      if count = 0 then
        some (written, w)
      else
        let (err, w) := flushIf hooks (w.io.out = w.io.buf_size) w
        if err ≠ SUCCESS then
          some (written, w)
        else if w.io.out = 0 ∧ w.io.buf_size ≤ count then
          -- Output buffer is empty, bypass the buffer.
          let (n, w) := opsWrite hooks buffer w
          if n = 0 then
            some (written, w)
          else
            wbufferLoop turns (buffer.drop n) (written + n) w
        else
          let n := min count (w.io.buf_size - w.io.out)
          let io :=
            { w.io with
              buffer := memcpy w.io.buffer w.io.out (buffer.take n)
              out := w.io.out + n }
          wbufferLoop turns (buffer.drop n) (written + n) { w with io }

/-- `wbuffer_no_flush`; every turn moves a byte. -/
def wbufferNoFlush (buffer : List UInt8) (w : World) : Option (ℕ × World) :=
  let (err, w) := flushIf hooks (w.io.in_ ≠ 0) w
  if err ≠ SUCCESS then
    some (0, w)
  else
    wbufferLoop hooks (buffer.length + 1) buffer 0 w

/-- Flush up to new line: the length of `buffer[0..f_len)` up to its last one. -/
def flushLength (buffer : List UInt8) : (f_len : ℕ) → ℕ
  | 0 => 0
  | f_len + 1 => if buffer.getD f_len 0 ≠ NEWLINE then flushLength buffer f_len else f_len + 1

/-- Size of buffer that should be flushed. -/
def flushedSize (mode : Mode) (buffer : List UInt8) : ℕ :=
  match mode with
  | ._IOFBF => 0
  | ._IOLBF => flushLength buffer buffer.length
  | ._IONBF => buffer.length

/-- `__iob_write`. -/
def iobWrite (buffer : List UInt8) (w : World) : Option (ℕ × World) :=
  let f_len := flushedSize w.io.mode buffer
  let u_len := buffer.length - f_len
  if f_len ≠ 0 then do
    let (written, w) ← wbufferNoFlush hooks (buffer.take f_len) w
    if written ≠ f_len then
      return (written, w)
    else
      let (err, w) := opsFlush hooks w
      if err ≠ SUCCESS then
        return (written, w)
      else if u_len ≠ 0 then
        let (n, w) ← wbufferNoFlush hooks (buffer.drop written) w
        return (written + n, w)
      else
        return (written, w)
  else if u_len ≠ 0 then
    wbufferNoFlush hooks buffer w
  else
    some (0, w)

/-- One call of `__iob_write` after the other, with what each returns. -/
def iobWrites : List (List UInt8) → World → Option (List ℕ × World)
  | [], w => some ([], w)
  | buffer :: calls, w => do
      let (written, w) ← iobWrite hooks buffer w
      let (results, w) ← iobWrites calls w
      return (written :: results, w)

/-- The loop of `__iob_read`, with the bytes that have been delivered so far. The inner
loop is left when there is something in the buffer or nothing more to do, so that both are
one here. -/
def readLoop : (turns : ℕ) → (count : ℕ) → (read : List UInt8) → World →
    Option (List UInt8 × World)
  | 0, _, _, _ => none
  | turns + 1, count, read, w =>
      if count = 0 then
        some (read, w)
      else if w.io.in_ = 0 then
        if count < w.io.buf_size then
          let (data, w) := opsRead hooks w.io.buf_size w
          if data.length = 0 then
            some (read, w)
          else
            let io :=
              { w.io with
                buffer := memcpy w.io.buffer w.io.io_unget_slop data
                inptr := w.io.io_unget_slop
                in_ := data.length }
            readLoop turns count read { w with io }
        else
          -- Bypass buffering.
          let (data, w) := opsRead hooks count w
          if data.length = 0 then
            some (read, w)
          else
            readLoop turns (count - data.length) (read ++ data) w
      else
        let n := min count w.io.in_
        let io := { w.io with inptr := w.io.inptr + n, in_ := w.io.in_ - n }
        readLoop turns (count - n) (read ++ slice w.io.buffer w.io.inptr n) { w with io }

/-- `__iob_read`, with the bytes that it puts into the caller's buffer. A turn either
delivers a byte or fills the buffer for the next. -/
def iobRead (count : ℕ) (w : World) : Option (List UInt8 × World) :=
  let (err, w) := flushIf hooks (w.io.out ≠ 0) w
  if err ≠ SUCCESS then
    some ([], w)
  else
    readLoop hooks (2 * count + 2) count [] w

end Operations

/-- `__iob_ungetc`. The character that it returns is a signed one. -/
def iobUngetc (c : UInt8) (w : World) : ℤ × World :=
  if w.io.out ≠ 0 then
    (-EINVAL, w)
  else if w.io.inptr = 0 then
    (-ENOSPC, w)
  else
    let io :=
      { w.io with
        inptr := w.io.inptr - 1
        buffer := Function.update w.io.buffer (w.io.inptr - 1) c
        in_ := w.io.in_ + 1 }
    (c.toInt8.toInt, { w with io })

end Cyanea.IoBuffer
