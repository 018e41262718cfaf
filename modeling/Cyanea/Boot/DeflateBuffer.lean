/-
# What `deflate_buffer` makes of its source

The simulation of the loop over blocks, started at the first bit. Where the reading of the
source ends well the call returns its output; where the reading is refused there is an
error; where the reading is lost the code runs into undefined behaviour; and where the
destination is too small for the output of the reading, a byte is stored behind its end.
A conforming stream is a reading that breaks no rule, so it is inflated; the converse fails
exactly for the sources that break a rule without being refused.
-/

import Cyanea.Boot.Blocks
import Cyanea.Boot.Progress
import Cyanea.Rfc1951.Conformance

namespace Cyanea.Boot

open Math Math.Bits Math.Simulation Rfc1951

variable {cap : ℕ} {source : List UInt8}

theorem initial_boundary (source : List UInt8) :
    Boundary (turnBound source) (initial source) ⟨ofBytes source, [], []⟩ where
  full := ⟨List.length_replicate, List.length_replicate⟩
  follows :=
    { error := rfl
      sound := ⟨Nat.zero_lt_one, Nat.zero_le _⟩
      nr_bits := Nat.zero_lt_succ 7
      bits := rfl
      left := by
        show (ofBytes source).length < 8 * source.length + 1
        rw [length_ofBytes]
        exact Nat.lt_succ_self _
      dest := rfl
      frame := rfl }

/-- The loop over the blocks against the reading of the source. -/
theorem bufferLoop_agrees (cap : ℕ) (source : List UInt8) :
    Agrees (setting cap) (iterate .unfinished (fun _ => bufferTurn cap (turnBound source))
        (turnBound source) () (initial source)) (read source)
      (fun _ _ => Boundary (turnBound source)) (fun _ => True) :=
  bufferLoop_sim (initial source) ⟨ofBytes source, [], []⟩ (initial_boundary source)
    (Nat.zero_le cap)

theorem deflateBuffer_of_loop {dest_len : ℕ} {d : Deflate}
    (h : iterate .unfinished (fun _ => bufferTurn cap (turnBound source)) (turnBound source)
      () (initial source) = .ok ((), d)) :
    deflateBuffer cap dest_len source =
      .ok ⟨d.error, if d.error = .NONE then d.dest_size else dest_len, d⟩ := by
  rw [deflateBuffer, h]
  rfl

/-- Where the reading ends well and its output fits, it is what was stored. -/
theorem deflateBuffer_ok {r : Reading} (h : read source = .ok () r)
    (hcap : r.out.length ≤ cap) (dest_len : ℕ) :
    ∃ d, deflateBuffer cap dest_len source = .ok ⟨.NONE, r.out.length, d⟩ ∧ d.dest = r.out ∧
      d.bitsLeft = r.bits ∧ d.nr_bits < 8 ∧ d.Sound ∧ d.source = source := by
  have hagrees := bufferLoop_agrees cap source
  rw [h] at hagrees
  obtain ⟨_, d, hloop, hd⟩ := hagrees.2 hcap
  have hsize : d.dest_size = r.out.length := hd.follows.dest_size
  refine ⟨d, ?_, hd.follows.dest, hd.follows.bits, hd.follows.nr_bits, hd.follows.sound, ?_⟩
  · rw [deflateBuffer_of_loop hloop, hd.follows.error, if_pos rfl, hsize]
  · have hends := deflateBuffer_ends cap dest_len source
    rw [deflateBuffer_of_loop hloop] at hends
    exact hends.1

/-- Where the reading is refused and its output fits, there is an error and `*dest_len`
stays as it was. -/
theorem deflateBuffer_rejected {r : Reading} (h : read source = .rejected r)
    (hcap : r.out.length ≤ cap) (dest_len : ℕ) :
    ∃ d, d.error ≠ .NONE ∧ deflateBuffer cap dest_len source = .ok ⟨d.error, dest_len, d⟩ := by
  have hagrees := bufferLoop_agrees cap source
  rw [h] at hagrees
  obtain ⟨_, d, hloop, hd, -⟩ := hagrees.2 hcap
  refine ⟨d, hd, ?_⟩
  rw [deflateBuffer_of_loop hloop, if_neg hd]

theorem deflateBuffer_lost {r : Reading} (h : read source = .lost r)
    (hcap : r.out.length ≤ cap) (dest_len : ℕ) :
    ∃ f, f.Undefined ∧ deflateBuffer cap dest_len source = .error f := by
  have hagrees := bufferLoop_agrees cap source
  rw [h] at hagrees
  obtain ⟨f, hloop, hf⟩ := hagrees.2 hcap
  refine ⟨f, hf, ?_⟩
  rw [deflateBuffer, hloop]
  rfl

theorem deflateBuffer_overflow (hcap : ¬ (read source).state.out.length ≤ cap)
    (dest_len : ℕ) : deflateBuffer cap dest_len source = .error .overflow := by
  rw [deflateBuffer, (bufferLoop_agrees cap source).1 hcap]
  rfl

/-! ## Conforming streams -/

/-- A byte string is a stream in one way only. -/
theorem Stream.unique {out out' : List UInt8} {rest rest' : List Bool}
    (h : Stream source out rest) (h' : Stream source out' rest') :
    out' = out ∧ rest' = rest := by
  have heq := (read_eq_ok_iff.2 h).symm.trans (read_eq_ok_iff.2 h')
  cases heq
  exact ⟨rfl, rfl⟩

/-- A conforming stream is inflated to what it stands for. -/
theorem deflateBuffer_stream {out : List UInt8} {rest : List Bool}
    (h : Stream source out rest) (hcap : out.length ≤ cap) (dest_len : ℕ) :
    ∃ d, deflateBuffer cap dest_len source = .ok ⟨.NONE, out.length, d⟩ ∧ d.dest = out := by
  obtain ⟨d, hrun, hdest, -⟩ := deflateBuffer_ok (read_eq_ok_iff.2 h) hcap dest_len
  exact ⟨d, hrun, hdest⟩

/-- The four bytes are a block with fixed codes that holds the letters `ab`. -/
theorem deflateBuffer_stream_ab :
    Stream [0x4b, 0x4c, 0x02, 0x00] [97, 98] (List.replicate 6 false) ∧
      ∃ d, deflateBuffer 2 0 [0x4b, 0x4c, 0x02, 0x00] = .ok ⟨.NONE, 2, d⟩ ∧
        d.dest = [97, 98] := by
  have h : Stream [0x4b, 0x4c, 0x02, 0x00] [97, 98] (List.replicate 6 false) :=
    read_eq_ok_iff.1 (by decide +kernel)
  exact ⟨h, deflateBuffer_stream h le_rfl 0⟩

/-! ## Other sources -/

/-- The reading is refused, or it ends well and breaks no rule. -/
def Strict : Result Reading Unit → Prop
  | .ok _ r => r.broken = []
  | .rejected _ => True
  | .lost _ => False

/-- What `deflate_buffer` should make of a source: success for a conforming stream that
ends where it stopped reading, and otherwise an error that leaves `*dest_len` alone. A call
may stop where its destination is too small. -/
def Detects (source : List UInt8) : Prop :=
  ∀ cap dest_len, Ends (fun r => if r.error = .NONE then Stream source r.d.dest r.d.bitsLeft
    else r.dest_len = dest_len) (· = .overflow) (deflateBuffer cap dest_len source)

/-- Violations are detected in exactly the sources whose reading is refused or breaks no
rule. -/
theorem detects_iff_strict (source : List UInt8) : Detects source ↔ Strict (read source) := by
  constructor
  · intro h
    have hends := h (read source).state.out.length 0
    cases hread : read source with
    | ok _ r =>
        rw [hread] at hends
        obtain ⟨d, hrun, hdest, hbits, -⟩ := deflateBuffer_ok hread le_rfl 0
        rw [show (Result.ok () r : Result Reading Unit).state = r from rfl, hrun] at hends
        have hstream : Stream source d.dest d.bitsLeft := hends
        have heq := hread.symm.trans (read_eq_ok_iff.2 hstream)
        cases heq
        rfl
    | rejected r => trivial
    | lost r =>
        rw [hread] at hends
        obtain ⟨f, hf, hrun⟩ := deflateBuffer_lost hread le_rfl 0
        rw [show (Result.lost r : Result Reading Unit).state = r from rfl, hrun] at hends
        have hover : f = .overflow := hends
        subst hover
        rcases hf with hf | hf | hf <;> cases hf
  · intro h cap dest_len
    by_cases hcap : (read source).state.out.length ≤ cap
    · cases hread : read source with
      | ok _ r =>
          rw [hread] at h hcap
          obtain ⟨d, hrun, hdest, hbits, -⟩ := deflateBuffer_ok hread hcap dest_len
          rw [hrun]
          show Stream source d.dest d.bitsLeft
          rw [hdest, hbits, ← read_eq_ok_iff, hread]
          obtain ⟨bits, out, broken⟩ := r
          obtain rfl : broken = [] := h
          rfl
      | rejected r =>
          rw [hread] at hcap
          obtain ⟨d, herror, hrun⟩ := deflateBuffer_rejected hread hcap dest_len
          rw [hrun]
          simp [herror]
      | lost r =>
          rw [hread] at h
          exact h.elim
    · rw [deflateBuffer_overflow hcap]
      rfl

/-- A stored block of no bytes whose `NLEN` is zero as well is accepted. -/
theorem not_detects_complement :
    ∃ r, deflateBuffer 0 7 [0x01, 0x00, 0x00, 0x00, 0x00] = .ok r ∧ r.error = .NONE ∧
      ∀ out rest, ¬ Stream [0x01, 0x00, 0x00, 0x00, 0x00] out rest := by
  have hread : read [0x01, 0x00, 0x00, 0x00, 0x00] = .ok () ⟨[], [], [.complement]⟩ := by
    decide +kernel
  obtain ⟨d, hrun, -⟩ := deflateBuffer_ok hread le_rfl 7
  refine ⟨_, hrun, rfl, fun out rest hstream => ?_⟩
  have heq := hread.symm.trans (read_eq_ok_iff.2 hstream)
  cases heq

end Cyanea.Boot
