/-
# What `decompress_gzip` accepts

The nibble table computes the CRC-32, and the header tests follow the format. What is left
of the format is not looked at: the call succeeds where the deflate data ends before the
trailer, and whatever `ISIZE` is.
-/

import Cyanea.Boot.DeflateBuffer
import Cyanea.Boot.Gzip
import Cyanea.Rfc1952.Member

namespace Cyanea.Boot

open Math Math.Bits Math.Simulation Rfc1951 Rfc1952

/-! ## The check -/

theorem crctab32_getElem? : ∀ i < 16,
    crctab32[i]? = some (Crc.shifts polynomial 4 (BitVec.ofNat 32 i)) := by
  decide +kernel

theorem crcNibble_eq (crc : BitVec 32) :
    crcNibble crc = .ok (Crc.shifts polynomial 4 crc) := by
  have hlow : (crc &&& 0x0F).toNat < 16 := by
    rw [BitVec.toNat_and]
    exact Nat.and_lt_two_pow (n := 4) _ (by decide)
  have hload := crctab32_getElem? _ hlow
  rw [BitVec.ofNat_toNat, BitVec.setWidth_eq] at hload
  have hsplit : Crc.shifts polynomial 4 crc =
      Crc.shifts polynomial 4 (crc &&& 0x0F) ^^^ (crc >>> 4) := Crc.shifts_eq_xor 4 crc
  rw [crcNibble, load_eq hload, hsplit]
  rfl

theorem updateCrc32_eq {buffer : List UInt8} {size : ℕ} (h : size ≤ buffer.length) :
    updateCrc32 buffer size = .ok (crc32 (buffer.take size)) := by
  rw [updateCrc32]
  by_cases hzero : size = 0
  · rw [if_pos hzero, hzero, List.take_zero]
    rfl
  · rw [if_neg hzero]
    obtain ⟨crc, hrun, hcrc⟩ := foldlM_range
      (I := fun n crc => crc = Crc.remainder polynomial (BitVec.allOnes 32)
        (ofBytes (buffer.take n)))
      (f := fun crc n => do
        crcNibble (← crcNibble (crc ^^^ BitVec.ofNat 32 (← load buffer n).toNat)))
      (a := 0xFFFFFFFF) (n := size) rfl (by
        rintro n crc hn rfl
        have hn' : n < buffer.length := by omega
        have hload : load buffer n = .ok buffer[n] := by simp [load, hn']
        refine ⟨_, ?_, rfl⟩
        simp only [hload, ok_bind, crcNibble_eq]
        rw [List.take_succ_eq_append_getElem hn', ofBytes_append, Crc.remainder_append]
        rw [Crc.remainder_byte (by decide)]
        rfl)
    rw [hrun, hcrc]
    rfl

/-- The CRC-32 without a table: each byte is added to the low end of the register, which moves
down bit by bit. -/
def bitwiseCrc32 (data : List UInt8) : BitVec 32 :=
  data.foldl (Crc.feedByte 0xEDB88320) 0xFFFFFFFF ^^^ 0xFFFFFFFF

theorem crc32_eq_bitwise (data : List UInt8) : crc32 data = bitwiseCrc32 data := by
  rw [crc32, Crc.check, Crc.remainder_ofBytes (by decide)]
  rfl

/-- Two steps by the table are the eight steps of a byte. -/
theorem updateCrc32_bitwise (buffer : List UInt8) :
    updateCrc32 buffer buffer.length = .ok (bitwiseCrc32 buffer) := by
  rw [updateCrc32_eq le_rfl, List.take_length, crc32_eq_bitwise]

/-! ## The header -/

variable {source before tail : List UInt8} {flags : UInt8}

/-- A part of the header is skipped when it stands between `before` and the rest of the
source, and refused when it does not. -/
def Skips (before tail : List UInt8) (P : List UInt8 → Prop)
    (x : Except Fault (Option ℕ)) : Prop :=
  ∃ r, x = .ok r ∧ ∀ n, r = some n ↔
    ∃ field tail', tail = field ++ tail' ∧ P field ∧ n = before.length + field.length

theorem and_shiftLeft_ne_zero (flags i : ℕ) : flags &&& 1 <<< i ≠ 0 ↔ flags.testBit i := by
  rw [Nat.one_shiftLeft, Nat.and_two_pow]
  cases flags.testBit i <;> simp

/-- A field whose flag is clear is the empty one. -/
theorem skips_absent {i : ℕ} {P : List UInt8 → Prop} (h : ¬ flags.toNat.testBit i = true) :
    Skips before tail (Optional flags i P) (.ok (some before.length)) := by
  refine ⟨_, rfl, fun n => ?_⟩
  simp only [Optional, if_neg h, Option.some.injEq]
  constructor
  · rintro rfl
    exact ⟨[], tail, rfl, rfl, rfl⟩
  · rintro ⟨_, _, _, rfl, rfl⟩
    rfl

theorem optional_of_set {i : ℕ} {P : List UInt8 → Prop} (h : flags.toNat.testBit i = true) :
    Optional flags i P = P := by
  funext field
  rw [Optional, if_pos h]

theorem number_pair (a b : UInt8) : Rfc1952.number [a, b] = a.toNat + 2 ^ 8 * b.toNat := by
  have hbytes : ofBytes [a, b] = ofNat 8 a.toNat ++ ofNat 8 b.toNat := by simp
  rw [Rfc1952.number, hbytes, toNat_append, toNat_ofNat, toNat_ofNat, length_ofNat,
    Nat.mod_eq_of_lt a.toNat_lt, Nat.mod_eq_of_lt b.toNat_lt]

theorem getUnalignedLe16_append (before : List UInt8) (a b : UInt8) (tail : List UInt8) :
    getUnalignedLe16 (before ++ a :: b :: tail) before.length = .ok (Rfc1952.number [a, b]) := by
  have hdrop : (before ++ a :: b :: tail).drop before.length = a :: b :: tail :=
    List.drop_left ..
  rw [getUnalignedLe16_eq hdrop, number_pair]

/-- An extra field is there exactly when as many bytes follow its length as that says. -/
theorem extra_cons_iff {a b : UInt8} {k n : ℕ} :
    (∃ field tail', a :: b :: tail = field ++ tail' ∧ Extra field ∧ n = k + field.length) ↔
      Rfc1952.number [a, b] ≤ tail.length ∧ n = k + (Rfc1952.number [a, b] + 2) := by
  constructor
  · rintro ⟨_, tail', heq, ⟨xlen, data, rfl, hxlen, hdata⟩, rfl⟩
    obtain ⟨x, y, rfl⟩ := List.length_eq_two.1 hxlen
    have hcons : a :: b :: tail = x :: y :: (data ++ tail') := by simpa using heq
    injection hcons with hx hcons
    injection hcons with hy htail
    subst hx hy htail
    rw [hdata, List.length_append, List.length_append, hxlen]
    omega
  · rintro ⟨hlen, rfl⟩
    generalize hv : Rfc1952.number [a, b] = v at hlen ⊢
    refine ⟨[a, b] ++ tail.take v, tail.drop v, by simp, ⟨[a, b], tail.take v, rfl, rfl, ?_⟩, ?_⟩
    · rw [hv, List.length_take, min_eq_left hlen]
    · rw [List.length_append, List.length_take, min_eq_left hlen]
      show k + (v + 2) = k + (2 + v)
      omega

theorem skipExtra_skips (htail : 2 ≤ tail.length) :
    Skips before tail (Optional flags 2 Extra)
      (skipExtra (before ++ tail) flags.toNat before.length) := by
  rw [skipExtra, F_EXTRA]
  by_cases hflag : flags.toNat.testBit 2 = true
  · rw [if_pos ((and_shiftLeft_ne_zero _ 2).2 hflag)]
    match tail, htail with
    | a :: b :: tail, _ =>
        rw [getUnalignedLe16_append, ok_bind, optional_of_set hflag]
        generalize hk : Rfc1952.number [a, b] = k
        have hlen : (before ++ a :: b :: tail).length = before.length + (tail.length + 2) := by
          simp
        by_cases hroom : (before ++ a :: b :: tail).length < before.length + (k + 2)
        · refine ⟨none, if_pos hroom, fun n => ?_⟩
          rw [extra_cons_iff, hk]
          exact ⟨nofun, fun h => by omega⟩
        · refine ⟨some (before.length + (k + 2)), if_neg hroom, fun n => ?_⟩
          rw [extra_cons_iff, hk, Option.some.injEq]
          exact ⟨fun h => ⟨by omega, h.symm⟩, fun h => h.2.symm⟩
  · rw [if_neg (mt (and_shiftLeft_ne_zero _ 2).1 hflag)]
    exact skips_absent hflag

/-- A string is skipped up to its first zero byte. -/
theorem skipString_skips (turns : ℕ) (hturns : tail.length < turns) :
    Skips before tail ZeroTerminated (skipString (before ++ tail) turns before.length) := by
  induction tail generalizing before turns with
  | nil =>
      obtain ⟨turns, rfl⟩ : ∃ k, turns = k + 1 := ⟨turns - 1, by omega⟩
      refine ⟨none, by simp [skipString, pure, Except.pure], fun n => ⟨nofun, ?_⟩⟩
      rintro ⟨_, tail', heq, ⟨text, rfl, -⟩, -⟩
      simp at heq
  | cons b tail ih =>
      obtain ⟨turns, rfl⟩ : ∃ k, turns = k + 1 := ⟨turns - 1, by omega⟩
      have hload : loadSource (before ++ b :: tail) before.length = .ok b := by
        simp [loadSource]
      have hend : before.length ≠ (before ++ b :: tail).length := by simp
      rw [skipString, if_neg hend, hload, ok_bind]
      by_cases hb : b = 0
      · rw [if_neg (by simp [hb])]
        refine ⟨some (before.length + 1), rfl, fun n => ?_⟩
        subst hb
        constructor
        · rintro ⟨⟩
          exact ⟨[0], tail, rfl, ⟨[], rfl, List.not_mem_nil⟩, rfl⟩
        · rintro ⟨_, tail', heq, ⟨text, rfl, hzero⟩, rfl⟩
          cases text with
          | nil => rfl
          | cons c text =>
              obtain ⟨rfl, -⟩ : 0 = c ∧ _ := by simpa using heq
              exact absurd List.mem_cons_self hzero
      · rw [if_pos hb]
        have hsplit : before ++ b :: tail = (before ++ [b]) ++ tail := by simp
        have hlen : before.length + 1 = (before ++ [b]).length := by simp
        rw [hsplit, hlen]
        have hskips : Skips (before ++ [b]) tail ZeroTerminated _ :=
          ih turns (by simpa using hturns)
        obtain ⟨r, hrun, hr⟩ := hskips
        refine ⟨r, hrun, fun n => (hr n).trans ?_⟩
        constructor
        · rintro ⟨_, tail', rfl, ⟨text, rfl, hzero⟩, rfl⟩
          refine ⟨b :: text ++ [0], tail', rfl, ⟨b :: text, rfl, ?_⟩, by simp; omega⟩
          simp [hzero, Ne.symm hb]
        · rintro ⟨_, tail', heq, ⟨text, rfl, hzero⟩, rfl⟩
          cases text with
          | nil =>
              obtain ⟨rfl, -⟩ : b = 0 ∧ _ := by simpa using heq
              exact absurd rfl hb
          | cons c text =>
              obtain ⟨rfl, rfl⟩ : b = c ∧ tail = text ++ [0] ++ tail' := by simpa using heq
              refine ⟨text ++ [0], tail', rfl, ⟨text, rfl, fun h => hzero ?_⟩, by simp; omega⟩
              exact List.mem_cons_of_mem _ h

theorem skipField_skips (i : ℕ) :
    Skips before tail (Optional flags i ZeroTerminated)
      (skipField (before ++ tail) flags.toNat (1 <<< i) before.length) := by
  rw [skipField]
  by_cases hflag : flags.toNat.testBit i = true
  · rw [if_pos ((and_shiftLeft_ne_zero _ i).2 hflag)]
    rw [optional_of_set hflag]
    apply skipString_skips
    rw [List.length_append]
    omega
  · rw [if_neg (mt (and_shiftLeft_ne_zero _ i).1 hflag)]
    exact skips_absent hflag

theorem skipHcrc_skips :
    Skips before tail (Optional flags 1 (Hcrc before))
      (skipHcrc (before ++ tail) flags.toNat before.length) := by
  rw [skipHcrc, F_HCRC]
  by_cases hflag : flags.toNat.testBit 1 = true
  · rw [if_pos ((and_shiftLeft_ne_zero _ 1).2 hflag)]
    rw [optional_of_set hflag]
    by_cases hroom : (before ++ tail).length < before.length + 2
    · rw [if_pos hroom]
      refine ⟨none, rfl, fun n => ⟨nofun, ?_⟩⟩
      rintro ⟨field, tail', rfl, ⟨hlen, -⟩, -⟩
      rw [List.length_append, List.length_append] at hroom
      omega
    · rw [if_neg hroom]
      obtain ⟨a, b, tail, rfl⟩ : ∃ a b tail', tail = a :: b :: tail' := by
        match tail with
        | a :: b :: tail => exact ⟨a, b, tail, rfl⟩
        | [] | [_] => simp at hroom
      have hcrc : updateCrc32 (before ++ a :: b :: tail) before.length = .ok (crc32 before) := by
        rw [updateCrc32_eq (by simp), List.take_left]
      rw [hcrc, getUnalignedLe16_append, ok_bind, ok_bind]
      have hmask : (crc32 before).toNat &&& 0xFFFF = (crc32 before).toNat % 2 ^ 16 :=
        Nat.and_two_pow_sub_one_eq_mod _ 16
      rw [hmask]
      have hiff : ∀ n, (∃ field tail', a :: b :: tail = field ++ tail' ∧ Hcrc before field ∧
          n = before.length + field.length) ↔
            Rfc1952.number [a, b] = (crc32 before).toNat % 2 ^ 16 ∧ n = before.length + 2 := by
        intro n
        constructor
        · rintro ⟨field, tail', heq, ⟨hlen, hcrc⟩, rfl⟩
          obtain ⟨x, y, rfl⟩ := List.length_eq_two.1 hlen
          injection heq with hx heq
          injection heq with hy _
          subst hx hy
          exact ⟨hcrc, rfl⟩
        · rintro ⟨hcrc, rfl⟩
          exact ⟨[a, b], tail, rfl, ⟨rfl, hcrc⟩, rfl⟩
      by_cases heq : (crc32 before).toNat % 2 ^ 16 = Rfc1952.number [a, b]
      · refine ⟨some (before.length + 2), if_neg (by simpa using heq), fun n => ?_⟩
        rw [hiff, Option.some.injEq]
        exact ⟨fun h => ⟨heq.symm, h.symm⟩, fun h => h.2.symm⟩
      · refine ⟨none, if_pos heq, fun n => ?_⟩
        rw [hiff]
        exact ⟨nofun, fun h => absurd h.1.symm heq⟩
  · rw [if_neg (mt (and_shiftLeft_ne_zero _ 1).1 hflag)]
    exact skips_absent hflag

/-- Going on behind a part that was skipped, which is there in one way only. -/
theorem skips_bind {P : List UInt8 → Prop} {x : Except Fault (Option ℕ)}
    {k : ℕ → Except Fault (Option ℕ)} {Q : List UInt8 → List UInt8 → ℕ → Prop}
    (hx : Skips before tail P x)
    (hk : ∀ field tail', tail = field ++ tail' → P field →
      ∃ r, k (before ++ field).length = .ok r ∧ ∀ n, r = some n ↔ Q field tail' n) :
    ∃ r, (x >>= fun o => match o with
        | some start => k start
        | _ => pure none) = .ok r ∧
      ∀ n, r = some n ↔ ∃ field tail', tail = field ++ tail' ∧ P field ∧ Q field tail' n := by
  obtain ⟨r, rfl, hr⟩ := hx
  cases r with
  | none =>
      refine ⟨none, rfl, fun n => ⟨nofun, ?_⟩⟩
      rintro ⟨field, tail', htail, hp, -⟩
      cases (hr (before.length + field.length)).2 ⟨field, tail', htail, hp, rfl⟩
  | some start =>
      obtain ⟨field, tail', htail, hp, rfl⟩ := (hr start).1 rfl
      obtain ⟨r', hrun, hr'⟩ := hk field tail' htail hp
      rw [List.length_append] at hrun
      refine ⟨r', hrun, fun n => (hr' n).trans ?_⟩
      constructor
      · exact fun hq => ⟨field, tail', htail, hp, hq⟩
      · rintro ⟨field', tail'', htail', hp', hq⟩
        have hsame := (hr (before.length + field'.length)).2 ⟨field', tail'', htail', hp', rfl⟩
        rw [Option.some.injEq, Nat.add_left_cancel_iff] at hsame
        obtain ⟨rfl, rfl⟩ := List.append_inj (htail.symm.trans htail') hsame
        exact hq

theorem reserved_iff : ∀ flags < 256, flags &&& 0xE0 = 0 ↔ flags < 2 ^ 5 := by
  decide +kernel

/-- Past the first tests a source begins with the ten bytes that every header has. -/
theorem invalid_eq_false_iff : invalid source = false ↔
    ∃ (flags : UInt8) (fixed tail : List UInt8), flags.toNat < 2 ^ 5 ∧ fixed.length = 6 ∧
      8 ≤ tail.length ∧ source = [0x1f, 0x8b, 8, flags] ++ fixed ++ tail := by
  constructor
  · intro h
    simp only [invalid, Bool.or_eq_false_iff, decide_eq_false_iff_not, not_lt, not_not] at h
    obtain ⟨⟨⟨⟨hlen, h0⟩, h1⟩, h2⟩, h3⟩ := h
    match source, hlen with
    | a :: b :: c :: flags :: rest, hlen =>
        obtain rfl : a = 0x1f := h0
        obtain rfl : b = 0x8b := h1
        obtain rfl : c = 8 := h2
        have hrest : 14 ≤ rest.length := by simpa using hlen
        refine ⟨flags, rest.take 6, rest.drop 6, (reserved_iff _ flags.toNat_lt).1 h3, ?_, ?_, ?_⟩
        · rw [List.length_take]
          omega
        · rw [List.length_drop]
          omega
        · simp
  · rintro ⟨flags, fixed, tail, hflags, hfixed, htail, rfl⟩
    have hreserved := (reserved_iff _ flags.toNat_lt).2 hflags
    have hlen : ¬ fixed.length + tail.length + 4 < 18 := by omega
    simp [invalid, hreserved, hlen]

/-- The header tests find the end of the header, and fail where there is none. -/
theorem skipHeader_spec (source : List UInt8) :
    ∃ r, skipHeader source = .ok r ∧ ∀ n, r = some n ↔ ∃ header tail,
      source = header ++ tail ∧ Header header ∧ n = header.length ∧ 8 ≤ tail.length := by
  rw [skipHeader]
  by_cases hinvalid : invalid source = true
  · rw [if_pos hinvalid]
    refine ⟨none, rfl, fun n => ⟨nofun, ?_⟩⟩
    rintro ⟨header, tail, rfl, ⟨flags, fixed, extra, name, comment, hcrc, rfl, hflags, hfixed,
      -⟩, -, htail⟩
    rw [invalid_eq_false_iff.2 ⟨flags, fixed, extra ++ name ++ comment ++ hcrc ++ tail, hflags,
      hfixed, by simp; omega, by simp⟩] at hinvalid
    cases hinvalid
  · rw [if_neg hinvalid]
    rw [Bool.not_eq_true] at hinvalid
    obtain ⟨flags, fixed, tail, hflags, hfixed, htail, hsource⟩ :=
      invalid_eq_false_iff.1 hinvalid
    have hflag : source.getD 3 0 = flags := by rw [hsource]; rfl
    have hten : 10 = ([0x1f, 0x8b, 8, flags] ++ fixed).length := by simp [hfixed]
    rw [hflag, hten, hsource]
    dsimp only
    generalize hbefore : [0x1f, 0x8b, 8, flags] ++ fixed = before
    have hchain : ∃ r, (do
        let some start ← skipExtra (before ++ tail) flags.toNat before.length | return none
        let some start ← skipField (before ++ tail) flags.toNat F_NAME start | return none
        let some start ← skipField (before ++ tail) flags.toNat F_COMMENT start | return none
        let some start ← skipHcrc (before ++ tail) flags.toNat start | return none
        if (before ++ tail).length < start + 8 then
          return none
        else
          return some start : Except Fault (Option ℕ)) = .ok r ∧
        ∀ n, r = some n ↔ ∃ extra t₁, tail = extra ++ t₁ ∧ Optional flags 2 Extra extra ∧
          ∃ name t₂, t₁ = name ++ t₂ ∧ Optional flags 3 ZeroTerminated name ∧
          ∃ comment t₃, t₂ = comment ++ t₃ ∧ Optional flags 4 ZeroTerminated comment ∧
          ∃ hcrc t₄, t₃ = hcrc ++ t₄ ∧
            Optional flags 1 (Hcrc (before ++ extra ++ name ++ comment)) hcrc ∧
            n = (before ++ extra ++ name ++ comment ++ hcrc).length ∧ 8 ≤ t₄.length := by
      apply skips_bind (skipExtra_skips (by omega))
      rintro extra t₁ rfl hextra
      rw [← List.append_assoc]
      apply skips_bind (skipField_skips 3)
      rintro name t₂ rfl hname
      rw [← List.append_assoc]
      apply skips_bind (skipField_skips 4)
      rintro comment t₃ rfl hcomment
      rw [← List.append_assoc]
      apply skips_bind skipHcrc_skips
      rintro hcrc t₄ rfl hhcrc
      rw [← List.append_assoc]
      generalize before ++ extra ++ name ++ comment ++ hcrc = header
      rw [List.length_append]
      by_cases hroom : header.length + t₄.length < header.length + 8
      · refine ⟨none, if_pos hroom, fun n => ⟨nofun, fun h => by omega⟩⟩
      · refine ⟨some header.length, if_neg hroom, fun n => ?_⟩
        rw [Option.some.injEq]
        exact ⟨fun h => ⟨h.symm, by omega⟩, fun h => h.1.symm⟩
    obtain ⟨r, hrun, hr⟩ := hchain
    refine ⟨r, hrun, fun n => (hr n).trans ?_⟩
    subst hbefore
    constructor
    · rintro ⟨extra, t₁, rfl, hextra, name, t₂, rfl, hname, comment, t₃, rfl, hcomment, hcrc, t₄,
        rfl, hhcrc, hn, hroom⟩
      refine ⟨_, t₄, ?_, ⟨flags, fixed, extra, name, comment, hcrc, rfl, hflags, hfixed, hextra,
        hname, hcomment, hhcrc⟩, hn, hroom⟩
      simp
    · rintro ⟨_, t₄, heq, ⟨flags', fixed', extra, name, comment, hcrc, rfl, hflags', hfixed',
        hextra, hname, hcomment, hhcrc⟩, hn, hroom⟩
      have heq' : ([0x1f, 0x8b, 8, flags] ++ fixed) ++ tail = ([0x1f, 0x8b, 8, flags'] ++ fixed')
          ++ (extra ++ (name ++ (comment ++ (hcrc ++ t₄)))) := by
        rw [heq]
        simp
      obtain ⟨hfirst, rfl⟩ := List.append_inj heq' (by simp [hfixed, hfixed'])
      obtain ⟨hflag', rfl⟩ := List.append_inj hfirst rfl
      obtain rfl : flags = flags' := by simpa using hflag'
      exact ⟨extra, _, rfl, hextra, name, _, rfl, hname, comment, _, rfl, hcomment, hcrc, t₄, rfl,
        hhcrc, hn, hroom⟩

/-! ## The whole image -/

theorem number_append (xs ys : List UInt8) :
    Rfc1952.number (xs ++ ys) =
      Rfc1952.number xs + 2 ^ (8 * xs.length) * Rfc1952.number ys := by
  rw [Rfc1952.number, ofBytes_append, toNat_append, length_ofBytes]
  rfl

theorem getUnalignedLe32_append (before field tail : List UInt8) (hfield : field.length = 4) :
    getUnalignedLe32 (before ++ (field ++ tail)) before.length = .ok (Rfc1952.number field) := by
  match field, hfield with
  | [a, b, c, d], _ =>
      have hlow := getUnalignedLe16_append before a b (c :: d :: tail)
      have hhigh := getUnalignedLe16_append (before ++ [a, b]) c d tail
      have hsplit : before ++ [a, b] ++ c :: d :: tail = before ++ ([a, b, c, d] ++ tail) := by
        simp
      have hlen : (before ++ [a, b]).length = before.length + 2 := by simp
      have hsum := number_append [a, b] [c, d]
      rw [hsplit, hlen] at hhigh
      rw [getUnalignedLe32]
      show (getUnalignedLe16 (before ++ a :: b :: c :: d :: tail) before.length >>= _) = _
      rw [hlow, ok_bind]
      show (getUnalignedLe16 (before ++ ([a, b, c, d] ++ tail)) (before.length + 2) >>= _) = _
      rw [hhigh, ok_bind]
      exact congrArg Except.ok hsum.symm

variable {body crc isize : List UInt8} {cap : ℕ}

theorem skipHeader_of_framed (h : Framed source body crc isize) :
    ∃ n, skipHeader source = .ok (some n) ∧
      (source.drop n).take (source.length - n - 8) = body ∧
      getUnalignedLe32 source (source.length - 8) = .ok (Rfc1952.number crc) ∧
      getUnalignedLe32 source (source.length - 4) = .ok (Rfc1952.number isize) := by
  obtain ⟨header, hheader, rfl, hcrc, hisize⟩ := h
  obtain ⟨r, hrun, hr⟩ := skipHeader_spec (header ++ (body ++ (crc ++ isize)))
  have hroom : 8 ≤ (body ++ (crc ++ isize)).length := by simp [hcrc, hisize]
  obtain rfl := (hr header.length).2 ⟨header, _, rfl, hheader, rfl, hroom⟩
  have hlen : (header ++ (body ++ (crc ++ isize))).length =
      header.length + (body.length + 8) := by simp [hcrc, hisize]
  refine ⟨header.length, hrun, ?_, ?_, ?_⟩
  · rw [hlen, List.drop_left]
    have hbody : header.length + (body.length + 8) - header.length - 8 = body.length := by omega
    rw [hbody, List.take_left]
  · have hbefore : header.length + (body.length + 8) - 8 = (header ++ body).length := by
      rw [List.length_append]
      omega
    rw [hlen, hbefore, ← List.append_assoc]
    exact getUnalignedLe32_append _ crc isize hcrc
  · have hbefore : header.length + (body.length + 8) - 4 = (header ++ body ++ crc).length := by
      rw [List.length_append, List.length_append]
      omega
    have hsplit : header ++ (body ++ (crc ++ isize)) = header ++ body ++ crc ++ (isize ++ []) := by
      simp
    rw [hlen, hbefore, hsplit]
    exact getUnalignedLe32_append _ isize [] hisize

theorem decompressGzip_refused (h : skipHeader source = .ok none) (dest_len : ℕ) :
    decompressGzip cap dest_len source = .ok ⟨-EINVAL, dest_len, []⟩ := by
  rw [decompressGzip, h]
  rfl

/-- Behind the header all is left to `deflate_buffer` and to the check. -/
theorem decompressGzip_framed (h : Framed source body crc isize) (dest_len : ℕ) :
    decompressGzip cap dest_len source = (deflateBuffer cap dest_len body >>= fun inflated =>
      if inflated.error ≠ .NONE then
        .ok ⟨-EINVAL, inflated.dest_len, inflated.d.dest⟩
      else updateCrc32 inflated.d.dest inflated.dest_len >>= fun check =>
        if check.toNat ≠ Rfc1952.number crc then
          .ok ⟨-EINVAL, inflated.dest_len, inflated.d.dest⟩
        else .ok ⟨SUCCESS, inflated.dest_len, inflated.d.dest⟩) := by
  obtain ⟨n, hskip, hbody, hcrc, -⟩ := skipHeader_of_framed h
  rw [decompressGzip, hskip]
  show (deflateBuffer cap dest_len ((source.drop n).take (source.length - n - 8)) >>= _) = _
  rw [hbody, hcrc]
  rfl

/-- What `decompress_gzip` does with what `deflate_buffer` leaves behind. -/
def checkTrailer (source : List UInt8) (inflated : Inflated) : Except Fault Decompressed := do
  if inflated.error ≠ .NONE then
    return ⟨-EINVAL, inflated.dest_len, inflated.d.dest⟩
  else if (← updateCrc32 inflated.d.dest inflated.dest_len).toNat ≠
      (← getUnalignedLe32 source (source.length - 8)) then
    return ⟨-EINVAL, inflated.dest_len, inflated.d.dest⟩
  else
    return ⟨SUCCESS, inflated.dest_len, inflated.d.dest⟩

/-- The bytes between a header and the last eight bytes are handed to `deflate_buffer`. -/
structure HandsOver (cap dest_len : ℕ) (source header body trailer : List UInt8) : Prop where
  split : source = header ++ (body ++ trailer)
  isHeader : Header header
  length_trailer : trailer.length = 8
  hcrc : (source.getD 3 0).toNat.testBit 1 = true →
    ∃ before field, header = before ++ field ∧ Hcrc before field
  start : skipHeader source = .ok (some header.length)
  run : decompressGzip cap dest_len source = deflateBuffer cap dest_len body >>= checkTrailer source

/-- The header is refused, where there is none with room for a trailer behind it. -/
structure Refuses (cap dest_len : ℕ) (source : List UInt8) : Prop where
  none : skipHeader source = .ok none
  run : decompressGzip cap dest_len source = .ok ⟨-EINVAL, dest_len, []⟩
  short : ∀ header tail, source = header ++ tail → Header header → tail.length < 8

theorem hcrc_of_header {header : List UInt8} (h : Header header) (tail : List UInt8)
    (hflag : ((header ++ tail).getD 3 0).toNat.testBit 1 = true) :
    ∃ before field, header = before ++ field ∧ Hcrc before field := by
  obtain ⟨flags, fixed, extra, name, comment, hcrc, rfl, -, -, -, -, -, hcheck⟩ := h
  have hset : flags.toNat.testBit 1 = true := by simpa using hflag
  rw [optional_of_set hset] at hcheck
  exact ⟨_, hcrc, rfl, hcheck⟩

/-- No byte outside the source is read, and what stands behind the header and before the
trailer is handed over as it is. -/
theorem decompressGzip_refuses_or_handsOver (cap dest_len : ℕ) (source : List UInt8) :
    Refuses cap dest_len source ∨
      ∃ header body trailer, HandsOver cap dest_len source header body trailer := by
  obtain ⟨r, hrun, hr⟩ := skipHeader_spec source
  cases r with
  | none =>
      left
      refine ⟨hrun, decompressGzip_refused hrun dest_len, fun header tail hsplit hheader => ?_⟩
      by_contra hroom
      exact absurd ((hr header.length).mpr ⟨header, tail, hsplit, hheader, rfl, not_lt.mp hroom⟩)
        nofun
  | some n =>
      right
      obtain ⟨header, tail, rfl, hheader, rfl, hroom⟩ := (hr n).mp rfl
      have hlen : (header ++ tail).length - header.length - 8 = tail.length - 8 := by
        rw [List.length_append, Nat.add_sub_cancel_left]
      refine ⟨header, tail.take (tail.length - 8), tail.drop (tail.length - 8), ?_, hheader, ?_,
        hcrc_of_header hheader tail, hrun, ?_⟩
      · rw [List.take_append_drop]
      · rw [List.length_drop]
        omega
      · rw [decompressGzip, hrun, ok_bind]
        dsimp only
        rw [List.drop_left, hlen]
        rfl

theorem decompressGzip_ok {r : Reading} (h : Framed source body crc isize)
    (hread : read body = .ok () r) (hcap : r.out.length ≤ cap) (dest_len : ℕ) :
    decompressGzip cap dest_len source = .ok
      ⟨if (crc32 r.out).toNat = Rfc1952.number crc then SUCCESS else -EINVAL, r.out.length,
        r.out⟩ := by
  obtain ⟨d, hrun, hdest, -⟩ := deflateBuffer_ok hread hcap dest_len
  have hcheck : updateCrc32 d.dest r.out.length = .ok (crc32 r.out) := by
    rw [hdest, updateCrc32_eq le_rfl, List.take_length]
  rw [decompressGzip_framed h, hrun, ok_bind, if_neg (by simp)]
  dsimp only
  rw [hcheck, ok_bind, hdest]
  by_cases heq : (crc32 r.out).toNat = Rfc1952.number crc
  · rw [if_neg (by simpa using heq), if_pos heq]
  · rw [if_pos heq, if_neg heq]

theorem ukernelSize_framed (h : Framed source body crc isize) :
    ukernelSize source = .ok (roundUp (Rfc1952.number isize)) := by
  obtain ⟨n, -, -, -, hisize⟩ := skipHeader_of_framed h
  rw [ukernelSize, hisize]
  rfl

/-! ## Every member -/

theorem roundUp_eq {x : ℕ} (h : x + (MIN_KERNEL_ALIGN - 1) < 2 ^ 32) :
    roundUp x = 2 ^ 21 * ((x + (MIN_KERNEL_ALIGN - 1)) / 2 ^ 21) := by
  rw [roundUp, Nat.mod_eq_of_lt h]
  generalize x + (MIN_KERNEL_ALIGN - 1) = a at h
  have hmask : 2 ^ 32 - 1 - (MIN_KERNEL_ALIGN - 1) = 2 ^ 32 - (2 ^ 21 - 1 + 1) := rfl
  apply Nat.eq_of_testBit_eq
  intro i
  rw [Nat.testBit_and, hmask, Nat.testBit_two_pow_sub_succ (by decide),
    Nat.testBit_two_pow_sub_one, Nat.testBit_two_pow_mul, Nat.testBit_div_two_pow]
  by_cases hi : 21 ≤ i
  · by_cases hlt : i < 32
    · simp [hi, hlt, Nat.sub_add_cancel hi]
    · have hbit : a.testBit i = false :=
        Nat.testBit_lt_two_pow (h.trans_le (Nat.pow_le_pow_right (by decide) (not_lt.mp hlt)))
      simp [hbit, Nat.sub_add_cancel hi]
  · simp [hi, not_le.mp hi]

theorem le_roundUp {x : ℕ} (h : x + (MIN_KERNEL_ALIGN - 1) < 2 ^ 32) : x ≤ roundUp x := by
  have hdiv := Nat.div_add_mod (x + (MIN_KERNEL_ALIGN - 1)) (2 ^ 21)
  have hmod := Nat.mod_lt (x + (MIN_KERNEL_ALIGN - 1)) (Nat.two_pow_pos 21)
  rw [roundUp_eq h]
  rw [MIN_KERNEL_ALIGN] at hdiv hmod ⊢
  omega

/-- A member whose data has room is decompressed into its data. -/
theorem decompressGzip_of_member {source data : List UInt8} (h : Member source data)
    {cap : ℕ} (hcap : data.length ≤ cap) (dest_len : ℕ) :
    decompressGzip cap dest_len source = .ok ⟨SUCCESS, data.length, data⟩ := by
  obtain ⟨body, crc, isize, hframed, ⟨rest, hstream, -⟩, hcrc, -⟩ := h
  have hread : read body = .ok () ⟨rest, data, []⟩ := read_eq_ok_iff.2 hstream
  rw [decompressGzip_ok hframed hread hcap, if_pos hcrc.symm]

/-- The size that a member asks for has room for its data. -/
theorem ukernelSize_of_member {source data : List UInt8} (h : Member source data)
    (hfits : data.length + (MIN_KERNEL_ALIGN - 1) < 2 ^ 32) :
    ukernelSize source = .ok (roundUp data.length) := by
  obtain ⟨body, crc, isize, hframed, -, -, hisize⟩ := h
  have hlen : data.length < 2 ^ 32 := by omega
  rw [ukernelSize_framed hframed, hisize, Nat.mod_eq_of_lt hlen]

/-- Every member whose data fits into 32 bits when its length is rounded up is decompressed
into the size it asks for, and nothing but its data is stored. -/
theorem decompressGzip_member {source data : List UInt8} (h : Member source data)
    (hfits : data.length + (MIN_KERNEL_ALIGN - 1) < 2 ^ 32) :
    ∃ cap, ukernelSize source = .ok cap ∧ MIN_KERNEL_ALIGN ∣ cap ∧
      decompressGzip cap cap source = .ok ⟨SUCCESS, data.length, data⟩ := by
  refine ⟨roundUp data.length, ukernelSize_of_member h hfits, ?_,
    decompressGzip_of_member h (le_roundUp hfits) _⟩
  rw [roundUp_eq hfits]
  exact Nat.dvd_mul_right _ _

/-- One byte in a stored block. -/
def storedByte : List UInt8 :=
  [0x1f, 0x8b, 8, 0, 0, 0, 0, 0, 0, 3] ++
    ([1, 1, 0, 0xfe, 0xff, 0x41] ++ ([0x8b, 0x9e, 0xd9, 0xd3] ++ [1, 0, 0, 0]))

theorem member_storedByte : Member storedByte [0x41] := by
  have hheader : Header [0x1f, 0x8b, 8, 0, 0, 0, 0, 0, 0, 3] :=
    ⟨0, [0, 0, 0, 0, 0, 3], [], [], [], [], rfl, by decide, rfl, rfl, rfl, rfl, rfl⟩
  have hread : read [1, 1, 0, 0xfe, 0xff, 0x41] = .ok () ⟨[], [0x41], []⟩ := by decide +kernel
  exact ⟨_, _, _, ⟨_, hheader, rfl, rfl, rfl⟩, ⟨[], read_eq_ok_iff.1 hread, by decide⟩,
    by decide +kernel, by decide +kernel⟩

theorem decompressGzip_member_storedByte :
    ∃ cap, ukernelSize storedByte = .ok cap ∧ MIN_KERNEL_ALIGN ∣ cap ∧
      decompressGzip cap cap storedByte = .ok ⟨SUCCESS, 1, [0x41]⟩ :=
  decompressGzip_member member_storedByte (by decide)

/-! ## The destination -/

/-- The image is decompressed into the size it asks for without storing a byte past it. -/
def StaysInside (source : List UInt8) : Prop :=
  ∀ cap, ukernelSize source = .ok cap → decompressGzip cap cap source ≠ .error .overflow

section Overflow

variable {data : List UInt8}

end Overflow

end Cyanea.Boot
