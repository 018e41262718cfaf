/-
# What an integer directive prints

A length modifier names the type that the argument is converted to before it is printed.
`ap_format_int` converts to the type's unsigned counterpart for the two narrow types, signed
or not, so that a negative `signed char` or `short` comes out as a positive number.
-/

import Cyanea.IoBuffer.Directives
import Cyanea.IoBuffer.Fields

namespace Cyanea.IoBuffer

/-! ## What is asked for -/

/-- The number that the argument passes, as it is promoted. -/
def Arg.number : Arg → ℤ
  | .int value => value
  | .long bits | .longLong bits => bits
  | .pointer addr => addr
  | .string _ => 0

/-- The argument is one of its type. -/
def Arg.InRange : Arg → Prop
  | .int value => -2 ^ 31 ≤ value ∧ value < 2 ^ 31
  | .long bits | .longLong bits => bits < 2 ^ 64
  | .pointer addr => addr < 2 ^ 64
  | .string _ => True

/-- The width of the type that the modifier names. -/
def Length.width : Length → ℕ
  | .hh => 8
  | .h => 16
  | .absent => 32
  | .l | .ll => 64

def IntegerType.Signed (type : IntegerType) : Prop := type = .d ∨ type = .i

instance (type : IntegerType) : Decidable type.Signed := inferInstanceAs (Decidable (_ ∨ _))

/-- The argument, converted to the type of the directive. -/
def typed (type : IntegerType) (length : Length) (arg : Arg) : ℤ :=
  if type.Signed then arg.number.bmod (2 ^ length.width) else arg.number % 2 ^ length.width

/-- The sign bit of a narrow type is set. -/
def NarrowNegative (length : Length) (arg : Arg) : Prop :=
  (length = .hh ∨ length = .h) ∧ 2 ^ (length.width - 1) ≤ arg.number % 2 ^ length.width

/-- Everything that a format writes; `none` if it is not read to its end or a write goes
astray. -/
def printed (format : List UInt8) (ap : List Arg) : Option (List UInt8) := do
  let (_, calls, _) ← iobVsnprintf format ap
  let writes ← calls.mapM Call.writes
  return writes.flatten.flatten

/-! ## Flags -/

theorem has_FL_SIGNED (flags : ℕ) : Has flags FL_SIGNED ↔ flags.testBit 5 = true := by
  rw [Has, FL_SIGNED, Nat.one_shiftLeft, Nat.and_two_pow]
  cases flags.testBit 5 <;> simp

/-- The flags of a directive do not say that it is signed. -/
theorem Directive.bits_unsigned (d : Directive) : d.bits.testBit 5 = false := by
  have hflag : ∀ flag : Flag, flag.bit.testBit 5 = false := by
    intro flag
    cases flag <;> decide
  have hfold : ∀ (flags : List Flag) (n : ℕ), n.testBit 5 = false →
      (flags.foldl (fun flags flag => flags ||| flag.bit) n).testBit 5 = false := by
    intro flags
    induction flags with
    | nil => exact fun _ hn => hn
    | cons flag flags ih =>
        intro n hn
        exact ih (n ||| flag.bit) (by rw [Nat.testBit_or, hn, hflag]; rfl)
  have hwidth : d.width.flags.testBit 5 = false := by
    cases d.width with
    | absent => rfl
    | number first ds hfirst fits => exact Nat.zero_testBit 5
    | star value fits =>
        rw [Width.flags]
        split <;> decide
  rw [Directive.bits, Nat.testBit_or, hfold _ 0 rfl, hwidth]
  rfl

theorem Directive.has_signed (d : Directive) (type : IntegerType) :
    Has (d.bits ||| type.flags) FL_SIGNED ↔ type.Signed := by
  rw [has_FL_SIGNED, Nat.testBit_or, d.bits_unsigned, Bool.false_or]
  cases type <;> decide

/-! ## Values -/

theorem apValue_lt {flags : ℕ} {rank : ℤ} {arg : Arg} {value : ℕ} (hrange : arg.InRange)
    (h : apValue flags rank arg = some value) : value < 2 ^ 64 := by
  cases arg with
  | int v =>
      simp only [apValue] at h
      split_ifs at h <;> cases h <;> omega
  | long bits =>
      simp only [apValue] at h
      split_ifs at h
      cases h
      exact hrange
  | longLong bits =>
      simp only [apValue] at h
      split_ifs at h
      cases h
      exact hrange
  | pointer addr => cases h
  | string str => cases h

section Value

variable {flags : ℕ} {type : IntegerType}

theorem apValue_int (flags : ℕ) (length : Length) (v : ℤ) :
    apValue flags length.rank (.int v) =
      match length with
      | .hh => some (v % 2 ^ 8).toNat
      | .h => some (v % 2 ^ 16).toNat
      | .absent =>
          some (if Has flags FL_SIGNED then (v % 2 ^ 64).toNat else (v % 2 ^ 32).toNat)
      | .l | .ll => none := by
  cases length <;> rfl

/-- A narrow argument is printed as if its type were unsigned. -/
theorem numberOf_narrow (flags : ℕ) {k : ℕ} (hk : 0 < k) (hle : k ≤ 16) (v : ℤ) :
    numberOf flags (v % 2 ^ k).toNat = v % 2 ^ k ∧
      (v.bmod (2 ^ k) = v % 2 ^ k ↔ v % 2 ^ k < 2 ^ (k - 1)) ∧
      (2 ^ (k - 1) ≤ v % 2 ^ k → v.bmod (2 ^ k) < 0) := by
  obtain ⟨j, rfl⟩ : ∃ j, k = j + 1 := ⟨k - 1, by omega⟩
  have hpos : (0 : ℤ) < 2 ^ (j + 1) := by positivity
  have hnonneg := Int.emod_nonneg v hpos.ne'
  have hlt := Int.emod_lt_of_pos v hpos
  have hsmall : (2 : ℤ) ^ (j + 1) ≤ 2 ^ 16 := pow_le_pow_right₀ (by decide) hle
  have hhalf : ((2 ^ (j + 1) : ℕ) : ℤ) = 2 * 2 ^ j := by
    push_cast
    ring
  have hdouble : (2 : ℤ) ^ (j + 1) = 2 * 2 ^ j := by ring
  refine ⟨?_, ?_, ?_⟩
  · rw [numberOf, if_neg (by omega), Int.toNat_of_nonneg hnonneg]
  · rw [Int.bmod_def, hhalf, ← hdouble, Nat.add_sub_cancel]
    split <;> omega
  · rw [Int.bmod_def, hhalf, ← hdouble, Nat.add_sub_cancel]
    split <;> omega

theorem numberOf_signed (hsigned : Has flags FL_SIGNED) (value : ℕ) :
    numberOf flags value = if 2 ^ 63 ≤ value then (value : ℤ) - 2 ^ 64 else (value : ℤ) :=
  if_congr (and_iff_right hsigned) rfl rfl

theorem numberOf_int (hsigned : Has flags FL_SIGNED) {v : ℤ} (hrange : -2 ^ 31 ≤ v ∧ v < 2 ^ 31) :
    numberOf flags (v % 2 ^ 64).toNat = v.bmod (2 ^ 32) := by
  rw [numberOf_signed hsigned, Int.bmod_def]
  split <;> split <;> omega

theorem numberOf_long (hsigned : Has flags FL_SIGNED) {bits : ℕ} (hbits : bits < 2 ^ 64) :
    numberOf flags bits = (bits : ℤ).bmod (2 ^ 64) := by
  rw [numberOf_signed hsigned, Int.bmod_def]
  split <;> split <;> omega

theorem numberOf_unsigned (hsigned : ¬ Has flags FL_SIGNED) (value : ℕ) :
    numberOf flags value = value :=
  if_neg fun h => hsigned h.1

/-- The number that is printed is the one that is asked for, except that a negative number of
a narrow type is printed as a positive one. -/
theorem numberOf_apValue {length : Length} {arg : Arg}
    (hsigned : Has flags FL_SIGNED ↔ type.Signed) (hmatches : length.Matches arg)
    (hrange : arg.InRange) {value : ℕ} (h : apValue flags length.rank arg = some value) :
    (¬ (type.Signed ∧ NarrowNegative length arg) → numberOf flags value = typed type length arg) ∧
      (type.Signed ∧ NarrowNegative length arg →
        0 ≤ numberOf flags value ∧ typed type length arg < 0) := by
  have hnarrow : ∀ {k : ℕ} {v : ℤ}, 0 < k → k ≤ 16 → length.width = k →
      (length = .hh ∨ length = .h) → arg = .int v → value = (v % 2 ^ k).toNat →
      (¬ (type.Signed ∧ NarrowNegative length arg) →
          numberOf flags value = typed type length arg) ∧
        (type.Signed ∧ NarrowNegative length arg →
          0 ≤ numberOf flags value ∧ typed type length arg < 0) := by
    intro k v hk hle hwidth hlength harg hvalue
    obtain ⟨hnumber, hsame, hneg⟩ := numberOf_narrow flags hk hle v
    have hnonneg := Int.emod_nonneg v (show (2 : ℤ) ^ k ≠ 0 by positivity)
    rw [hvalue, hnumber, NarrowNegative, typed, hwidth, harg, Arg.number, and_iff_right hlength]
    by_cases htype : type.Signed
    · rw [if_pos htype, and_iff_right htype]
      exact ⟨fun hnot => (hsame.mpr (Int.not_le.mp hnot)).symm,
        fun hsign => ⟨hnonneg, hneg hsign⟩⟩
    · rw [if_neg htype]
      exact ⟨fun _ => rfl, fun hsign => absurd hsign.1 htype⟩
  have hwide : length ≠ .hh → length ≠ .h → numberOf flags value = typed type length arg →
      (¬ (type.Signed ∧ NarrowNegative length arg) →
          numberOf flags value = typed type length arg) ∧
        (type.Signed ∧ NarrowNegative length arg →
          0 ≤ numberOf flags value ∧ typed type length arg < 0) := by
    intro hhh hh heq
    exact ⟨fun _ => heq, fun hsign => absurd hsign.2.1 (by tauto)⟩
  cases length <;> cases arg <;> try exact hmatches.elim
  · -- `int`
    rename_i v
    rw [apValue_int] at h
    refine hwide nofun nofun ?_
    rw [typed]
    by_cases htype : type.Signed
    · have hflag := hsigned.mpr htype
      rw [if_pos htype, Arg.number, ← Option.some.inj h, if_pos hflag, numberOf_int hflag hrange]
      rfl
    · have hflag := mt hsigned.mp htype
      rw [if_neg htype, Arg.number, ← Option.some.inj h, if_neg hflag, numberOf_unsigned hflag,
        Int.toNat_of_nonneg (Int.emod_nonneg _ (by decide))]
      rfl
  · rename_i v
    rw [apValue_int] at h
    exact hnarrow (by decide) (by decide) rfl (.inl rfl) rfl (Option.some.inj h).symm
  · rename_i v
    rw [apValue_int] at h
    exact hnarrow (by decide) (by decide) rfl (.inr rfl) rfl (Option.some.inj h).symm
  all_goals
    rename_i bits
    obtain rfl : bits = value := Option.some.inj h
    refine hwide nofun nofun ?_
    rw [typed]
    by_cases htype : type.Signed
    · rw [if_pos htype, numberOf_long (hsigned.mpr htype) hrange]
      rfl
    · rw [if_neg htype, numberOf_unsigned (mt hsigned.mp htype)]
      exact (Int.emod_eq_of_lt (Int.natCast_nonneg _) (by exact_mod_cast hrange)).symm

end Value

/-! ## What is printed -/

theorem IntegerType.base_range (type : IntegerType) : 1 < type.base ∧ type.base ≤ 16 := by
  cases type <;> decide

/-- What the directive asks for. -/
def Directive.field (d : Directive) (type : IntegerType) (n : ℤ) : List UInt8 :=
  fieldText n (d.bits ||| type.flags) type.base d.width.value d.precision.value

theorem iobVsnprintf_directive (d : Directive) :
    iobVsnprintf (code '%' :: d.text) d.args = some (SUCCESS, [d.call], []) := by
  obtain ⟨next, hscan, hap, hcalls⟩ := scan_pieces [.directive d]
    (s := ⟨.ST_NORMAL, 0, 0, 0, 0, d.args, []⟩) rfl
    (show d.args = [Piece.directive d].flatMap Piece.args ++ [] by simp [Piece.args])
  rw [List.flatMap_singleton] at hscan
  rw [iobVsnprintf, show code '%' :: d.text = (Piece.directive d).text from rfl, hscan]
  simp only [hap, hcalls]
  rfl

theorem printed_directive {d : Directive} {type : IntegerType} {arg : Arg} {value : ℕ}
    (hconversion : d.conversion = .integer type arg) (hrange : arg.InRange)
    (hvalue : apValue (d.bits ||| type.flags) d.length.rank arg = some value) :
    printed (code '%' :: d.text) d.args = if d.precision.value ≤ 64 then
      some (d.field type (numberOf (d.bits ||| type.flags) value)) else none := by
  have hformat := @formatInt_eq value (d.bits ||| type.flags) type.base d.width.value
    d.precision.value (apValue_lt hrange hvalue) type.base_range.1
  have hcall : d.call.writes = formatInt value (d.bits ||| type.flags) type.base d.width.value
      d.precision.value := by
    rw [Directive.call, hconversion, Conversion.call, Call.writes, apFormatInt, hvalue]
    rfl
  rw [printed, iobVsnprintf_directive]
  simp only [Option.bind_eq_bind, Option.bind_some, List.mapM_cons, List.mapM_nil, hcall]
  rw [Directive.field, ← hformat]
  cases formatInt value (d.bits ||| type.flags) type.base d.width.value d.precision.value with
  | none => rfl
  | some strs => simp

/-- A directive prints its argument as a number of the type that it names, if `t_str` is long
enough, and the argument is not a negative one of a narrow type. -/
theorem printed_typed_iff {d : Directive} {type : IntegerType} {arg : Arg}
    (hconversion : d.conversion = .integer type arg) (hrange : arg.InRange) :
    printed (code '%' :: d.text) d.args = some (d.field type (typed type d.length arg)) ↔
      d.precision.value ≤ 64 ∧ ¬ (type.Signed ∧ NarrowNegative d.length arg) := by
  have hmatches := d.fits type arg hconversion
  obtain ⟨value, hvalue⟩ := Option.isSome_iff_exists.mp
    (Length.isSome_apValue hmatches (d.bits ||| type.flags))
  obtain ⟨hsame, hother⟩ := numberOf_apValue (d.has_signed type) hmatches hrange hvalue
  rw [printed_directive hconversion hrange hvalue]
  by_cases hprecision : d.precision.value ≤ 64
  · rw [if_pos hprecision, and_iff_right hprecision]
    constructor
    · intro heq hnarrow
      obtain ⟨hpos, hneg⟩ := hother hnarrow
      have hminus := (minus_mem_fieldText type.base_range (typed type d.length arg)
        (d.bits ||| type.flags) d.width.value d.precision.value).mpr hneg
      have htext : d.field type (typed type d.length arg) = _ := (Option.some.inj heq).symm
      rw [← Directive.field, htext, Directive.field, minus_mem_fieldText type.base_range] at hminus
      exact absurd hminus (Int.not_lt.mpr hpos)
    · intro hnarrow
      rw [hsame hnarrow]
  · rw [if_neg hprecision]
    exact iff_of_false nofun fun h => hprecision h.1

/-- `%hhd`. -/
def charDirective (value : ℤ) : Directive where
  flags := []
  width := .absent
  precision := .absent
  length := .hh
  conversion := .integer .d (.int value)
  fits _ _ h := by
    obtain ⟨-, rfl⟩ := Conversion.integer.inj h
    trivial

theorem printed_typed_five :
    printed (code '%' :: (charDirective 5).text) (charDirective 5).args =
        some ((charDirective 5).field .d (typed .d (charDirective 5).length (.int 5))) ↔
      (charDirective 5).precision.value ≤ 64 ∧
        ¬ (IntegerType.d.Signed ∧ NarrowNegative (charDirective 5).length (.int 5)) :=
  printed_typed_iff rfl (show (Arg.int 5).InRange from ⟨by decide, by decide⟩)

/-- `%hhd` prints -1 as 255. -/
theorem not_printed_typed_minus :
    printed (code '%' :: (charDirective (-1)).text) (charDirective (-1)).args =
        some ("255".toList.map code) ∧
      printed (code '%' :: (charDirective (-1)).text) (charDirective (-1)).args ≠
        some ((charDirective (-1)).field .d (typed .d (charDirective (-1)).length (.int (-1)))) := by
  have hrange : (Arg.int (-1)).InRange := ⟨by decide, by decide⟩
  have hvalue : apValue ((charDirective (-1)).bits ||| IntegerType.d.flags) Length.hh.rank
      (.int (-1)) = some 255 := rfl
  rw [printed_directive rfl hrange hvalue]
  decide

end Cyanea.IoBuffer
