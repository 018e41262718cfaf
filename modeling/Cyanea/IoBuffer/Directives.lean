/-
# The scanner follows the grammar

A format is a list of pieces: characters, `%%`, and directives that come with the arguments
they take. `Directive.call` is the call that the grammar assigns to a directive. The scanner
makes these calls in their order, and takes each argument once.
-/

import Cyanea.IoBuffer.Vsnprintf

namespace Cyanea.IoBuffer

/-! ## The grammar -/

inductive Flag
  | minus
  | plus
  | space
  | hash
  | zero
  deriving DecidableEq, Repr

def Flag.char : Flag → UInt8
  | .minus => code '-'
  | .plus => code '+'
  | .space => code ' '
  | .hash => code '#'
  | .zero => code '0'

def Flag.bit : Flag → ℕ
  | .minus => FL_MINUS
  | .plus => FL_PLUS
  | .space => FL_SPACE
  | .hash => FL_HASH
  | .zero => FL_ZERO

def digitChar (d : Fin 10) : UInt8 := code '0' + UInt8.ofNat d

/-- The number that `ds` continue `n` to. -/
def number (n : ℕ) (ds : List (Fin 10)) : ℕ := ds.foldl (fun n (d : Fin 10) => n * 10 + d) n

/-- A width; one that is a number does not start with the flag `0`. -/
inductive Width
  | absent
  | number (first : Fin 10) (ds : List (Fin 10)) (hfirst : first ≠ 0)
      (fits : number 0 (first :: ds) < 2 ^ 31)
  | star (value : ℤ) (fits : -2 ^ 31 < value ∧ value < 2 ^ 31)

def Width.text : Width → List UInt8
  | .absent => []
  | .number first ds _ _ => (first :: ds).map digitChar
  | .star _ _ => [code '*']

def Width.args : Width → List Arg
  | .star value _ => [.int value]
  | _ => []

/-- A negative argument means its absolute value, and the flag `-`. -/
def Width.value : Width → ℤ
  | .absent => 0
  | .number first ds _ _ => IoBuffer.number 0 (first :: ds)
  | .star value _ => value.natAbs

def Width.flags : Width → ℕ
  | .star value _ => if value < 0 then FL_MINUS else 0
  | _ => 0

inductive Precision
  | absent
  | number (ds : List (Fin 10)) (fits : number 0 ds < 2 ^ 31)
  | star (value : ℤ)

def Precision.text : Precision → List UInt8
  | .absent => []
  | .number ds _ => code '.' :: ds.map digitChar
  | .star _ => [code '.', code '*']

def Precision.args : Precision → List Arg
  | .star value => [.int value]
  | _ => []

/-- A negative argument is as good as none. -/
def Precision.value : Precision → ℤ
  | .absent => -1
  | .number ds _ => IoBuffer.number 0 ds
  | .star value => if value < 0 then -1 else value

inductive Length
  | absent
  | hh
  | h
  | l
  | ll
  deriving DecidableEq, Repr

def Length.text : Length → List UInt8
  | .absent => []
  | .hh => [code 'h', code 'h']
  | .h => [code 'h']
  | .l => [code 'l']
  | .ll => [code 'l', code 'l']

def Length.rank : Length → ℤ
  | .absent => RANK_INT
  | .hh => RANK_CHAR
  | .h => RANK_SHORT
  | .l => RANK_LONG
  | .ll => RANK_LLONG

/-- The type of the argument, after the promotions. -/
def Length.Matches : Length → Arg → Prop
  | .absent, .int _ | .hh, .int _ | .h, .int _ | .l, .long _ | .ll, .longLong _ => True
  | _, _ => False

/-- The integer conversions. -/
inductive IntegerType
  | d
  | i
  | u
  | o
  | x
  | X
  deriving DecidableEq, Repr

def IntegerType.char : IntegerType → UInt8
  | .d => code 'd'
  | .i => code 'i'
  | .u => code 'u'
  | .o => code 'o'
  | .x => code 'x'
  | .X => code 'X'

def IntegerType.base : IntegerType → ℕ
  | .d | .i | .u => 10
  | .o => 8
  | .x | .X => 16

def IntegerType.flags : IntegerType → ℕ
  | .d | .i => FL_SIGNED
  | .X => FL_UPPER
  | .u | .o | .x => 0

/-- What is converted, with its argument. -/
inductive Conversion
  | integer (type : IntegerType) (arg : Arg)
  | p (addr : ℕ)
  | P (addr : ℕ)
  | c (value : ℤ)
  | s (str : Option CString)

def Conversion.char : Conversion → UInt8
  | .integer type _ => type.char
  | .p _ => code 'p'
  | .P _ => code 'P'
  | .c _ => code 'c'
  | .s _ => code 's'

def Conversion.arg : Conversion → Arg
  | .integer _ arg => arg
  | .p addr | .P addr => .pointer addr
  | .c value => .int value
  | .s str => .string str

structure Directive where
  flags : List Flag
  width : Width
  precision : Precision
  length : Length
  conversion : Conversion
  fits : ∀ type arg, conversion = .integer type arg → length.Matches arg

/-- The directive behind its `%`. -/
def Directive.text (d : Directive) : List UInt8 :=
  d.flags.map Flag.char ++ (d.width.text ++
    (d.precision.text ++ (d.length.text ++ [d.conversion.char])))

def Directive.args (d : Directive) : List Arg :=
  d.width.args ++ (d.precision.args ++ [d.conversion.arg])

def Directive.bits (d : Directive) : ℕ :=
  d.flags.foldl (fun flags flag => flags ||| flag.bit) 0 ||| d.width.flags

/-- The call that formats the argument. -/
def Conversion.call (flags : ℕ) (width precision rank : ℤ) : Conversion → Call
  | .integer type arg =>
      .ap_format_int type.base (flags ||| type.flags) width precision rank arg
  | .p addr => .format_int addr (flags ||| FL_HASH) 16 width 2
  | .P addr => .format_int addr (flags ||| FL_UPPER ||| FL_HASH) 16 width 2
  | .c value => .format_str [UInt8.ofNat (value % 2 ^ 8).toNat] 1 flags width precision
  | .s str =>
      .format_str (str.getD null).chars (str.getD null).chars.length flags width precision

def Directive.call (d : Directive) : Call :=
  d.conversion.call d.bits d.width.value d.precision.value d.length.rank

inductive Piece
  | literal (c : UInt8) (hc : c ≠ 0 ∧ c ≠ code '%')
  | percent
  | directive (d : Directive)

def Piece.text : Piece → List UInt8
  | .literal c _ => [c]
  | .percent => [code '%', code '%']
  | .directive d => code '%' :: d.text

def Piece.args : Piece → List Arg
  | .directive d => d.args
  | _ => []

def Piece.call : Piece → Call
  | .literal c _ => .io_buffer_put_char c
  | .percent => .io_buffer_put_char (code '%')
  | .directive d => d.call

/-! ## Turns of the scanner -/

theorem Scanner.scan_more {ch : UInt8} {format : List UInt8} {s s' : Scanner} (hch : ch ≠ 0)
    (h : s.turn ch (format.headD 0) = some (.more s')) :
    Scanner.scan (ch :: format) s = Scanner.scan format s' := by
  rw [scan, if_neg hch, h]

theorem Scanner.scan_skip {ch : UInt8} {format : List UInt8} {s s' : Scanner} (hch : ch ≠ 0)
    (h : s.turn ch (format.headD 0) = some (.skip s')) :
    Scanner.scan (ch :: format) s = Scanner.scan format.tail s' := by
  rw [scan, if_neg hch, h]

/-- Two states that take the same turn are as good as each other. -/
theorem Scanner.scan_congr {ch : UInt8} {format : List UInt8} {s s' : Scanner} (hch : ch ≠ 0)
    (h : s.turn ch (format.headD 0) = s'.turn ch (format.headD 0)) :
    Scanner.scan (ch :: format) s = Scanner.scan (ch :: format) s' := by
  rw [scan, scan, if_neg hch, if_neg hch, h]

theorem Flag.char_ne (flag : Flag) : flag.char ≠ 0 ∧ flag.char ≠ code '%' := by
  cases flag <;> decide

/-- The flags are collected. -/
theorem scan_flags (flags : List Flag) (rest : List UInt8) {s : Scanner}
    (hs : s.state = .ST_FLAGS) :
    Scanner.scan (flags.map Flag.char ++ rest) s = Scanner.scan rest
      { s with flags := flags.foldl (fun flags flag => flags ||| flag.bit) s.flags } := by
  induction flags generalizing s with
  | nil => rfl
  | cons flag flags ih =>
      have hturn : ∀ next, s.turn flag.char next =
          some (.more { s with flags := s.flags ||| flag.bit }) := by
        intro next
        simp only [Scanner.turn, hs]
        cases flag <;> simp +decide [Scanner.flagsChar, Flag.bit, hs]
      rw [List.map_cons, List.cons_append, Scanner.scan_more flag.char_ne.1 (hturn _)]
      exact ih hs

/-! ## Numbers -/

theorem le_number (n : ℕ) (ds : List (Fin 10)) : n ≤ number n ds := by
  induction ds generalizing n with
  | nil => exact Nat.le_refl n
  | cons d ds ih => exact Nat.le_trans (by omega) (ih (n * 10 + d))

theorem digitChar_spec : ∀ d : Fin 10, isdigit (digitChar d) ∧ digit (digitChar d) = (d : ℕ) ∧
    digitChar d ≠ 0 ∧ digitChar d ≠ code '%' := by
  decide

theorem digitChar_first : ∀ d : Fin 10, d ≠ 0 → digitChar d ≠ code '-' ∧
    digitChar d ≠ code '+' ∧ digitChar d ≠ code ' ' ∧ digitChar d ≠ code '#' ∧
    digitChar d ≠ code '0' := by
  decide

/-- A number that is read into a variable, where `set` is the scanner with the variable set
to a value. -/
theorem scan_digits (set : ℤ → Scanner)
    (hturn : ∀ n ch next, isdigit ch → (set n).turn ch next =
      (toInt (n * 10 + digit ch)).map fun m => .more (set m))
    {n : ℕ} {ds : List (Fin 10)} (fits : number n ds < 2 ^ 31) (rest : List UInt8) :
    Scanner.scan (ds.map digitChar ++ rest) (set n) =
      Scanner.scan rest (set (number n ds)) := by
  induction ds generalizing n with
  | nil => rfl
  | cons d ds ih =>
      obtain ⟨hdigit, hvalue, hne, -⟩ := digitChar_spec d
      have hle : n * 10 + (d : ℕ) < 2 ^ 31 := Nat.lt_of_le_of_lt (le_number _ ds) fits
      have hstep : ∀ next, (set n).turn (digitChar d) next =
          some (.more (set ((n * 10 + (d : ℕ) : ℕ) : ℤ))) := by
        intro next
        have hint : (n : ℤ) * 10 + digit (digitChar d) = ((n * 10 + (d : ℕ) : ℕ) : ℤ) := by
          rw [hvalue]
          push_cast
          rfl
        rw [hturn n _ next hdigit, hint, toInt, if_pos (by omega)]
        rfl
      rw [List.map_cons, List.cons_append, Scanner.scan_more hne (hstep _)]
      exact ih fits

theorem widthChar_digit {s : Scanner} {ch : UInt8} (h : isdigit ch) (next : UInt8) :
    s.widthChar ch next =
      (toInt (s.width * 10 + digit ch)).map fun m => .more { s with width := m } := by
  rw [Scanner.widthChar, if_pos h]
  cases toInt (s.width * 10 + digit ch) <;> rfl

theorem precisionChar_digit {s : Scanner} {ch : UInt8} (h : isdigit ch) :
    s.precisionChar ch =
      (toInt (s.precision * 10 + digit ch)).map fun m => .more { s with precision := m } := by
  rw [Scanner.precisionChar, if_pos h]
  cases toInt (s.precision * 10 + digit ch) <;> rfl

/-! ## The parts of a directive -/

/-- A character that only the last part of a directive starts with. -/
structure Plain (ch : UInt8) : Prop where
  ne_nul : ch ≠ 0
  ne_percent : ch ≠ code '%'
  not_digit : ¬ isdigit ch
  ne_star : ch ≠ code '*'
  ne_dot : ch ≠ code '.'
  not_flag : ch ≠ code '-' ∧ ch ≠ code '+' ∧ ch ≠ code ' ' ∧ ch ≠ code '#' ∧ ch ≠ code '0'

instance (ch : UInt8) : Decidable (Plain ch) :=
  decidable_of_iff (ch ≠ 0 ∧ ch ≠ code '%' ∧ ¬ isdigit ch ∧ ch ≠ code '*' ∧ ch ≠ code '.' ∧
      (ch ≠ code '-' ∧ ch ≠ code '+' ∧ ch ≠ code ' ' ∧ ch ≠ code '#' ∧ ch ≠ code '0'))
    ⟨fun ⟨h₁, h₂, h₃, h₄, h₅, h₆⟩ => ⟨h₁, h₂, h₃, h₄, h₅, h₆⟩,
      fun h => ⟨h.ne_nul, h.ne_percent, h.not_digit, h.ne_star, h.ne_dot, h.not_flag⟩⟩

/-- Such a character is met as one of the modifiers, wherever the scanner is in a
directive. -/
theorem scan_plain {ch : UInt8} (hch : Plain ch) (format : List UInt8) {s : Scanner}
    (hs : s.state ≠ .ST_NORMAL) :
    Scanner.scan (ch :: format) s =
      Scanner.scan (ch :: format) { s with state := .ST_MODIFIERS } := by
  obtain ⟨h₁, h₂, h₃, h₄, h₅⟩ := hch.not_flag
  apply Scanner.scan_congr hch.ne_nul
  obtain ⟨state, flags, width, precision, rank, ap, calls⟩ := s
  cases state with
  | ST_NORMAL => exact absurd rfl hs
  | ST_FLAGS =>
      simp [Scanner.turn, Scanner.flagsChar, Scanner.widthChar, hch.not_digit, hch.ne_star,
        hch.ne_dot, h₁, h₂, h₃, h₄, h₅]
  | ST_WIDTH => simp [Scanner.turn, Scanner.widthChar, hch.not_digit, hch.ne_star, hch.ne_dot]
  | ST_PRECISION => simp [Scanner.turn, Scanner.precisionChar, hch.not_digit, hch.ne_star]
  | ST_MODIFIERS => rfl

theorem Conversion.plain (conversion : Conversion) : Plain conversion.char := by
  cases conversion with
  | integer type arg =>
      show Plain type.char
      cases type <;> decide
  | p addr => exact (by decide : Plain (code 'p'))
  | P addr => exact (by decide : Plain (code 'P'))
  | c value => exact (by decide : Plain (code 'c'))
  | s str => exact (by decide : Plain (code 's'))

theorem Length.plain (length : Length) (conversion : Conversion) (rest : List UInt8) :
    ∃ ch format, length.text ++ conversion.char :: rest = ch :: format ∧ Plain ch := by
  cases length with
  | absent => exact ⟨_, _, rfl, conversion.plain⟩
  | hh => exact ⟨_, _, rfl, by decide⟩
  | h => exact ⟨_, _, rfl, by decide⟩
  | l => exact ⟨_, _, rfl, by decide⟩
  | ll => exact ⟨_, _, rfl, by decide⟩

theorem Length.isSome_apValue {length : Length} {arg : Arg} (h : length.Matches arg)
    (flags : ℕ) : (apValue flags length.rank arg).isSome := by
  cases length <;> cases arg <;> first | exact h.elim | rfl

/-- The modifiers. -/
theorem scan_length (length : Length) {conversion : Conversion} (rest : List UInt8)
    {s : Scanner} (hs : s.state = .ST_MODIFIERS) (hrank : s.rank = RANK_INT) :
    Scanner.scan (length.text ++ conversion.char :: rest) s =
      Scanner.scan (conversion.char :: rest) { s with rank := length.rank } := by
  obtain ⟨state, flags, width, precision, rank, ap, calls⟩ := s
  obtain rfl : state = .ST_MODIFIERS := hs
  obtain rfl : rank = RANK_INT := hrank
  have hmore : ∀ {ch : UInt8} {rank rank' : ℤ}, ch ≠ 0 →
      Scanner.modifiers ch ⟨.ST_MODIFIERS, flags, width, precision, rank, ap, calls⟩ =
        some (.more ⟨.ST_MODIFIERS, flags, width, precision, rank', ap, calls⟩) →
      ∀ format, Scanner.scan (ch :: format)
          ⟨.ST_MODIFIERS, flags, width, precision, rank, ap, calls⟩ =
        Scanner.scan format ⟨.ST_MODIFIERS, flags, width, precision, rank', ap, calls⟩ :=
    fun hch h format => Scanner.scan_more hch h
  cases length with
  | absent => rfl
  | hh => exact (hmore (by decide) rfl _).trans (hmore (by decide) rfl _)
  | h => exact hmore (by decide) rfl _
  | l => exact hmore (by decide) rfl _
  | ll => exact (hmore (by decide) rfl _).trans (hmore (by decide) rfl _)

theorem modifiers_integer (type : IntegerType) (s : Scanner) :
    s.modifiers type.char = s.integer type.base (s.flags ||| type.flags) := by
  cases type with
  | d => rfl
  | i => rfl
  | X => rfl
  | u =>
      rw [IntegerType.flags, Nat.or_zero]
      rfl
  | o =>
      rw [IntegerType.flags, Nat.or_zero]
      rfl
  | x =>
      rw [IntegerType.flags, Nat.or_zero]
      rfl

/-- The conversion makes its call. -/
theorem scan_conversion {length : Length} {conversion : Conversion}
    (fits : ∀ type arg, conversion = .integer type arg → length.Matches arg)
    (rest : List UInt8) {s : Scanner} (hs : s.state = .ST_MODIFIERS)
    (hrank : s.rank = length.rank) {ap : List Arg} (hap : s.ap = conversion.arg :: ap) :
    Scanner.scan (conversion.char :: rest) s = Scanner.scan rest
      { s with
        state := .ST_NORMAL
        ap
        calls := s.calls ++ [conversion.call s.flags s.width s.precision s.rank] } := by
  obtain ⟨state, flags, width, precision, rank, ap', calls⟩ := s
  obtain rfl : state = .ST_MODIFIERS := hs
  obtain rfl : rank = length.rank := hrank
  obtain rfl : ap' = conversion.arg :: ap := hap
  apply Scanner.scan_more conversion.plain.ne_nul
  show Scanner.modifiers conversion.char _ = _
  cases conversion with
  | integer type arg =>
      have hsome := Length.isSome_apValue (fits type arg rfl) (flags ||| type.flags)
      rw [Conversion.char, modifiers_integer]
      exact if_pos hsome
  | p addr => rfl
  | P addr => rfl
  | c value => rfl
  | s str => rfl

/-- The scanner has come to the end of a directive. -/
def Scanner.done (s : Scanner) (ap : List Arg) (call : Call) (next : Scanner) : Prop :=
  next.state = .ST_NORMAL ∧ next.ap = ap ∧ next.calls = s.calls ++ [call]

/-- The modifiers and the conversion, wherever the scanner is in a directive. -/
theorem scan_tail {length : Length} {conversion : Conversion}
    (fits : ∀ type arg, conversion = .integer type arg → length.Matches arg)
    (rest : List UInt8) {s : Scanner} (hs : s.state ≠ .ST_NORMAL) (hrank : s.rank = RANK_INT)
    {ap : List Arg} (hap : s.ap = conversion.arg :: ap) :
    ∃ next, Scanner.scan (length.text ++ conversion.char :: rest) s =
        Scanner.scan rest next ∧
      s.done ap (conversion.call s.flags s.width s.precision length.rank) next := by
  obtain ⟨ch, format, htext, hplain⟩ := length.plain conversion rest
  have hstart : Scanner.scan (length.text ++ conversion.char :: rest) s =
      Scanner.scan (length.text ++ conversion.char :: rest)
        { s with state := .ST_MODIFIERS } := by
    rw [htext]
    exact scan_plain hplain format hs
  refine ⟨_, (hstart.trans (scan_length length rest rfl hrank)).trans
    (scan_conversion fits rest rfl rfl hap), rfl, rfl, rfl⟩

/-- The precision; it is expected in two of the states. -/
theorem scan_precision (precision : Precision) (tail : List UInt8) {s : Scanner}
    (hs : s.state ≠ .ST_NORMAL)
    (hdot : precision.text ≠ [] → s.state = .ST_FLAGS ∨ s.state = .ST_WIDTH)
    (hprec : s.precision = -1) {ap : List Arg} (hap : s.ap = precision.args ++ ap) :
    ∃ state, state ≠ .ST_NORMAL ∧ Scanner.scan (precision.text ++ tail) s =
      Scanner.scan tail { s with state, precision := precision.value, ap } := by
  obtain ⟨state, flags, width, precision', rank, ap', calls⟩ := s
  obtain rfl : precision' = -1 := hprec
  obtain rfl : ap' = precision.args ++ ap := hap
  have hfirst : ∀ format, precision.text ≠ [] → Scanner.scan (code '.' :: format)
      ⟨state, flags, width, -1, rank, precision.args ++ ap, calls⟩ = Scanner.scan format
        ⟨.ST_PRECISION, flags, width, 0, rank, precision.args ++ ap, calls⟩ := by
    intro format htext
    apply Scanner.scan_more (by decide)
    rcases hdot htext with hstate | hstate
    · obtain rfl : state = .ST_FLAGS := hstate
      rfl
    · obtain rfl : state = .ST_WIDTH := hstate
      rfl
  cases precision with
  | absent => exact ⟨state, hs, rfl⟩
  | number ds fits =>
      refine ⟨.ST_PRECISION, by decide, (hfirst _ nofun).trans ?_⟩
      have hscan : Scanner.scan (ds.map digitChar ++ tail)
          ⟨.ST_PRECISION, flags, width, (0 : ℕ), rank, ap, calls⟩ = _ :=
        scan_digits (fun n => ⟨.ST_PRECISION, flags, width, n, rank, ap, calls⟩)
          (fun n ch next h => precisionChar_digit h) fits tail
      exact hscan
  | star value =>
      refine ⟨.ST_MODIFIERS, by decide, (hfirst _ nofun).trans ?_⟩
      exact Scanner.scan_more (by decide) rfl

theorem widthChar_star (next : UInt8) {value : ℤ} (fits : -2 ^ 31 < value ∧ value < 2 ^ 31)
    (flags : ℕ) (precision rank : ℤ) (ap : List Arg) (calls : List Call) :
    Scanner.widthChar (code '*') next
        ⟨.ST_WIDTH, flags, 0, precision, rank, .int value :: ap, calls⟩ =
      some (.more ⟨if next ≠ code '.' then .ST_MODIFIERS else .ST_WIDTH,
        flags ||| (Width.star value fits).flags, value.natAbs, precision, rank, ap, calls⟩) := by
  have hdigit : ¬ isdigit (code '*') := by decide
  rw [Scanner.widthChar, if_neg hdigit, if_pos ⟨rfl, rfl⟩, Width.flags]
  dsimp only
  by_cases hneg : value < 0
  · rw [if_pos hneg, if_pos hneg, toInt, if_pos (by omega)]
    have habs : (value.natAbs : ℤ) = -value := by omega
    rw [habs]
    rfl
  · rw [if_neg hneg, if_neg hneg, Nat.or_zero]
    have habs : (value.natAbs : ℤ) = value := by omega
    rw [habs]
    rfl

/-- The width. -/
theorem scan_width (width : Width) (tail : List UInt8) {s : Scanner}
    (hs : s.state = .ST_FLAGS) (hwidth : s.width = 0) {ap : List Arg}
    (hap : s.ap = width.args ++ ap) :
    ∃ state, state ≠ .ST_NORMAL ∧
      (tail.headD 0 = code '.' → state = .ST_FLAGS ∨ state = .ST_WIDTH) ∧
      Scanner.scan (width.text ++ tail) s = Scanner.scan tail
        { s with state, flags := s.flags ||| width.flags, width := width.value, ap } := by
  obtain ⟨state, flags, width', precision, rank, ap', calls⟩ := s
  obtain rfl : state = .ST_FLAGS := hs
  obtain rfl : width' = 0 := hwidth
  obtain rfl : ap' = width.args ++ ap := hap
  cases width with
  | absent =>
      refine ⟨.ST_FLAGS, by decide, fun _ => .inl rfl, ?_⟩
      show Scanner.scan tail _ = Scanner.scan tail ⟨_, flags ||| 0, _, _, _, _, _⟩
      rw [Nat.or_zero]
      rfl
  | number first ds hfirst fits =>
      refine ⟨.ST_WIDTH, by decide, fun _ => .inr rfl, ?_⟩
      obtain ⟨h₁, h₂, h₃, h₄, h₅⟩ := digitChar_first first hfirst
      show Scanner.scan _ _ = Scanner.scan tail ⟨_, flags ||| 0, _, _, _, _, _⟩
      rw [Nat.or_zero]
      have hstart : Scanner.scan ((first :: ds).map digitChar ++ tail)
          ⟨.ST_FLAGS, flags, 0, precision, rank, ap, calls⟩ =
          Scanner.scan ((first :: ds).map digitChar ++ tail)
            ⟨.ST_WIDTH, flags, (0 : ℕ), precision, rank, ap, calls⟩ := by
        apply Scanner.scan_congr (digitChar_spec first).2.2.1
        simp only [Scanner.turn, Scanner.flagsChar, h₁, h₂, h₃, h₄, h₅, if_false]
        rfl
      exact hstart.trans (scan_digits
        (fun n => ⟨.ST_WIDTH, flags, n, precision, rank, ap, calls⟩)
        (fun n ch next h => widthChar_digit h next) fits tail)
  | star value fits =>
      have hscan : Scanner.scan (code '*' :: tail)
          ⟨.ST_FLAGS, flags, 0, precision, rank, .int value :: ap, calls⟩ = _ :=
        Scanner.scan_more (by decide) (widthChar_star _ fits flags precision rank ap calls)
      refine ⟨_, ?_, ?_, hscan⟩
      · split <;> decide
      · intro hdot
        exact .inr (if_neg (not_not.2 hdot))

/-! ## Pieces -/

theorem Directive.text_append (d : Directive) (rest : List UInt8) :
    d.text ++ rest = d.flags.map Flag.char ++ (d.width.text ++ (d.precision.text ++
      (d.length.text ++ d.conversion.char :: rest))) := by
  simp [Directive.text]

/-- A directive is not taken for `%%`. -/
theorem Directive.headD_ne (d : Directive) (rest : List UInt8) :
    (d.text ++ rest).headD 0 ≠ code '%' := by
  rw [d.text_append]
  cases d.flags with
  | cons flag flags => exact flag.char_ne.2
  | nil =>
      cases d.width with
      | number first ds _ _ => exact (digitChar_spec first).2.2.2
      | star _ _ => exact (by decide : code '*' ≠ code '%')
      | absent =>
          cases d.precision with
          | number _ _ => exact (by decide : code '.' ≠ code '%')
          | star _ => exact (by decide : code '.' ≠ code '%')
          | absent =>
              obtain ⟨ch, format, htext, hplain⟩ := d.length.plain d.conversion rest
              show (d.length.text ++ d.conversion.char :: rest).headD 0 ≠ code '%'
              rw [htext]
              exact hplain.ne_percent

theorem Precision.headD_of_ne {precision : Precision} (h : precision.text ≠ [])
    (tail : List UInt8) : (precision.text ++ tail).headD 0 = code '.' := by
  cases precision with
  | absent => exact absurd rfl h
  | number _ _ => rfl
  | star _ => rfl

/-- A directive comes to its call. -/
theorem scan_directive (d : Directive) (rest : List UInt8) {s : Scanner}
    (hs : s.state = .ST_NORMAL) {ap : List Arg} (hap : s.ap = d.args ++ ap) :
    ∃ next, Scanner.scan (code '%' :: (d.text ++ rest)) s = Scanner.scan rest next ∧
      s.done ap d.call next := by
  obtain ⟨state, flags, width, precision, rank, ap', calls⟩ := s
  obtain rfl : state = .ST_NORMAL := hs
  obtain rfl : ap' = d.args ++ ap := hap
  have hstart : Scanner.scan (code '%' :: (d.text ++ rest))
      ⟨.ST_NORMAL, flags, width, precision, rank, d.args ++ ap, calls⟩ =
      Scanner.scan (d.text ++ rest)
        ⟨.ST_FLAGS, 0, 0, -1, RANK_INT, d.args ++ ap, calls⟩ := by
    apply Scanner.scan_more (by decide)
    simp only [Scanner.turn, Scanner.normalChar, if_true]
    rw [if_pos (d.headD_ne rest)]
  rw [hstart, d.text_append, scan_flags _ _ rfl]
  have hargs : d.args ++ ap =
      d.width.args ++ (d.precision.args ++ d.conversion.arg :: ap) := by
    simp [Directive.args]
  obtain ⟨state₁, hstate₁, hdot, hwidth⟩ := scan_width d.width
    (d.precision.text ++ (d.length.text ++ d.conversion.char :: rest)) (s := ⟨.ST_FLAGS,
      d.flags.foldl (fun flags flag => flags ||| flag.bit) 0, 0, -1, RANK_INT, d.args ++ ap,
      calls⟩) rfl rfl hargs
  rw [hwidth]
  obtain ⟨state₂, hstate₂, hprec⟩ := scan_precision d.precision
    (d.length.text ++ d.conversion.char :: rest) (s := ⟨state₁, d.bits, d.width.value, -1,
      RANK_INT, d.precision.args ++ d.conversion.arg :: ap, calls⟩) hstate₁
    (fun h => hdot (Precision.headD_of_ne h _)) rfl rfl
  obtain ⟨next, hscan, hdone⟩ := scan_tail d.fits rest (s := ⟨state₂, d.bits, d.width.value,
    d.precision.value, RANK_INT, d.conversion.arg :: ap, calls⟩) hstate₂ rfl rfl
  exact ⟨next, hprec.trans hscan, hdone⟩

theorem scan_piece (piece : Piece) (rest : List UInt8) {s : Scanner}
    (hs : s.state = .ST_NORMAL) {ap : List Arg} (hap : s.ap = piece.args ++ ap) :
    ∃ next, Scanner.scan (piece.text ++ rest) s = Scanner.scan rest next ∧
      s.done ap piece.call next := by
  cases piece with
  | literal c hc =>
      refine ⟨s.put c, Scanner.scan_more hc.1 ?_, hs, hap, rfl⟩
      rw [Scanner.turn, hs]
      simp only [Scanner.normalChar, if_neg hc.2]
  | percent =>
      refine ⟨s.put (code '%'), Scanner.scan_skip (by decide) ?_, hs, hap, rfl⟩
      rw [Scanner.turn, hs]
      rfl
  | directive d => exact scan_directive d rest hs hap

theorem scan_pieces (pieces : List Piece) {s : Scanner} (hs : s.state = .ST_NORMAL)
    {ap : List Arg} (hap : s.ap = pieces.flatMap Piece.args ++ ap) :
    ∃ next, Scanner.scan (pieces.flatMap Piece.text) s = some (.more next) ∧
      next.ap = ap ∧ next.calls = s.calls ++ pieces.map Piece.call := by
  induction pieces generalizing s with
  | nil => exact ⟨s, by rw [List.flatMap_nil, Scanner.scan], hap, by simp⟩
  | cons piece pieces ih =>
      rw [List.flatMap_cons, List.append_assoc] at hap
      obtain ⟨s₁, hscan, hstate, hap₁, hcalls⟩ := scan_piece piece
        (pieces.flatMap Piece.text) hs hap
      obtain ⟨next, hrest, hap', hcalls'⟩ := ih hstate hap₁
      refine ⟨next, ?_, hap', ?_⟩
      · rw [List.flatMap_cons, hscan, hrest]
      · rw [hcalls', hcalls, List.append_assoc]
        rfl

/-- A format of the grammar is accepted: each piece makes the call that the grammar assigns
to it, in order, and each argument is taken once. -/
theorem iobVsnprintf_pieces (pieces : List Piece) (ap : List Arg) :
    iobVsnprintf (pieces.flatMap Piece.text) (pieces.flatMap Piece.args ++ ap) =
      some (SUCCESS, pieces.map Piece.call, ap) := by
  obtain ⟨next, hscan, hap, hcalls⟩ := scan_pieces pieces
    (s := ⟨.ST_NORMAL, 0, 0, 0, 0, pieces.flatMap Piece.args ++ ap, []⟩) rfl rfl
  rw [iobVsnprintf, hscan, ← hap]
  simp [hcalls]

end Cyanea.IoBuffer
