/-
# The digits that a format asks for

`format_int` puts as many digits into its buffer of 64 as the precision says, without looking
at it. The precisions of the integer conversions are read off the format, and the arguments
that go with `*`, by themselves; the scanner is then followed from character to character to
see that these are the precisions that it hands on.
-/

import Cyanea.IoBuffer.Conversions

namespace Cyanea.IoBuffer

/-! ## What is asked for -/

/-- `ndigits`, when `format_int` comes to its buffer. -/
def ndigits (value flags base : ℕ) (precision : ℤ) : ℤ :=
  max (countDigits base (if Has flags FL_SIGNED ∧ 2 ^ 63 ≤ value then sub64 0 value else value) : ℤ)
    precision

/-- The elements of `t_str` that the loop sets, for a number of digits. -/
def indices : (t_ndigit : ℕ) → List ℕ
  | 0 => []
  | t_ndigit + 1 => t_ndigit :: indices t_ndigit

/-- The `ndigits` of the call of `format_int` that a call makes. -/
def Call.ndigits : Call → Option ℤ
  | .format_int value flags base _ precision => some (IoBuffer.ndigits value flags base precision)
  | .ap_format_int base flags _ precision rank arg =>
      (apValue flags rank arg).map fun value => IoBuffer.ndigits value flags base precision
  | _ => none

/-- The indices into `t_str` are below 64, and no more than 64 of its bytes are written. -/
def Call.StaysInside (call : Call) : Prop :=
  ∀ n ∈ call.ndigits, (∀ i ∈ indices n.toNat, i < 64) ∧ n ≤ 64

/-! ## The precisions of a format -/

def IsFlag (ch : UInt8) : Prop :=
  ch = code '-' ∨ ch = code '+' ∨ ch = code ' ' ∨ ch = code '#' ∨ ch = code '0'

instance (ch : UInt8) : Decidable (IsFlag ch) := inferInstanceAs (Decidable (_ ∨ _))

def IsModifier (ch : UInt8) : Prop := ch = code 'h' ∨ ch = code 'l'

instance (ch : UInt8) : Decidable (IsModifier ch) := inferInstanceAs (Decidable (_ ∨ _))

/-- The conversions that take an integer. -/
def IsInteger (ch : UInt8) : Prop :=
  ch = code 'd' ∨ ch = code 'i' ∨ ch = code 'u' ∨ ch = code 'o' ∨ ch = code 'X' ∨ ch = code 'x'

instance (ch : UInt8) : Decidable (IsInteger ch) := inferInstanceAs (Decidable (_ ∨ _))

/-- The number that the digits in front of a text continue `n` to. -/
def readNumber (n : ℤ) (text : List UInt8) : ℤ :=
  (text.takeWhile (isdigit ·)).foldl (fun n ch => n * 10 + digit ch) n

/-- What is behind these digits. -/
def behindNumber (text : List UInt8) : List UInt8 := text.dropWhile (isdigit ·)

/-- The precision that an argument gives. -/
def starPrecision : List Arg → ℤ
  | .int value :: _ => if value < 0 then -1 else value
  | _ => -1

/-- What has been read of a directive: its precision, if it converts an integer, and the text
and the arguments that are left. -/
structure Reading where
  precision : Option ℤ
  text : List UInt8
  ap : List Arg

/-- The modifiers and the conversion. -/
def readModifiers (precision : ℤ) (text : List UInt8) (ap : List Arg) : Reading :=
  match text.dropWhile (IsModifier ·) with
  | [] => ⟨none, [], ap⟩
  | ch :: text => ⟨if IsInteger ch then some precision else none, text, ap.tail⟩

/-- What follows the dot. -/
def readPrecision (precision : ℤ) (text : List UInt8) (ap : List Arg) : Reading :=
  if readNumber precision text = 0 ∧ (behindNumber text).head? = some (code '*') then
    readModifiers (starPrecision ap) (behindNumber text).tail ap.tail
  else
    readModifiers (readNumber precision text) (behindNumber text) ap

def readDot (precision : ℤ) (text : List UInt8) (ap : List Arg) : Reading :=
  if text.head? = some (code '.') then readPrecision 0 text.tail ap
  else readModifiers precision text ap

/-- The width, and what follows it. -/
def readWidth (width precision : ℤ) (text : List UInt8) (ap : List Arg) : Reading :=
  if readNumber width text = 0 ∧ (behindNumber text).head? = some (code '*') then
    readDot precision (behindNumber text).tail ap.tail
  else
    readDot precision (behindNumber text) ap

def readFlags (width precision : ℤ) (text : List UInt8) (ap : List Arg) : Reading :=
  readWidth width precision (text.dropWhile (IsFlag ·)) ap

theorem length_behindNumber (text : List UInt8) : (behindNumber text).length ≤ text.length :=
  (List.dropWhile_suffix _).length_le

theorem length_tail_le {α : Type} (l : List α) : l.tail.length ≤ l.length := by
  rw [List.length_tail]
  exact Nat.sub_le _ _

theorem length_readModifiers (precision : ℤ) (text : List UInt8) (ap : List Arg) :
    (readModifiers precision text ap).text.length ≤ text.length := by
  have hle := (List.dropWhile_suffix (l := text) (IsModifier ·)).length_le
  rw [readModifiers]
  split
  · exact Nat.zero_le _
  · rename_i hdrop
    rw [hdrop, List.length_cons] at hle
    exact Nat.le_of_succ_le hle

theorem length_readPrecision (precision : ℤ) (text : List UInt8) (ap : List Arg) :
    (readPrecision precision text ap).text.length ≤ text.length := by
  have hle := length_behindNumber text
  rw [readPrecision]
  split
  · exact (length_readModifiers ..).trans ((length_tail_le _).trans hle)
  · exact (length_readModifiers ..).trans hle

theorem length_readDot (precision : ℤ) (text : List UInt8) (ap : List Arg) :
    (readDot precision text ap).text.length ≤ text.length := by
  rw [readDot]
  split
  · exact (length_readPrecision ..).trans (length_tail_le _)
  · exact length_readModifiers ..

theorem length_readFlags (width precision : ℤ) (text : List UInt8) (ap : List Arg) :
    (readFlags width precision text ap).text.length ≤ text.length := by
  have hflags := (List.dropWhile_suffix (l := text) (IsFlag ·)).length_le
  have hle := (length_behindNumber (text.dropWhile (IsFlag ·))).trans hflags
  rw [readFlags, readWidth]
  split
  · exact (length_readDot ..).trans ((length_tail_le _).trans hle)
  · exact (length_readDot ..).trans hle

/-- The precisions of the integer conversions of a format, -1 where there is none. -/
def precisions : (format : List UInt8) → List Arg → List ℤ
  | [], _ => []
  | ch :: format, ap =>
      if ch = code '%' then
        if format.head? = some (code '%') then
          precisions format.tail ap
        else
          (readFlags 0 (-1) format ap).precision.toList ++
            precisions (readFlags 0 (-1) format ap).text (readFlags 0 (-1) format ap).ap
      else
        precisions format ap
  termination_by format => format.length
  decreasing_by
    · exact Nat.lt_succ_of_le (length_tail_le format)
    · exact Nat.lt_succ_of_le (length_readFlags ..)
    · exact Nat.lt_succ_self _

/-! ## What the scanner has still to read -/

/-- The precisions behind a directive, with its own. -/
def Reading.precisions (r : Reading) : List ℤ :=
  r.precision.toList ++ IoBuffer.precisions r.text r.ap

/-- The precisions that are still to come. -/
def Scanner.ahead (s : Scanner) (text : List UInt8) : List ℤ :=
  match s.state with
  | .ST_NORMAL => precisions text s.ap
  | .ST_FLAGS => (readFlags s.width s.precision text s.ap).precisions
  | .ST_WIDTH => (readWidth s.width s.precision text s.ap).precisions
  | .ST_PRECISION => (readPrecision s.precision text s.ap).precisions
  | .ST_MODIFIERS => (readModifiers s.precision text s.ap).precisions

/-- The precision that a call hands on. -/
def Call.precision : Call → Option ℤ
  | .ap_format_int _ _ _ precision _ _ => some precision
  | _ => none

/-- The precisions of the calls that have been made, and those that are still to come. -/
def Scanner.precisions (s : Scanner) (text : List UInt8) : List ℤ :=
  s.calls.filterMap Call.precision ++ s.ahead text

theorem ahead_nil (s : Scanner) : s.ahead [] = [] := by
  have hnil : ∀ ap, precisions [] ap = [] := fun ap => by rw [precisions]
  have hmodifiers : ∀ precision ap, (readModifiers precision [] ap).precisions = [] :=
    fun precision ap => hnil ap
  rw [Scanner.ahead]
  cases s.state with
  | ST_NORMAL => exact hnil s.ap
  | ST_FLAGS =>
      rw [readFlags, List.dropWhile_nil, readWidth, if_neg (fun h => nomatch h.2)]
      exact hmodifiers s.precision s.ap
  | ST_WIDTH =>
      dsimp only
      rw [readWidth, if_neg (fun h => nomatch h.2)]
      exact hmodifiers s.precision s.ap
  | ST_PRECISION =>
      dsimp only
      rw [readPrecision, if_neg (fun h => nomatch h.2)]
      exact hmodifiers s.precision s.ap
  | ST_MODIFIERS => exact hmodifiers _ _

/-! ## Calls -/

theorem mem_indices {i n : ℕ} : i ∈ indices n ↔ i < n := by
  induction n with
  | zero => simp [indices]
  | succ n ih =>
      rw [indices, List.mem_cons, ih]
      omega

theorem staysInside_ndigits {call : Call} : call.StaysInside ↔ ∀ n ∈ call.ndigits, n ≤ 64 := by
  refine ⟨fun h n hn => (h n hn).2, fun h n hn => ⟨fun i hi => ?_, h n hn⟩⟩
  have hlt := mem_indices.mp hi
  have hle := h n hn
  omega

/-- The call stays inside of its buffer if its precision does. -/
def Call.Regular (call : Call) : Prop :=
  call.StaysInside ↔ ∀ precision ∈ call.precision, precision ≤ 64

theorem ndigits_le {value flags base : ℕ} {precision : ℤ} (hvalue : value < 2 ^ 64)
    (hbase : 1 < base) : ndigits value flags base precision ≤ 64 ↔ precision ≤ 64 := by
  have hlt : (if Has flags FL_SIGNED ∧ 2 ^ 63 ≤ value then sub64 0 value else value) < 2 ^ 64 := by
    split
    · exact sub64_lt 0 value
    · exact hvalue
  have hcount := countDigits_le_64 hlt hbase
  rw [ndigits]
  omega

/-- The scanner behind a directive. -/
def Scanner.behind (s : Scanner) (ap : List Arg) (call : Call) : Scanner :=
  { s with state := .ST_NORMAL, ap, calls := s.calls ++ [call] }

/-- A conversion that takes an argument, and hands the precision on if it is that of an
integer. -/
structure Converts (s : Scanner) (isInteger : Prop) [Decidable isInteger] (arg : Arg)
    (ap : List Arg) (call : Call) (r : Scanned) : Prop where
  ap_eq : s.ap = arg :: ap
  result : r = .more (s.behind ap call)
  precision : call.precision = if isInteger then some s.precision else none
  regular : arg.InRange → call.Regular

section Conversions

variable {s : Scanner} {r : Scanned}

theorem integer_converts {base flags : ℕ} (hbase : 1 < base) (h : s.integer base flags = some r) :
    ∃ arg ap call, Converts s True arg ap call r := by
  rw [Scanner.integer] at h
  split at h
  · rename_i arg ap hap
    split at h
    · rename_i hvalue
      obtain ⟨value, hvalue⟩ := Option.isSome_iff_exists.mp hvalue
      refine ⟨arg, ap, _, hap, (Option.some.inj h).symm, rfl, fun hrange => ?_⟩
      rw [Call.Regular, staysInside_ndigits, Call.ndigits, hvalue]
      simpa [Call.precision] using ndigits_le (apValue_lt hrange hvalue) hbase
    · cases h
  · cases h

theorem pointer_converts {flags : ℕ} (h : s.pointer flags = some r) :
    ∃ arg ap call, Converts s False arg ap call r := by
  rw [Scanner.pointer] at h
  split at h
  · rename_i addr ap hap
    refine ⟨.pointer addr, ap, _, hap, (Option.some.inj h).symm, rfl, fun hrange => ?_⟩
    rw [Call.Regular, staysInside_ndigits]
    refine iff_of_true (fun n hn => ?_) nofun
    rw [← Option.some.inj hn]
    exact (ndigits_le hrange (by decide)).mpr (by decide)
  · cases h

/-- A string is not written by way of `t_str`. -/
theorem regular_str (str : List UInt8) (count : ℤ) (flags : ℕ) (width precision : ℤ) :
    (Call.format_str str count flags width precision).Regular :=
  iff_of_true nofun nofun

/-- What a conversion does, or that there is none for the character. -/
theorem conversion_cases {ch : UInt8} (h : s.conversion ch = some r) :
    (¬ IsModifier ch ∧ ∃ arg ap call, Converts s (IsInteger ch) arg ap call r) ∨
      r = .fail (-1) s := by
  have hinteger : ∀ {base flags}, 1 < base → ¬ IsModifier ch → IsInteger ch →
      s.integer base flags = some r →
      ¬ IsModifier ch ∧ ∃ arg ap call, Converts s (IsInteger ch) arg ap call r := by
    intro base flags hbase hmodifier hinteger h
    obtain ⟨arg, ap, call, hconverts⟩ := integer_converts hbase h
    exact ⟨hmodifier, arg, ap, call, hconverts.ap_eq, hconverts.result,
      hconverts.precision.trans (by rw [if_pos trivial, if_pos hinteger]), hconverts.regular⟩
  have hother : ∀ {arg ap call}, ¬ IsModifier ch → ¬ IsInteger ch →
      Converts s False arg ap call r →
      ¬ IsModifier ch ∧ ∃ arg ap call, Converts s (IsInteger ch) arg ap call r := by
    intro arg ap call hmodifier hinteger hconverts
    exact ⟨hmodifier, arg, ap, call, hconverts.ap_eq, hconverts.result,
      hconverts.precision.trans (by rw [if_neg not_false, if_neg hinteger]), hconverts.regular⟩
  rw [Scanner.conversion] at h
  by_cases hP : ch = code 'P'
  · rw [if_pos hP] at h
    subst hP
    obtain ⟨arg, ap, call, hconverts⟩ := pointer_converts h
    exact .inl (hother (by decide) (by decide) hconverts)
  rw [if_neg hP] at h
  by_cases hp : ch = code 'p'
  · rw [if_pos hp] at h
    subst hp
    obtain ⟨arg, ap, call, hconverts⟩ := pointer_converts h
    exact .inl (hother (by decide) (by decide) hconverts)
  rw [if_neg hp] at h
  by_cases hd : ch = code 'd' ∨ ch = code 'i'
  · rw [if_pos hd] at h
    obtain rfl | rfl := hd
    · exact .inl (hinteger (by decide) (by decide) (by decide) h)
    · exact .inl (hinteger (by decide) (by decide) (by decide) h)
  rw [if_neg hd] at h
  by_cases hu : ch = code 'u'
  · rw [if_pos hu] at h
    subst hu
    exact .inl (hinteger (by decide) (by decide) (by decide) h)
  rw [if_neg hu] at h
  by_cases ho : ch = code 'o'
  · rw [if_pos ho] at h
    subst ho
    exact .inl (hinteger (by decide) (by decide) (by decide) h)
  rw [if_neg ho] at h
  by_cases hX : ch = code 'X'
  · rw [if_pos hX] at h
    subst hX
    exact .inl (hinteger (by decide) (by decide) (by decide) h)
  rw [if_neg hX] at h
  by_cases hx : ch = code 'x'
  · rw [if_pos hx] at h
    subst hx
    exact .inl (hinteger (by decide) (by decide) (by decide) h)
  rw [if_neg hx] at h
  by_cases hc : ch = code 'c'
  · rw [if_pos hc] at h
    subst hc
    split at h
    · rename_i value ap hap
      exact .inl (hother (by decide) (by decide)
        ⟨hap, (Option.some.inj h).symm, rfl, fun _ => regular_str ..⟩)
    · cases h
  rw [if_neg hc] at h
  by_cases hs : ch = code 's'
  · rw [if_pos hs] at h
    subst hs
    split at h
    · rename_i str ap hap
      exact .inl (hother (by decide) (by decide)
        ⟨hap, (Option.some.inj h).symm, rfl, fun _ => regular_str ..⟩)
    · cases h
  rw [if_neg hs] at h
  exact .inr (Option.some.inj h).symm

end Conversions

/-! ## A turn -/

/-- What a turn adds: calls that stay inside of their buffer if their precisions do. -/
structure Advances (s s' : Scanner) : Prop where
  ap : ∀ arg ∈ s'.ap, arg ∈ s.ap
  calls : ∀ call ∈ s'.calls, call ∈ s.calls ∨ ((∀ arg ∈ s.ap, arg.InRange) → call.Regular)

/-- A turn keeps the precisions that have been handed on and are still to come. -/
def Keeps (s : Scanner) (ch : UInt8) (text : List UInt8) : Scanned → Prop
  | .more s' => s.precisions (ch :: text) = s'.precisions text ∧ Advances s s'
  | .skip s' => s.precisions (ch :: text) = s'.precisions text.tail ∧ Advances s s'
  | .fail err _ => err = -1

section Turns

variable {s : Scanner} {r : Scanned} {ch : UInt8} {text : List UInt8}

/-- A turn that makes no call. -/
theorem keeps_more {s' : Scanner} (hcalls : s'.calls = s.calls) (hap : s'.ap ⊆ s.ap)
    (hahead : s.ahead (ch :: text) = s'.ahead text) : Keeps s ch text (.more s') := by
  refine ⟨?_, hap, fun call hcall => Or.inl (hcalls ▸ hcall)⟩
  rw [Scanner.precisions, Scanner.precisions, hcalls, hahead]

theorem readModifiers_modifier (hch : IsModifier ch) (precision : ℤ) (ap : List Arg) :
    readModifiers precision (ch :: text) ap = readModifiers precision text ap := by
  rw [readModifiers, List.dropWhile_cons_of_pos (by simpa using hch), readModifiers]

theorem readModifiers_conversion (hch : ¬ IsModifier ch) (precision : ℤ) (ap : List Arg) :
    readModifiers precision (ch :: text) ap =
      ⟨if IsInteger ch then some precision else none, text, ap.tail⟩ := by
  rw [readModifiers, List.dropWhile_cons_of_neg (by simpa using hch)]

theorem modifiers_keeps (hs : s.state = .ST_MODIFIERS) (h : s.modifiers ch = some r) :
    Keeps s ch text r := by
  have hstays : ∀ rank, IsModifier ch → Keeps s ch text (.more { s with rank }) := by
    intro rank hch
    refine keeps_more rfl (List.Subset.refl _) ?_
    rw [Scanner.ahead, Scanner.ahead, hs]
    dsimp only
    rw [readModifiers_modifier hch]
  rw [Scanner.modifiers] at h
  split_ifs at h with hh hl
  · obtain rfl := Option.some.inj h
    exact hstays _ (Or.inl hh.1)
  · obtain rfl := Option.some.inj h
    exact hstays _ (Or.inr hl.1)
  · obtain ⟨hch, arg, ap, call, hap, rfl, hprecision, hregular⟩ | rfl := conversion_cases h
    · refine ⟨?_, fun arg' harg => ?_, fun call' hcall => ?_⟩
      · rw [Scanner.precisions, Scanner.precisions, Scanner.ahead, Scanner.ahead, hs]
        dsimp only [Scanner.behind]
        rw [readModifiers_conversion hch, Reading.precisions, hap, List.tail_cons,
          List.filterMap_append, List.append_assoc]
        congr 1
        rw [← hprecision]
        cases hcall : call.precision with
        | none => simp [hcall]
        | some precision => simp [hcall]
      · rw [hap]
        exact List.mem_cons_of_mem arg harg
      · obtain hcall | hcall := List.mem_append.mp hcall
        · exact Or.inl hcall
        · rw [List.mem_singleton.mp hcall]
          exact Or.inr fun hrange => hregular (hrange arg (hap ▸ List.mem_cons_self))
    · rfl

/-- A character in front of which there is no digit. -/
theorem readNumber_of_not (hch : ¬ isdigit ch) (text : List UInt8) (n : ℤ) :
    readNumber n (ch :: text) = n ∧ behindNumber (ch :: text) = ch :: text := by
  rw [readNumber, behindNumber, List.takeWhile_cons_of_neg (by simpa using hch),
    List.dropWhile_cons_of_neg (by simpa using hch)]
  exact ⟨rfl, rfl⟩

theorem readNumber_digit (hch : isdigit ch) (text : List UInt8) (n : ℤ) :
    readNumber n (ch :: text) = readNumber (n * 10 + digit ch) text ∧
      behindNumber (ch :: text) = behindNumber text := by
  rw [readNumber, behindNumber, List.takeWhile_cons_of_pos (by simpa using hch),
    List.dropWhile_cons_of_pos (by simpa using hch)]
  exact ⟨rfl, rfl⟩

theorem toInt_eq_some {z m : ℤ} (h : toInt z = some m) : m = z := by
  rw [toInt] at h
  split at h
  · exact (Option.some.inj h).symm
  · cases h

theorem keeps_congr (s' : Scanner)
    (hprecisions : s.precisions (ch :: text) = s'.precisions (ch :: text))
    (hap : s'.ap = s.ap) (hcalls : s'.calls = s.calls) (h : Keeps s' ch text r) :
    Keeps s ch text r := by
  cases r with
  | fail err s'' => exact h
  | more s'' => exact ⟨hprecisions.trans h.1, hap ▸ h.2.ap, by
      have hadvances := h.2.calls
      rwa [hap, hcalls] at hadvances⟩
  | skip s'' => exact ⟨hprecisions.trans h.1, hap ▸ h.2.ap, by
      have hadvances := h.2.calls
      rwa [hap, hcalls] at hadvances⟩

theorem precisionChar_keeps (hs : s.state = .ST_PRECISION) (h : s.precisionChar ch = some r) :
    Keeps s ch text r := by
  rw [Scanner.precisionChar] at h
  split_ifs at h with hdigit hstar
  · obtain ⟨precision, hprecision, hr⟩ := Option.bind_eq_some_iff.mp h
    obtain rfl := Option.some.inj hr
    obtain rfl := toInt_eq_some hprecision
    obtain ⟨hnumber, hbehind⟩ := readNumber_digit hdigit text s.precision
    refine keeps_more rfl (List.Subset.refl _) ?_
    rw [Scanner.ahead, Scanner.ahead, hs]
    dsimp only
    rw [readPrecision, hnumber, hbehind, readPrecision]
  · obtain ⟨rfl, hzero⟩ := hstar
    obtain ⟨hnumber, hbehind⟩ := readNumber_of_not
      (show ¬ isdigit (code '*') by decide) text s.precision
    split at h
    · rename_i value ap hap
      obtain rfl := Option.some.inj h
      refine keeps_more rfl (hap ▸ List.subset_cons_self _ _) ?_
      rw [Scanner.ahead, Scanner.ahead, hs]
      dsimp only
      rw [readPrecision, hnumber, hbehind, if_pos ⟨hzero, rfl⟩, hap]
      rfl
    · cases h
  · obtain ⟨hnumber, hbehind⟩ := readNumber_of_not hdigit text s.precision
    refine keeps_congr { s with state := .ST_MODIFIERS } ?_ rfl rfl
      (modifiers_keeps rfl h)
    rw [Scanner.precisions, Scanner.precisions, Scanner.ahead, Scanner.ahead, hs]
    dsimp only
    rw [readPrecision, hnumber, hbehind, if_neg]
    rintro ⟨hzero, hhead⟩
    exact hstar ⟨Option.some.inj hhead, hzero⟩

/-- Behind the `*` of a width, the state depends on what follows. -/
theorem ahead_behindWidth
    (hs : s.state = if text.headD 0 ≠ code '.' then .ST_MODIFIERS else .ST_WIDTH) :
    s.ahead text = (readDot s.precision text s.ap).precisions := by
  by_cases hdot : text.headD 0 = code '.'
  · rw [if_neg (not_not.mpr hdot)] at hs
    cases text with
    | nil => exact absurd hdot (by decide)
    | cons next text =>
        obtain rfl : next = code '.' := hdot
        obtain ⟨hnumber, hbehind⟩ := readNumber_of_not
          (show ¬ isdigit (code '.') by decide) text s.width
        rw [Scanner.ahead, hs]
        dsimp only
        rw [readWidth, hnumber, hbehind, List.head?_cons, if_neg fun h => absurd h.2 (by decide)]
  · rw [if_pos hdot] at hs
    have hhead : text.head? ≠ some (code '.') := by
      cases text with
      | nil => exact nofun
      | cons next text => exact fun h => hdot (Option.some.inj h)
    rw [Scanner.ahead, hs, readDot, if_neg hhead]

theorem widthChar_keeps (hs : s.state = .ST_WIDTH)
    (h : s.widthChar ch (text.headD 0) = some r) : Keeps s ch text r := by
  by_cases hdigit : isdigit ch
  · rw [widthChar_digit hdigit] at h
    obtain ⟨width, hwidth, rfl⟩ := Option.map_eq_some_iff.mp h
    obtain rfl := toInt_eq_some hwidth
    obtain ⟨hnumber, hbehind⟩ := readNumber_digit hdigit text s.width
    refine keeps_more rfl (List.Subset.refl _) ?_
    rw [Scanner.ahead, Scanner.ahead, hs]
    dsimp only
    rw [readWidth, hnumber, hbehind, readWidth]
  · obtain ⟨hnumber, hbehind⟩ := readNumber_of_not hdigit text s.width
    rw [Scanner.widthChar, if_neg hdigit] at h
    by_cases hstar : ch = code '*' ∧ s.width = 0
    · rw [if_pos hstar] at h
      obtain ⟨rfl, hzero⟩ := hstar
      have hahead : s.ahead (code '*' :: text) =
          (readDot s.precision text s.ap.tail).precisions := by
        rw [Scanner.ahead, hs]
        dsimp only
        rw [readWidth, hnumber, hbehind, if_pos ⟨hzero, rfl⟩, List.tail_cons]
      split at h
      · rename_i value ap hap
        have hsub : ap ⊆ s.ap := hap ▸ List.subset_cons_self _ _
        rw [hap, List.tail_cons] at hahead
        dsimp only at h
        rw [hs] at h
        by_cases hneg : value < 0
        · rw [if_pos hneg] at h
          obtain ⟨width, -, hr⟩ := Option.bind_eq_some_iff.mp h
          obtain rfl := Option.some.inj hr
          refine keeps_more rfl hsub (hahead.trans ?_)
          symm
          exact ahead_behindWidth rfl
        · rw [if_neg hneg] at h
          obtain rfl := Option.some.inj h
          refine keeps_more rfl hsub (hahead.trans ?_)
          symm
          exact ahead_behindWidth rfl
      · cases h
    · rw [if_neg hstar] at h
      have hahead : s.ahead (ch :: text) =
          (readDot s.precision (ch :: text) s.ap).precisions := by
        rw [Scanner.ahead, hs]
        dsimp only
        rw [readWidth, hnumber, hbehind,
          if_neg fun hzero => hstar ⟨Option.some.inj hzero.2, hzero.1⟩]
      by_cases hdot : ch = code '.'
      · rw [if_pos hdot] at h
        obtain rfl := Option.some.inj h
        refine keeps_more rfl (List.Subset.refl _) ?_
        rw [hahead, readDot, List.head?_cons, if_pos (congrArg some hdot), List.tail_cons]
        rfl
      · rw [if_neg hdot] at h
        refine keeps_congr { s with state := .ST_MODIFIERS } ?_ rfl rfl
          (modifiers_keeps rfl h)
        rw [Scanner.precisions, Scanner.precisions, hahead, readDot, List.head?_cons,
          if_neg fun hhead => hdot (Option.some.inj hhead)]
        rfl

theorem flagsChar_keeps (hs : s.state = .ST_FLAGS)
    (h : s.flagsChar ch (text.headD 0) = some r) : Keeps s ch text r := by
  have hstays : ∀ flags, IsFlag ch → Keeps s ch text (.more { s with flags }) := by
    intro flags hch
    refine keeps_more rfl (List.Subset.refl _) ?_
    rw [Scanner.ahead, Scanner.ahead, hs]
    dsimp only
    rw [readFlags, List.dropWhile_cons_of_pos (by simpa using hch), readFlags]
  rw [Scanner.flagsChar] at h
  split_ifs at h with hminus hplus hspace hhash hzero
  · obtain rfl := Option.some.inj h
    exact hstays _ (.inl hminus)
  · obtain rfl := Option.some.inj h
    exact hstays _ (.inr (.inl hplus))
  · obtain rfl := Option.some.inj h
    exact hstays _ (.inr (.inr (.inl hspace)))
  · obtain rfl := Option.some.inj h
    exact hstays _ (.inr (.inr (.inr (.inl hhash))))
  · obtain rfl := Option.some.inj h
    exact hstays _ (.inr (.inr (.inr (.inr hzero))))
  · have hflag : ¬ IsFlag ch := by
      rintro (h | h | h | h | h)
      exacts [hminus h, hplus h, hspace h, hhash h, hzero h]
    refine keeps_congr { s with state := .ST_WIDTH } ?_ rfl rfl (widthChar_keeps rfl h)
    rw [Scanner.precisions, Scanner.precisions, Scanner.ahead, Scanner.ahead, hs]
    dsimp only
    rw [readFlags, List.dropWhile_cons_of_neg (by simpa using hflag)]

/-- A character that is put out. -/
theorem advances_put (ch : UInt8) : Advances s (s.put ch) := by
  refine ⟨fun _ harg => harg, fun call hcall => ?_⟩
  obtain hcall | hcall := List.mem_append.mp hcall
  · exact Or.inl hcall
  · rw [List.mem_singleton.mp hcall]
    exact Or.inr fun _ => iff_of_true nofun nofun

theorem filterMap_put (ch : UInt8) :
    (s.put ch).calls.filterMap Call.precision = s.calls.filterMap Call.precision := by
  rw [Scanner.put, List.filterMap_append]
  exact List.append_nil _

theorem normalChar_keeps (hs : s.state = .ST_NORMAL) :
    Keeps s ch text (s.normalChar ch (text.headD 0)) := by
  have hahead : s.ahead (ch :: text) = precisions (ch :: text) s.ap := by
    rw [Scanner.ahead, hs]
  have hput : ∀ rest, (s.put ch).ahead rest = precisions rest s.ap := by
    intro rest
    rw [Scanner.ahead, show (s.put ch).state = .ST_NORMAL from hs]
    rfl
  have hnext : text.head? = some (code '%') ↔ text.headD 0 = code '%' := by
    cases text with
    | nil => exact iff_of_false nofun (by decide)
    | cons next text => exact Option.some_inj
  rw [Scanner.normalChar]
  split_ifs with hpercent hagain
  · refine keeps_more rfl (List.Subset.refl _) ?_
    rw [hahead, precisions, if_pos hpercent, if_neg (hnext.not.mpr hagain)]
    rfl
  · refine ⟨?_, advances_put ch⟩
    rw [Scanner.precisions, Scanner.precisions, filterMap_put, hahead, hput, precisions,
      if_pos hpercent, if_pos (hnext.mpr (not_not.mp hagain))]
  · refine ⟨?_, advances_put ch⟩
    rw [Scanner.precisions, Scanner.precisions, filterMap_put, hahead, hput, precisions,
      if_neg hpercent]

theorem turn_keeps (h : s.turn ch (text.headD 0) = some r) : Keeps s ch text r := by
  rw [Scanner.turn] at h
  cases hs : s.state with
  | ST_NORMAL =>
      rw [hs] at h
      obtain rfl := Option.some.inj h
      exact normalChar_keeps hs
  | ST_FLAGS =>
      rw [hs] at h
      exact flagsChar_keeps hs h
  | ST_WIDTH =>
      rw [hs] at h
      exact widthChar_keeps hs h
  | ST_PRECISION =>
      rw [hs] at h
      exact precisionChar_keeps hs h
  | ST_MODIFIERS =>
      rw [hs] at h
      exact modifiers_keeps hs h

end Turns

/-! ## The whole format -/

theorem Advances.refl (s : Scanner) : Advances s s :=
  ⟨fun _ harg => harg, fun _ hcall => Or.inl hcall⟩

theorem Advances.trans {s₁ s₂ s₃ : Scanner} (h : Advances s₁ s₂) (h' : Advances s₂ s₃) :
    Advances s₁ s₃ := by
  refine ⟨fun arg harg => h.ap arg (h'.ap arg harg), fun call hcall => ?_⟩
  obtain hcall | hregular := h'.calls call hcall
  · exact h.calls call hcall
  · exact Or.inr fun hrange => hregular fun arg harg => hrange arg (h.ap arg harg)

/-- A scan that is not broken off has handed on all precisions of the format. -/
theorem scan_keeps {text : List UInt8} {s : Scanner} {r : Scanned} (hnul : 0 ∉ text)
    (h : Scanner.scan text s = some r) :
    (∃ s', r = .more s' ∧ s'.calls.filterMap Call.precision = s.precisions text ∧
        Advances s s') ∨ ∃ s', r = .fail (-1) s' := by
  induction hn : text.length using Nat.strong_induction_on generalizing text s with
  | _ n ih =>
      cases text with
      | nil =>
          rw [Scanner.scan] at h
          obtain rfl := Option.some.inj h
          refine Or.inl ⟨s, rfl, ?_, .refl s⟩
          rw [Scanner.precisions, ahead_nil, List.append_nil]
      | cons ch text =>
          rw [List.length_cons] at hn
          have hch : ch ≠ 0 := fun hch => hnul (hch ▸ List.mem_cons_self)
          have hrest : 0 ∉ text := fun hmem => hnul (List.mem_cons_of_mem ch hmem)
          rw [Scanner.scan, if_neg hch] at h
          split at h
          · rename_i s₁ hturn
            obtain ⟨hprecisions, hadvances⟩ := turn_keeps hturn
            obtain ⟨s', rfl, hcalls, hadvances'⟩ | hfail := ih _ (by omega) hrest h rfl
            · exact Or.inl ⟨s', rfl, hcalls.trans hprecisions.symm, hadvances.trans hadvances'⟩
            · exact Or.inr hfail
          · rename_i s₁ hturn
            obtain ⟨hprecisions, hadvances⟩ := turn_keeps hturn
            have hle := length_tail_le text
            obtain ⟨s', rfl, hcalls, hadvances'⟩ | hfail :=
              ih _ (by omega) (fun hmem => hrest (List.mem_of_mem_tail hmem)) h rfl
            · exact Or.inl ⟨s', rfl, hcalls.trans hprecisions.symm, hadvances.trans hadvances'⟩
            · exact Or.inr hfail
          · rename_i hmore hskip
            have hkeeps := turn_keeps h
            cases r with
            | more s' => exact absurd h (hmore s')
            | skip s' => exact absurd h (hskip s')
            | fail err s' =>
                obtain rfl : err = -1 := hkeeps
                exact Or.inr ⟨s', rfl⟩

/-- What an accepted format makes of its arguments stays inside of `t_str` exactly if none of
its integer conversions has a precision of more than 64. -/
theorem staysInside_iff_precisions {format : CString} {ap : List Arg}
    (hrange : ∀ arg ∈ ap, arg.InRange) {calls : List Call} {rest : List Arg}
    (h : iobVsnprintf format.chars ap = some (SUCCESS, calls, rest)) :
    (∀ call ∈ calls, call.StaysInside) ↔
      ∀ precision ∈ precisions format.chars ap, precision ≤ 64 := by
  rw [iobVsnprintf] at h
  cases hscan : Scanner.scan format.chars ⟨.ST_NORMAL, 0, 0, 0, 0, ap, []⟩ with
  | none =>
      rw [hscan] at h
      cases h
  | some r =>
      rw [hscan] at h
      obtain ⟨s', rfl, hprecisions, hadvances⟩ | ⟨s', rfl⟩ := scan_keeps format.noNul hscan
      · obtain ⟨rfl, rfl⟩ : s'.calls = calls ∧ s'.ap = rest := by simpa using h
        have hregular : ∀ call ∈ s'.calls, call.Regular := fun call hcall =>
          (hadvances.calls call hcall).resolve_left List.not_mem_nil hrange
        rw [show precisions format.chars ap = _ from hprecisions.symm]
        constructor
        · intro hinside precision hmem
          obtain ⟨call, hcall, hprecision⟩ := List.mem_filterMap.mp hmem
          exact (hregular call hcall).mp (hinside call hcall) precision hprecision
        · intro hle call hcall
          exact (hregular call hcall).mpr fun precision hprecision =>
            hle precision (List.mem_filterMap.mpr ⟨call, hcall, hprecision⟩)
      · exact absurd h (by simp [SUCCESS])

/-- `%.*d`. -/
def starDirective (precision : ℤ) : Directive where
  flags := []
  width := .absent
  precision := .star precision
  length := .absent
  conversion := .integer .d (.int 7)
  fits _ _ h := by
    obtain ⟨-, rfl⟩ := Conversion.integer.inj h
    trivial

def starFormat : CString := ⟨[0x25, 0x2e, 0x2a, 0x64], by decide⟩

theorem iobVsnprintf_star (precision : ℤ) :
    iobVsnprintf starFormat.chars [.int precision, .int 7] =
      some (SUCCESS, [(starDirective precision).call], []) :=
  iobVsnprintf_directive (starDirective precision)

theorem staysInside_iff_precisions_star :
    (∀ call ∈ [(starDirective 8).call], call.StaysInside) ↔
      ∀ precision ∈ precisions starFormat.chars [.int 8, .int 7], precision ≤ 64 :=
  staysInside_iff_precisions
    (by
      intro arg harg
      simp only [List.mem_cons, List.not_mem_nil, or_false] at harg
      obtain rfl | rfl := harg
      · exact ⟨by decide, by decide⟩
      · exact ⟨by decide, by decide⟩)
    (iobVsnprintf_star 8)

/-- `%.*d` with 65. -/
theorem not_staysInside_star :
    iobVsnprintf starFormat.chars [.int 65, .int 7] =
        some (SUCCESS, [(starDirective 65).call], []) ∧
      ¬ (starDirective 65).call.StaysInside := by
  refine ⟨iobVsnprintf_star 65, ?_⟩
  rw [staysInside_ndigits]
  intro hle
  have hlong : (65 : ℤ) ≤ 64 := (le_max_right _ _).trans (hle _ rfl)
  exact absurd hlong (by decide)

end Cyanea.IoBuffer
