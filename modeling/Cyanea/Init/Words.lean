/-
# The words of the command line

A command line is cut at its blanks into segments, the words and nothing between two blanks.
The scan is followed over one segment after the other: a word that is the option ends it, a
word that gives the option a value is kept, and any other is passed over. The last segment
is not followed by a blank but by the terminator, which is counted as if it belonged to the
value.
-/

import Mathlib.Data.List.Basic
import Mathlib.Data.List.GetD
import Cyanea.Init.Params

namespace Cyanea.Init

open Math.Simulation (Turn)

/-! ## What is asked for -/

/-- The blank-separated words of a line. -/
def words (line : List UInt8) : List (List UInt8) := (line.splitOn SPACE).filter (· ≠ [])

/-- The value that a word gives to the option. -/
def valueOf (option word : List UInt8) : Option (List UInt8) :=
  if (option ++ [EQUALS]) <+: word then some (word.drop (option.length + 1)) else none

/-- The value of the last word that gives the option one. -/
def lastValue (option : List UInt8) (line : List UInt8) : Option (List UInt8) :=
  ((words line).filterMap (valueOf option)).getLast?

/-- The buffer holds as much of the value as there is room for, and a terminator. -/
def HoldsValue (buf_len : ℕ) (value : List UInt8) (buf : Buffer) : Prop :=
  (∀ i < min value.length (buf_len - 1), buf i = some (value.getD i 0)) ∧
    buf (min value.length (buf_len - 1)) = some 0

/-- `-2` for an option that is a word by itself, otherwise the length of its last value,
which the buffer holds, or `-1` if there is none. -/
def FindsOption (line : CString) (option : CString) (buf_len : ℕ) : Prop :=
  ∃ n buf, rawParamGetOption option buf_len (some line.chars) COMMAND_LINE_SIZE = some (n, buf) ∧
    if option.chars ∈ words line.chars then n = -2
    else match lastValue option.chars line.chars with
      | some value => n = value.length ∧ HoldsValue buf_len value buf
      | none => n = -1

/-- The line ends with a word that gives the option a value. -/
def EndsWithValue (line option : List UInt8) : Prop :=
  ∃ seg ∈ (line.splitOn SPACE).getLast?, (valueOf option seg).isSome

/-! ## The scan of a text -/

/-- The loop, over the characters up to the terminator. -/
def scanText (option : CString) (buf_len : ℕ) : List UInt8 → Scan → Option (Turn Scan Buffer)
  | [], s => some (.again s)
  | ch :: text, s =>
    match scanChar option buf_len ch s with
    | some (.again s) => if ch = 0 then some (.again s) else scanText option buf_len text s
    | result => result

section Scanning

variable {option : CString} {buf_len : ℕ} {s : Scan} {ch : UInt8} {text seg : List UInt8}

/-- The loop reads the line up to its terminator. -/
theorem scanLoop_eq {line : List UInt8} (hnul : 0 ∉ line) {left i : ℕ}
    (hleft : line.length - i < left) :
    scanLoop option buf_len line left i s = scanText option buf_len (line.drop i ++ [0]) s := by
  induction left generalizing i s with
  | zero => exact absurd hleft (Nat.not_lt_zero _)
  | succ left ih =>
      rw [scanLoop]
      by_cases hi : i < line.length
      · have hdrop : line.drop i = line.getD i 0 :: line.drop (i + 1) := by
          rw [List.drop_eq_getElem_cons hi, List.getD_eq_getElem _ 0 hi]
        have hne : line.getD i 0 ≠ 0 := by
          rw [List.getD_eq_getElem _ 0 hi]
          exact fun hzero => hnul (hzero ▸ List.getElem_mem hi)
        rw [hdrop, List.cons_append, scanText]
        cases scanChar option buf_len (line.getD i 0) s with
        | none => rfl
        | some turn =>
            cases turn with
            | leave buf => rfl
            | again next =>
                dsimp only
                rw [if_neg hne, if_neg hne]
                exact ih (by omega)
      · have hdrop : line.drop i = [] := List.drop_eq_nil_of_le (Nat.not_lt.mp hi)
        have hzero : line.getD i 0 = 0 := List.getD_eq_default _ _ (Nat.not_lt.mp hi)
        rw [hdrop, List.nil_append, scanText, hzero]
        cases scanChar option buf_len 0 s with
        | none => rfl
        | some turn => cases turn <;> rfl

/-- The text behind a segment starts with the terminator, and ends there, or with a blank. -/
def Behind (rest : List UInt8) : Prop := rest = [0] ∨ ∃ text, rest = SPACE :: text

/-- The scan has come to the end of a segment. Where a blank follows, it waits for the next
word. -/
structure Passed (rest : List UInt8) (s s' : Scan) : Prop where
  n : s'.n = s.n
  buffer : s'.buffer = s.buffer
  buf : s'.buf = s.buf
  state : rest ≠ [0] → s'.state = .ST_WORDSTART

/-- The scan goes on behind the segment, if anything follows there. -/
def scanBehind (option : CString) (buf_len : ℕ) (rest : List UInt8) (s : Scan) :
    Option (Turn Scan Buffer) :=
  match rest with
  | ch :: text => if ch = 0 then some (.again s) else scanText option buf_len text s
  | [] => some (.again s)

/-- A character that the scan passes over. -/
theorem scanText_again {s' : Scan} (hch : ch ≠ 0)
    (h : scanChar option buf_len ch s = some (.again s')) :
    scanText option buf_len (ch :: text) s = scanText option buf_len text s' := by
  rw [scanText, h]
  exact if_neg hch

/-- The rest of a word is skipped. -/
theorem skip_run (option : CString) (buf_len : ℕ) {rest : List UInt8} (hrest : Behind rest) (hseg : SPACE ∉ seg) (hnul : 0 ∉ seg)
    (hstate : s.state = .ST_WORDSKIP) :
    ∃ s', scanText option buf_len (seg ++ rest) s = scanBehind option buf_len rest s' ∧
      Passed rest s s' := by
  induction seg generalizing s with
  | nil =>
      obtain rfl | ⟨text, rfl⟩ := hrest
      · refine ⟨wordSkip 0 s, ?_, rfl, rfl, rfl, fun h => absurd rfl h⟩
        rw [List.nil_append, scanText, scanChar, hstate]
        rfl
      · refine ⟨wordSkip SPACE s, ?_, rfl, rfl, rfl, fun _ => rfl⟩
        rw [List.nil_append, scanText, scanChar, hstate]
        rfl
  | cons c seg ih =>
      have hc : c ≠ SPACE := fun h => hseg (h ▸ List.mem_cons_self)
      have hc' : c ≠ 0 := fun h => hnul (h ▸ List.mem_cons_self)
      have hstep : scanChar option buf_len c s = some (.again (wordSkip c s)) := by
        rw [scanChar, hstate]
      have hskip : (wordSkip c s).state = .ST_WORDSKIP := if_neg hc
      obtain ⟨s', hrun, hpassed⟩ := ih (fun h => hseg (List.mem_cons_of_mem c h))
        (fun h => hnul (List.mem_cons_of_mem c h)) hskip
      rw [List.cons_append, scanText_again hc' hstep]
      exact ⟨s', hrun, hpassed.n, hpassed.buffer, hpassed.buf, hpassed.state⟩

/-- The beginning of a value has been copied, as far as there is room. -/
structure Copied (buf_len : ℕ) (value : List UInt8) (s : Scan) : Prop where
  n : s.n = value.length
  buffer : s.buffer = min value.length (buf_len - 1)
  filled : ∀ i < s.buffer, s.buf i = some (value.getD i 0)

theorem Copied.step {value : List UInt8} (h : Copied buf_len value s) (hlen : 0 < buf_len)
    (hch : ch ≠ SPACE) : ∃ s', bufCopy buf_len ch s = some s' ∧ s'.state = s.state ∧
      Copied buf_len (value ++ [ch]) s' := by
  have hn := h.n
  have hbuffer := h.buffer
  have hold : ∀ i < value.length, (value ++ [ch]).getD i 0 = value.getD i 0 :=
    fun i hi => List.getD_append _ _ _ _ hi
  rw [bufCopy, if_neg hch]
  by_cases hroom : s.n + 1 < buf_len
  · have hlast : s.buffer = value.length := by omega
    have hwrite : s.buf.write buf_len s.buffer ch = some (Function.update s.buf s.buffer (some ch)) :=
      if_pos (by omega)
    rw [if_pos hroom, hwrite]
    refine ⟨_, rfl, rfl, ?_, ?_, ?_⟩
    · rw [List.length_append, hn]
      rfl
    · rw [List.length_append, List.length_singleton]
      dsimp only
      omega
    · intro i hi
      dsimp only at hi ⊢
      by_cases hi' : i = s.buffer
      · rw [hi', Function.update_self, hlast, List.getD_append_right _ _ _ _ (Nat.le_refl _),
          Nat.sub_self]
        rfl
      · rw [Function.update_of_ne hi', h.filled i (by omega), hold i (by omega)]
  · rw [if_neg hroom]
    refine ⟨_, rfl, rfl, ?_, ?_, ?_⟩
    · rw [List.length_append, hn]
      rfl
    · rw [List.length_append, List.length_singleton]
      dsimp only
      omega
    · intro i hi
      dsimp only at hi ⊢
      rw [h.filled i hi, hold i (by omega)]

/-- The rest of a value is copied, and the terminator with it if it follows. -/
theorem copy_run (option : CString) {rest value : List UInt8} (hrest : Behind rest) (hlen : 0 < buf_len)
    (hseg : SPACE ∉ seg) (hnul : 0 ∉ seg) (hstate : s.state = .ST_BUFCOPY)
    (h : Copied buf_len value s) :
    ∃ s', scanText option buf_len (seg ++ rest) s = scanBehind option buf_len rest s' ∧
      (rest = [0] → Copied buf_len (value ++ seg ++ [0]) s') ∧
      (rest ≠ [0] → s'.state = .ST_WORDSTART ∧ Copied buf_len (value ++ seg) s') := by
  induction seg generalizing s value with
  | nil =>
      rw [List.append_nil, List.nil_append]
      obtain rfl | ⟨text, rfl⟩ := hrest
      · obtain ⟨s', hcopy, -, hcopied⟩ := h.step hlen (show (0 : UInt8) ≠ SPACE by decide)
        refine ⟨s', ?_, fun _ => hcopied, fun hne => absurd rfl hne⟩
        rw [scanText, scanChar, hstate]
        dsimp only
        rw [hcopy]
        rfl
      · refine ⟨{ s with state := .ST_WORDSTART }, ?_, by rintro ⟨⟩, fun _ => ⟨rfl, h.n, h.buffer, h.filled⟩⟩
        rw [scanText, scanChar, hstate]
        rfl
  | cons c seg ih =>
      have hc : c ≠ SPACE := fun h => hseg (h ▸ List.mem_cons_self)
      have hc' : c ≠ 0 := fun h => hnul (h ▸ List.mem_cons_self)
      obtain ⟨s₁, hcopy, hstate₁, hcopied⟩ := h.step hlen hc
      have hstep : scanChar option buf_len c s = some (.again s₁) := by
        rw [scanChar, hstate]
        dsimp only
        rw [hcopy]
        rfl
      obtain ⟨s', hrun, hend, hmore⟩ := ih (fun h => hseg (List.mem_cons_of_mem c h))
        (fun h => hnul (List.mem_cons_of_mem c h)) (hstate₁.trans hstate) hcopied
      rw [List.cons_append, scanText_again hc' hstep]
      simp only [List.append_assoc, List.singleton_append] at hend hmore ⊢
      exact ⟨s', hrun, hend, hmore⟩

/-- How a word compares with what is left of the option. -/
inductive Compares (option : CString) (buf_len : ℕ) (rest : List UInt8) (s : Scan) :
    (op seg : List UInt8) → Prop
  | boolean {op : List UInt8}
      (hrun : scanText option buf_len (op ++ rest) s = some (.leave s.buf)) :
      Compares option buf_len rest s op op
  | value {op v : List UInt8} {s' : Scan}
      (hrun : scanText option buf_len ((op ++ EQUALS :: v) ++ rest) s =
        scanText option buf_len (v ++ rest) s')
      (hstate : s'.state = .ST_BUFCOPY) (hcopied : Copied buf_len [] s') :
      Compares option buf_len rest s op (op ++ EQUALS :: v)
  | other {op seg : List UInt8} {s' : Scan} (hne : seg ≠ op)
      (hnone : ∀ v, seg ≠ op ++ EQUALS :: v)
      (hrun : scanText option buf_len (seg ++ rest) s = scanBehind option buf_len rest s')
      (hpassed : Passed rest s s') : Compares option buf_len rest s op seg

theorem scanChar_cmp (hstate : s.state = .ST_WORDCMP) (ch : UInt8) :
    scanChar option buf_len ch s = some (wordCmp ch s) := by
  rw [scanChar, hstate]

/-- A word that has parted from the option. -/
theorem parted_run {rest : List UInt8} {c : UInt8} {s₁ : Scan} (hrest : Behind rest)
    (hseg : SPACE ∉ c :: seg) (hnul : 0 ∉ c :: seg)
    (hstep : scanChar option buf_len c s = some (.again (wordSkip c s₁)))
    (hn : s₁.n = s.n) (hbuffer : s₁.buffer = s.buffer) (hbuf : s₁.buf = s.buf) :
    ∃ s', scanText option buf_len ((c :: seg) ++ rest) s = scanBehind option buf_len rest s' ∧
      Passed rest s s' := by
  have hc : c ≠ SPACE := fun h => hseg (h ▸ List.mem_cons_self)
  have hc' : c ≠ 0 := fun h => hnul (h ▸ List.mem_cons_self)
  obtain ⟨s', hrun, hpassed⟩ := skip_run option buf_len hrest
    (fun h => hseg (List.mem_cons_of_mem c h)) (fun h => hnul (List.mem_cons_of_mem c h))
    (show (wordSkip c s₁).state = .ST_WORDSKIP from if_neg hc)
  rw [List.cons_append, scanText_again hc' hstep]
  exact ⟨s', hrun, hpassed.n.trans hn, hpassed.buffer.trans hbuffer, hpassed.buf.trans hbuf,
    hpassed.state⟩

theorem compare_run (option : CString) (buf_len : ℕ) {rest op : List UInt8} (hrest : Behind rest) (hseg : SPACE ∉ seg)
    (hnul : 0 ∉ seg) (hop : SPACE ∉ op ∧ 0 ∉ op) (hstate : s.state = .ST_WORDCMP) (hsop : s.op = op) :
    Compares option buf_len rest s op seg := by
  induction op generalizing s seg with
  | nil =>
      cases seg with
      | nil =>
          refine .boolean ?_
          obtain rfl | ⟨text, rfl⟩ := hrest
          · rw [List.nil_append, scanText, scanChar_cmp hstate, wordCmp, hsop]
            rfl
          · rw [List.nil_append, scanText, scanChar_cmp hstate, wordCmp, hsop]
            rfl
      | cons c seg =>
          have hc : c ≠ SPACE := fun h => hseg (h ▸ List.mem_cons_self)
          have hc' : c ≠ 0 := fun h => hnul (h ▸ List.mem_cons_self)
          by_cases heq : c = EQUALS
          · subst heq
            have hstep : scanChar option buf_len EQUALS s =
                some (.again { s with n := 0, buffer := 0, state := .ST_BUFCOPY }) := by
              rw [scanChar_cmp hstate, wordCmp, hsop]
              rfl
            exact .value (scanText_again hc' hstep) rfl
              ⟨rfl, (Nat.zero_min _).symm, fun i hi => absurd hi (Nat.not_lt_zero i)⟩
          · have hstep : scanChar option buf_len c s = some (.again (wordSkip c s)) := by
              rw [scanChar_cmp hstate, wordCmp, hsop]
              dsimp only
              rw [if_neg heq, if_neg (not_or.mpr ⟨hc, hc'⟩)]
            obtain ⟨s', hrun, hpassed⟩ := parted_run hrest hseg hnul hstep rfl rfl rfl
            exact .other (List.cons_ne_nil c seg) (fun v h => heq (List.cons.inj h).1) hrun hpassed
  | cons a op ih =>
      have ha : a ≠ SPACE := fun h => hop.1 (h ▸ List.mem_cons_self)
      have ha' : a ≠ 0 := fun h => hop.2 (h ▸ List.mem_cons_self)
      have hstep : ∀ c, scanChar option buf_len c s = some (if c = a
          then .again { s with state := .ST_WORDCMP, op } else .again (wordSkip c { s with op })) := by
        intro c
        rw [scanChar_cmp hstate, wordCmp, hsop]
      cases seg with
      | nil =>
          have hne : ([] : List UInt8) ≠ a :: op := (List.cons_ne_nil a op).symm
          have hnone : ∀ v, ([] : List UInt8) ≠ (a :: op) ++ EQUALS :: v := fun v h => by cases h
          obtain rfl | ⟨text, rfl⟩ := hrest
          · have hrun : scanText option buf_len ([] ++ [0]) s =
                scanBehind option buf_len [0] (wordSkip 0 { s with op }) := by
              rw [List.nil_append, scanText, hstep, if_neg ha'.symm]
              rfl
            exact .other hne hnone hrun ⟨rfl, rfl, rfl, fun h => absurd rfl h⟩
          · have hrun : scanText option buf_len ([] ++ SPACE :: text) s =
                scanBehind option buf_len (SPACE :: text) (wordSkip SPACE { s with op }) := by
              rw [List.nil_append, scanText, hstep, if_neg ha.symm]
              rfl
            exact .other hne hnone hrun ⟨rfl, rfl, rfl, fun _ => rfl⟩
      | cons c seg =>
          have hc' : c ≠ 0 := fun h => hnul (h ▸ List.mem_cons_self)
          by_cases hca : c = a
          · subst hca
            have hgo : scanChar option buf_len c s =
                some (.again { s with state := .ST_WORDCMP, op }) := by
              rw [hstep, if_pos rfl]
            have hrest' := ih (s := { s with state := .ST_WORDCMP, op })
              (fun h => hseg (List.mem_cons_of_mem c h)) (fun h => hnul (List.mem_cons_of_mem c h))
              ⟨fun h => hop.1 (List.mem_cons_of_mem c h), fun h => hop.2 (List.mem_cons_of_mem c h)⟩
              rfl rfl
            have hmove : ∀ {t}, scanText option buf_len (c :: t) s =
                scanText option buf_len t { s with state := .ST_WORDCMP, op } :=
              scanText_again hc' hgo
            cases hrest' with
            | boolean hrun => exact .boolean (hmove.trans hrun)
            | value hrun hstate hcopied => exact .value (hmove.trans hrun) hstate hcopied
            | other hne hnone hrun hpassed =>
                exact .other (fun h => hne (List.cons.inj h).2)
                  (fun v h => hnone v (List.cons.inj h).2) (hmove.trans hrun)
                  ⟨hpassed.n, hpassed.buffer, hpassed.buf, hpassed.state⟩
          · have hgo : scanChar option buf_len c s = some (.again (wordSkip c { s with op })) := by
              rw [hstep, if_neg hca]
            obtain ⟨s', hrun, hpassed⟩ := parted_run hrest hseg hnul hgo rfl rfl rfl
            exact .other (fun h => hca (List.cons.inj h).1) (fun v h => hca (List.cons.inj h).1)
              hrun hpassed

/-! ## Segment after segment -/

theorem valueOf_value (op v : List UInt8) : valueOf op (op ++ EQUALS :: v) = some v := by
  have happend : op ++ EQUALS :: v = (op ++ [EQUALS]) ++ v := by simp
  rw [valueOf, happend, if_pos (List.prefix_append _ v), List.drop_left' (by simp)]

theorem valueOf_none {op seg : List UInt8} (h : ∀ v, seg ≠ op ++ EQUALS :: v) :
    valueOf op seg = none := by
  refine if_neg ?_
  rintro ⟨v, rfl⟩
  exact h v (by simp)

/-- What the scan has kept: the last value that it has come across, if any. -/
def Keeps (buf_len : ℕ) (s : Scan) : Option (List UInt8) → Prop
  | none => s.n = -1 ∧ s.buffer = 0
  | some value => Copied buf_len value s

theorem Keeps.passed {rest : List UInt8} {s' : Scan} {kept : Option (List UInt8)}
    (h : Keeps buf_len s kept) (hpassed : Passed rest s s') : Keeps buf_len s' kept := by
  cases kept with
  | none => exact ⟨hpassed.n.trans h.1, hpassed.buffer.trans h.2⟩
  | some value =>
      exact ⟨hpassed.n.trans h.n, hpassed.buffer.trans h.buffer, fun i hi => by
        rw [hpassed.buf]
        exact h.filled i (hpassed.buffer ▸ hi)⟩

/-- What is kept at the end of the line, where the terminator goes with a value. -/
def atEnd (value kept : Option (List UInt8)) : Option (List UInt8) :=
  match value with
  | some value => some (value ++ [0])
  | none => kept

/-- What one segment does to the scan. -/
theorem segment_run (option : CString) {rest : List UInt8} {kept : Option (List UInt8)} (hrest : Behind rest)
    (hlen : 0 < buf_len) (hoption : option.chars ≠ [] ∧ SPACE ∉ option.chars)
    (hseg : SPACE ∉ seg) (hnul : 0 ∉ seg) (hstate : s.state = .ST_WORDSTART)
    (hkeeps : Keeps buf_len s kept) :
    (seg = option.chars → ∃ buf, scanText option buf_len (seg ++ rest) s = some (.leave buf)) ∧
      (seg ≠ option.chars → ∃ s',
        scanText option buf_len (seg ++ rest) s = scanBehind option buf_len rest s' ∧
        (rest = [0] → Keeps buf_len s' (atEnd (valueOf option.chars seg) kept)) ∧
        (rest ≠ [0] → s'.state = .ST_WORDSTART ∧
          Keeps buf_len s' ((valueOf option.chars seg).or kept))) := by
  obtain ⟨a, op, hop⟩ := List.exists_cons_of_ne_nil hoption.1
  cases seg with
  | nil =>
      refine ⟨fun h => absurd h.symm hoption.1, fun _ => ?_⟩
      have hnone : valueOf option.chars [] = none := valueOf_none fun v h => by
        rw [hop] at h
        cases h
      rw [hnone]
      have ha : (0 : UInt8) ≠ a := fun h => option.noNul (hop ▸ h ▸ List.mem_cons_self)
      obtain rfl | ⟨text, rfl⟩ := hrest
      · refine ⟨wordSkip 0 { s with op }, ?_, fun _ => ?_, fun h => absurd rfl h⟩
        · rw [List.nil_append, scanText, scanChar, hstate]
          dsimp only
          rw [if_neg (by decide), wordCmp, hop]
          dsimp only
          rw [if_neg ha]
          rfl
        · exact hkeeps.passed (show Passed [0] s _ from ⟨rfl, rfl, rfl, fun h => absurd rfl h⟩)
      · refine ⟨s, ?_, by rintro ⟨⟩, fun _ => ⟨hstate, hkeeps⟩⟩
        rw [List.nil_append, scanText, scanChar, hstate]
        rfl
  | cons c seg =>
      have hc : c ≠ SPACE := fun h => hseg (h ▸ List.mem_cons_self)
      -- the first character is compared at once
      have hstart : ∀ t, scanText option buf_len (c :: t) s =
          scanText option buf_len (c :: t) { s with state := .ST_WORDCMP, op := option.chars } := by
        intro t
        rw [scanText, scanText, scanChar, hstate]
        dsimp only
        rw [if_neg hc]
        rfl
      rw [List.cons_append, hstart, ← List.cons_append]
      have hcompares := compare_run option buf_len
        (s := { s with state := .ST_WORDCMP, op := option.chars }) hrest hseg hnul
        ⟨hoption.2, option.noNul⟩ rfl rfl
      generalize c :: seg = seg at *
      cases hcompares with
      | boolean hrun => exact ⟨fun _ => ⟨_, hrun⟩, fun h => absurd rfl h⟩
      | @value v s' hrun hstate' hcopied =>
          have hv : ∀ x ∈ v, x ∈ option.chars ++ EQUALS :: v := fun x hx =>
            List.mem_append_right _ (List.mem_cons_of_mem _ hx)
          obtain ⟨last, hcopy, hend, hmore⟩ := copy_run option hrest hlen
            (fun h => hseg (hv _ h)) (fun h => hnul (hv _ h)) hstate' hcopied
          refine ⟨fun h => ?_, fun _ => ⟨last, hrun.trans hcopy, ?_, ?_⟩⟩
          · have hshort := congrArg List.length h
            rw [List.length_append, List.length_cons] at hshort
            omega
          · intro h
            rw [valueOf_value]
            exact hend h
          · intro h
            rw [valueOf_value]
            exact hmore h
      | other hne hnone hrun hpassed =>
          refine ⟨fun h => absurd h hne, fun _ => ⟨_, hrun, fun _ => ?_, fun h => ?_⟩⟩
          · rw [valueOf_none hnone]
            exact Keeps.passed (s := s) hkeeps ⟨hpassed.n, hpassed.buffer, hpassed.buf, hpassed.state⟩
          · rw [valueOf_none hnone]
            exact ⟨hpassed.state h, Keeps.passed (s := s) hkeeps
              ⟨hpassed.n, hpassed.buffer, hpassed.buf, hpassed.state⟩⟩

/-- What is kept once all segments of a line have been scanned. -/
def keptOf (op : List UInt8) (kept : Option (List UInt8)) :
    List (List UInt8) → Option (List UInt8)
  | [] => kept
  | [seg] => atEnd (valueOf op seg) kept
  | seg :: next :: segs => keptOf op ((valueOf op seg).or kept) (next :: segs)

theorem line_run {segs : List (List UInt8)} {kept : Option (List UInt8)} (hlen : 0 < buf_len)
    (hoption : option.chars ≠ [] ∧ SPACE ∉ option.chars) (hsegs : segs ≠ [])
    (hclean : ∀ seg ∈ segs, SPACE ∉ seg ∧ 0 ∉ seg) (hstate : s.state = .ST_WORDSTART)
    (hkeeps : Keeps buf_len s kept) :
    (option.chars ∈ segs → ∃ buf,
        scanText option buf_len ([SPACE].intercalate segs ++ [0]) s = some (.leave buf)) ∧
      (option.chars ∉ segs → ∃ s',
        scanText option buf_len ([SPACE].intercalate segs ++ [0]) s = some (.again s') ∧
        Keeps buf_len s' (keptOf option.chars kept segs)) := by
  induction segs generalizing s kept with
  | nil => exact absurd rfl hsegs
  | cons seg segs ih =>
      obtain ⟨hspace, hnul⟩ := hclean seg List.mem_cons_self
      cases segs with
      | nil =>
          obtain ⟨hfound, hpassed⟩ := segment_run option (Or.inl rfl) hlen hoption
            hspace hnul hstate hkeeps
          rw [List.intercalate_singleton, List.mem_singleton]
          refine ⟨fun h => hfound h.symm, fun h => ?_⟩
          obtain ⟨s', hrun, hend, -⟩ := hpassed (Ne.symm h)
          exact ⟨s', hrun, hend rfl⟩
      | cons next segs =>
          obtain ⟨hfound, hpassed⟩ := segment_run option
            (show Behind (SPACE :: ([SPACE].intercalate (next :: segs) ++ [0])) from Or.inr ⟨_, rfl⟩)
            hlen hoption hspace hnul hstate hkeeps
          rw [List.intercalate_cons_cons, List.append_assoc, List.append_assoc]
          by_cases heq : seg = option.chars
          · exact ⟨fun _ => hfound heq, fun h => absurd (heq ▸ List.mem_cons_self) h⟩
          · obtain ⟨s', hrun, -, hmore⟩ := hpassed heq
            obtain ⟨hstate', hkeeps'⟩ := hmore nofun
            obtain ⟨hleave, hagain⟩ := ih (List.cons_ne_nil next segs)
              (fun seg hseg => hclean seg (List.mem_cons_of_mem _ hseg)) hstate' hkeeps'
            refine ⟨fun h => ?_, fun h => ?_⟩
            · obtain ⟨buf, hbuf⟩ := hleave ((List.mem_cons.mp h).resolve_left (Ne.symm heq))
              exact ⟨buf, hrun.trans hbuf⟩
            · obtain ⟨last, hlast, hkept⟩ := hagain fun hmem => h (List.mem_cons_of_mem seg hmem)
              exact ⟨last, hrun.trans hlast, hkept⟩

end Scanning

/-- Where the line does not end with a value of the option, the last value is kept. -/
theorem keptOf_eq {op : List UInt8} {segs : List (List UInt8)} (hsegs : segs ≠ [])
    (kept : Option (List UInt8)) (hlast : ∀ seg ∈ segs.getLast?, valueOf op seg = none) :
    keptOf op kept segs = (segs.filterMap (valueOf op)).getLast?.or kept := by
  induction segs generalizing kept with
  | nil => exact absurd rfl hsegs
  | cons seg segs ih =>
      cases segs with
      | nil =>
          have hnone := hlast seg rfl
          rw [keptOf, List.filterMap_cons_none hnone, hnone]
          rfl
      | cons next segs =>
          rw [keptOf, ih (List.cons_ne_nil _ _) _ (by rwa [List.getLast?_cons_cons] at hlast)]
          cases hseg : valueOf op seg with
          | none => rw [List.filterMap_cons_none hseg, Option.none_or]
          | some value =>
              rw [List.filterMap_cons_some hseg, List.getLast?_cons]
              cases ((next :: segs).filterMap (valueOf op)).getLast? <;> rfl

/-- Otherwise that value is kept, with the terminator. -/
theorem keptOf_value {op value : List UInt8} {segs : List (List UInt8)}
    (kept : Option (List UInt8))
    (hlast : ∃ seg ∈ segs.getLast?, valueOf op seg = some value) :
    keptOf op kept segs = some (value ++ [0]) := by
  induction segs generalizing kept with
  | nil =>
      obtain ⟨seg, hseg, -⟩ := hlast
      cases hseg
  | cons seg segs ih =>
      cases segs with
      | nil =>
          obtain ⟨seg', hseg, hvalue⟩ := hlast
          obtain rfl : seg = seg' := Option.some.inj hseg
          rw [keptOf, hvalue]
          rfl
      | cons next segs =>
          rw [keptOf]
          exact ih _ (by rwa [List.getLast?_cons_cons] at hlast)

/-! ## The whole line -/

/-- A segment has no blank, and no character that the line does not have. -/
theorem segment_clean {line seg : List UInt8} (hseg : seg ∈ line.splitOn SPACE) :
    SPACE ∉ seg ∧ ∀ ch ∈ seg, ch ∈ line := by
  induction line generalizing seg with
  | nil =>
      rw [List.splitOn_nil, List.mem_singleton] at hseg
      subst hseg
      exact ⟨List.not_mem_nil, fun ch hch => hch⟩
  | cons c line ih =>
      rw [List.splitOn_cons_eq_if_modifyHead] at hseg
      split at hseg
      · obtain rfl | hseg := List.mem_cons.mp hseg
        · exact ⟨List.not_mem_nil, fun ch hch => absurd hch List.not_mem_nil⟩
        · exact ⟨(ih hseg).1, fun ch hch => List.mem_cons_of_mem c ((ih hseg).2 ch hch)⟩
      · rename_i hc
        obtain ⟨head, tail, hsplit⟩ := List.exists_cons_of_ne_nil (List.splitOn_ne_nil SPACE line)
        rw [hsplit, List.modifyHead_cons] at hseg
        obtain rfl | hseg := List.mem_cons.mp hseg
        · obtain ⟨hspace, hold⟩ := ih (hsplit ▸ List.mem_cons_self)
          refine ⟨fun h => ?_, fun ch hch => ?_⟩
          · obtain h | h := List.mem_cons.mp h
            · exact hc (by simp [h])
            · exact hspace h
          · obtain h | h := List.mem_cons.mp hch
            · exact h ▸ List.mem_cons_self
            · exact List.mem_cons_of_mem c (hold ch h)
        · obtain ⟨hspace, hold⟩ := ih (hsplit ▸ List.mem_cons_of_mem head hseg)
          exact ⟨hspace, fun ch hch => List.mem_cons_of_mem c (hold ch hch)⟩

/-- Nothing between two blanks is no word and gives nothing a value. -/
theorem lastValue_eq (op line : List UInt8) :
    lastValue op line = ((line.splitOn SPACE).filterMap (valueOf op)).getLast? := by
  rw [lastValue, words, List.filterMap_filter]
  congr 1
  refine List.filterMap_congr fun seg _ => ?_
  by_cases hseg : seg = []
  · subst hseg
    rw [if_neg (by simp)]
    exact (valueOf_none fun v h => by simp at h).symm
  · rw [if_pos (by simpa using hseg)]

/-- What is returned, and what the buffer holds. -/
theorem rawParamGetOption_kept {line option : CString} {buf_len : ℕ}
    (hlen : line.chars.length < COMMAND_LINE_SIZE) (hbuf : 0 < buf_len)
    (hoption : option.chars ≠ [] ∧ SPACE ∉ option.chars) :
    (option.chars ∈ line.chars.splitOn SPACE → ∃ buf,
        rawParamGetOption option buf_len (some line.chars) COMMAND_LINE_SIZE = some (-2, buf)) ∧
      (option.chars ∉ line.chars.splitOn SPACE → ∃ n buf,
        rawParamGetOption option buf_len (some line.chars) COMMAND_LINE_SIZE = some (n, buf) ∧
        match keptOf option.chars none (line.chars.splitOn SPACE) with
        | some value => n = value.length ∧ HoldsValue buf_len value buf
        | none => n = -1) := by
  have hclean : ∀ seg ∈ line.chars.splitOn SPACE, SPACE ∉ seg ∧ 0 ∉ seg := fun seg hseg =>
    ⟨(segment_clean hseg).1, fun h => line.noNul ((segment_clean hseg).2 0 h)⟩
  obtain ⟨hleave, hagain⟩ := line_run (s := ⟨.ST_WORDSTART, [], -1, 0, fun _ => none⟩)
    hbuf hoption (List.splitOn_ne_nil SPACE line.chars) hclean rfl
    (show Keeps buf_len _ none from ⟨rfl, rfl⟩)
  have hrun : scanLoop option buf_len line.chars (max COMMAND_LINE_SIZE 1) 0
      ⟨.ST_WORDSTART, [], -1, 0, fun _ => none⟩ =
      scanText option buf_len ([SPACE].intercalate (line.chars.splitOn SPACE) ++ [0])
        ⟨.ST_WORDSTART, [], -1, 0, fun _ => none⟩ := by
    rw [max_COMMAND_LINE_SIZE, List.intercalate_splitOn, scanLoop_eq line.noNul (by omega),
      List.drop_zero]
  refine ⟨fun h => ?_, fun h => ?_⟩
  · obtain ⟨buf, hscan⟩ := hleave h
    refine ⟨buf, ?_⟩
    rw [rawParamGetOption, hrun, hscan]
    rfl
  · obtain ⟨s, hscan, hkeeps⟩ := hagain h
    have hroom : s.buffer < buf_len := by
      revert hkeeps
      cases keptOf option.chars none (line.chars.splitOn SPACE) with
      | none => exact fun hkeeps => hkeeps.2 ▸ hbuf
      | some value =>
          intro hkeeps
          have hbuffer := hkeeps.buffer
          omega
    refine ⟨s.n, Function.update s.buf s.buffer (some 0), ?_, ?_⟩
    · rw [rawParamGetOption, hrun, hscan]
      dsimp only [Option.bind_eq_bind, Option.bind_some]
      rw [if_pos (by omega), Buffer.write, if_pos hroom]
      rfl
    · revert hkeeps
      cases keptOf option.chars none (line.chars.splitOn SPACE) with
      | none => exact fun hkeeps => hkeeps.1
      | some value =>
          intro hkeeps
          refine ⟨hkeeps.n, fun i hi => ?_, ?_⟩
          · rw [← hkeeps.buffer] at hi
            rw [Function.update_of_ne (Nat.ne_of_lt hi), hkeeps.filled i hi]
          · rw [← hkeeps.buffer, Function.update_self]

theorem mem_words {op line : List UInt8} (hop : op ≠ []) :
    op ∈ words line ↔ op ∈ line.splitOn SPACE := by
  rw [words, List.mem_filter]
  exact and_iff_left (by simpa using hop)

/-- The terminator behind the value that ends the line is counted as one of its characters. -/
theorem not_findsOption {line option : CString} {buf_len : ℕ}
    (hlen : line.chars.length < COMMAND_LINE_SIZE) (hbuf : 0 < buf_len)
    (hoption : option.chars ≠ [] ∧ SPACE ∉ option.chars) (hword : option.chars ∉ words line.chars)
    (hlast : EndsWithValue line.chars option.chars) : ¬ FindsOption line option buf_len := by
  rintro ⟨n', buf', hrun', hfound⟩
  obtain ⟨seg, hseg, hvalue⟩ := hlast
  obtain ⟨value, hvalue⟩ := Option.isSome_iff_exists.mp hvalue
  obtain ⟨n, buf, hrun, hkept⟩ := (rawParamGetOption_kept hlen hbuf hoption).2
    fun h => hword ((mem_words hoption.1).mpr h)
  rw [hrun] at hrun'
  cases hrun'
  rw [keptOf_value none ⟨seg, hseg, hvalue⟩] at hkept
  obtain ⟨before, hbefore⟩ := List.getLast?_eq_some_iff.mp hseg
  rw [if_neg hword, lastValue_eq, hbefore, List.filterMap_append,
    List.filterMap_cons_some hvalue, List.filterMap_nil, List.getLast?_append,
    List.getLast?_singleton, Option.some_or] at hfound
  have hlength := hkept.1.symm.trans hfound.1
  rw [List.length_append, List.length_singleton] at hlength
  omega

/-- The option is found if it is a word by itself, or if its value does not end the line:
otherwise the terminator is counted as a character of the value. -/
theorem findsOption_iff {line option : CString} {buf_len : ℕ}
    (hlen : line.chars.length < COMMAND_LINE_SIZE)
    (hoption : option.chars ≠ [] ∧ SPACE ∉ option.chars ∧ EQUALS ∉ option.chars)
    (hbuf : 0 < buf_len) :
    FindsOption line option buf_len ↔
      option.chars ∈ words line.chars ∨ ¬ EndsWithValue line.chars option.chars := by
  constructor
  · intro h
    by_contra hnot
    rw [not_or, not_not] at hnot
    exact not_findsOption hlen hbuf ⟨hoption.1, hoption.2.1⟩ hnot.1 hnot.2 h
  · intro h
    obtain ⟨hleave, hagain⟩ := rawParamGetOption_kept hlen hbuf ⟨hoption.1, hoption.2.1⟩
    by_cases hword : option.chars ∈ words line.chars
    · obtain ⟨buf, hrun⟩ := hleave ((mem_words hoption.1).mp hword)
      refine ⟨-2, buf, hrun, ?_⟩
      rw [if_pos hword]
    · obtain ⟨n, buf, hrun, hkept⟩ := hagain fun h => hword ((mem_words hoption.1).mpr h)
      refine ⟨n, buf, hrun, ?_⟩
      have hlast : ∀ seg ∈ (line.chars.splitOn SPACE).getLast?,
          valueOf option.chars seg = none := by
        intro seg hseg
        by_contra hvalue
        exact h.resolve_left hword ⟨seg, hseg, Option.isSome_iff_ne_none.mpr hvalue⟩
      rw [if_neg hword, lastValue_eq]
      rwa [keptOf_eq (List.splitOn_ne_nil SPACE _) none hlast, Option.or_none] at hkept

/-- `a=b c`, and `a=b`. -/
def valueAndWord : CString := ⟨[0x61, 0x3d, 0x62, 0x20, 0x63], by decide⟩

def valueAlone : CString := ⟨[0x61, 0x3d, 0x62], by decide⟩

theorem findsOption_iff_valueAndWord : FindsOption valueAndWord ⟨[0x61], by decide⟩ 8 ↔
    [0x61] ∈ words valueAndWord.chars ∨ ¬ EndsWithValue valueAndWord.chars [0x61] :=
  findsOption_iff (by decide) (by decide) (by decide)

theorem not_findsOption_valueAlone : ¬ FindsOption valueAlone ⟨[0x61], by decide⟩ 8 :=
  not_findsOption (by decide) (by decide) (by decide) (by decide)
    ⟨[0x61, 0x3d, 0x62], by decide, by decide⟩

end Cyanea.Init
