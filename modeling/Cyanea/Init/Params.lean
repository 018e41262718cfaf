/-
# Options on the command line

The model of `__param_get_option` and `param_get_option` in `ukernel/params.c` and of
`do_param` in `init/main.c`. The command line is a list of bytes that are read as NUL past
its end. Of the result buffer only what the current call writes is kept, since nothing
reads what was there before; a write outside of it has no result.
-/

import Cyanea.Errno
import Cyanea.Text
import Cyanea.Math.Simulation
import Mathlib.Data.Int.Notation
import Mathlib.Logic.Function.Basic

namespace Cyanea.Init

open Math.Simulation (Turn)

def COMMAND_LINE_SIZE : ℕ := 2048

/-- `' '`. -/
def SPACE : UInt8 := 0x20

/-- `'='`. -/
def EQUALS : UInt8 := 0x3d

/-- What a call has written to the buffer so far. -/
abbrev Buffer := ℕ → Option UInt8

/-- `buf[i] = ch`. -/
def Buffer.write (buf : Buffer) (buf_len i : ℕ) (ch : UInt8) : Option Buffer :=
  if i < buf_len then some (Function.update buf i (some ch)) else none

inductive State
  /-- Start of word after a whitespace. -/
  | ST_WORDSTART
  /-- Search for the option -- compare word. -/
  | ST_WORDCMP
  /-- Skip the word. -/
  | ST_WORDSKIP
  /-- Copying option's value to buffer. -/
  | ST_BUFCOPY
  deriving DecidableEq, Repr

/-- The variables of the loop; `buffer` is an offset into `buf`, and `op` is what the
option still has to be compared with. -/
structure Scan where
  state : State
  op : List UInt8
  n : ℤ
  buffer : ℕ
  buf : Buffer

section Scanning

variable (option : CString) (buf_len : ℕ)

/-- `case ST_WORDSKIP`. -/
def wordSkip (ch : UInt8) (s : Scan) : Scan :=
  { s with state := if ch = SPACE then .ST_WORDSTART else .ST_WORDSKIP }

/-- `case ST_WORDCMP`, which leaves the loop at an option that has no value. -/
def wordCmp (ch : UInt8) (s : Scan) : Turn Scan Buffer :=
  match s.op with
  | [] =>
      if ch = EQUALS then
        .again { s with n := 0, buffer := 0, state := .ST_BUFCOPY }
      else if ch = SPACE ∨ ch = 0 then
        .leave s.buf
      else
        .again (wordSkip ch s)
  | first :: op =>
      if ch = first then
        .again { s with state := .ST_WORDCMP, op }
      else
        .again (wordSkip ch { s with op })

/-- `case ST_BUFCOPY`. -/
def bufCopy (ch : UInt8) (s : Scan) : Option Scan :=
  if ch = SPACE then
    some { s with state := .ST_WORDSTART }
  else if s.n + 1 < buf_len then do
    let buf ← s.buf.write buf_len s.buffer ch
    return { s with n := s.n + 1, buffer := s.buffer + 1, buf }
  else
    some { s with n := s.n + 1 }

/-- The `switch` of the loop. -/
def scanChar (ch : UInt8) (s : Scan) : Option (Turn Scan Buffer) :=
  match s.state with
  | .ST_WORDSTART =>
      if ch = SPACE then
        some (.again s)
      else
        some (wordCmp ch { s with state := .ST_WORDCMP, op := option.chars })
  | .ST_WORDCMP => some (wordCmp ch s)
  | .ST_WORDSKIP => some (.again (wordSkip ch s))
  | .ST_BUFCOPY => (bufCopy buf_len ch s).map .again

/-- The loop from `cmdline[i]` on, over at most `left` characters. -/
def scanLoop (cmdline : List UInt8) : (left i : ℕ) → Scan → Option (Turn Scan Buffer)
  | 0, _, s => some (.again s)
  | left + 1, i, s =>
      let ch := cmdline.getD i 0
      match scanChar option buf_len ch s with
      | some (.again s) =>
          if ch = 0 then some (.again s) else scanLoop cmdline left (i + 1) s
      | result => result

/-- `__param_get_option`, for a buffer that the call has not written to. -/
def rawParamGetOption (cmdline : Option (List UInt8)) (cmdline_len : ℕ) :
    Option (ℤ × Buffer) :=
  match cmdline with
  | none => some (-1, fun _ => none)
  | some cmdline => do
      let start := ⟨.ST_WORDSTART, [], -1, 0, fun _ => none⟩
      -- the loop is entered before its condition is tested
      match ← scanLoop option buf_len cmdline (max cmdline_len 1) 0 start with
      | .leave buf => return (-2, buf)
      | .again s =>
          if buf_len ≠ 0 then
            return (s.n, ← s.buf.write buf_len s.buffer 0)
          else
            return (s.n, s.buf)

/-- What is returned, and what has been written to `buf`. -/
def paramGetOption (cmdline : Option (List UInt8)) : Option (ℤ × Buffer) := do
  let (err, buf) ← rawParamGetOption option buf_len cmdline COMMAND_LINE_SIZE
  if err = -2 then
    return (0, buf)
  else if err = -1 then
    return (-EINVAL, buf)
  else
    return (err, buf)

end Scanning

/-- `struct setup_param`. -/
structure SetupParam (H : Type) where
  param : CString
  setup_func : H
  early : ℤ

/-- The handlers that `do_param` calls, each with the contents of `param`, as far as they
were written for it. -/
def doParam {H : Type} (boot_command_line : List UInt8) (early : ℤ) :
    List (SetupParam H) → Option (List (H × Buffer))
  | [] => some []
  | p :: setup =>
      if p.early ≠ early then
        doParam boot_command_line early setup
      else do
        let (err, param) ← paramGetOption p.param 64 boot_command_line
        let calls ← doParam boot_command_line early setup
        return if err < 0 then calls else (p.setup_func, param) :: calls

/-! ## What a caller relies on -/

/-- There is a string in `buf[0..buf_len)`, with its terminator, that the call has
written. -/
def HoldsString (buf_len : ℕ) (buf : Buffer) : Prop :=
  ∃ k < buf_len, (∀ i < k, ∃ ch, buf i = some ch) ∧ buf k = some 0

/-- The call stays inside its buffer, and where it reports no error, there is a string. -/
def DeliversString (option : CString) (buf_len : ℕ) (cmdline : Option (List UInt8)) : Prop :=
  ∃ err buf, paramGetOption option buf_len cmdline = some (err, buf) ∧
    (0 ≤ err → HoldsString buf_len buf)

/-- No write goes astray, and every handler that is called is handed a string. -/
def HandsStrings {H : Type} (boot_command_line : List UInt8) (early : ℤ)
    (setup : List (SetupParam H)) : Prop :=
  ∃ calls, doParam boot_command_line early setup = some calls ∧
    ∀ call ∈ calls, HoldsString 64 call.2

/-- What is left of the option and of the text behind what they have in common. -/
def afterCommon : List UInt8 → List UInt8 → List UInt8 × List UInt8
  | first :: op, ch :: text =>
      if ch = first then afterCommon op text else (first :: op, ch :: text)
  | op, text => (op, text)

/-- The text behind the word that it starts in. -/
def behindWord (text : List UInt8) : List UInt8 := text.dropWhile (· ≠ SPACE)

theorem behindWord_space (text : List UInt8) :
    behindWord (SPACE :: text) = SPACE :: text := by
  simp [behindWord]

theorem behindWord_cons {ch : UInt8} (hch : ch ≠ SPACE) (text : List UInt8) :
    behindWord (ch :: text) = behindWord text := by
  simp [behindWord, hch]

theorem behindWord_length_le (text : List UInt8) :
    (behindWord text).length ≤ text.length :=
  (List.dropWhile_suffix _).length_le

theorem afterCommon_nil (text : List UInt8) : afterCommon [] text = ([], text) := by
  rw [afterCommon]
  simp

theorem afterCommon_text_nil (op : List UInt8) : afterCommon op [] = (op, []) := by
  rw [afterCommon]
  simp

theorem afterCommon_cons (first ch : UInt8) (op text : List UInt8) :
    afterCommon (first :: op) (ch :: text) =
      if ch = first then afterCommon op text else (first :: op, ch :: text) := rfl

theorem afterCommon_length_le (op text : List UInt8) :
    (afterCommon op text).2.length ≤ text.length := by
  induction op generalizing text with
  | nil => exact Nat.le_of_eq (by rw [afterCommon_nil])
  | cons first op ih =>
      cases text with
      | nil => exact Nat.le_of_eq (by rw [afterCommon_text_nil])
      | cons ch text =>
          rw [afterCommon_cons]
          by_cases hch : ch = first
          · rw [if_pos hch]
            exact Nat.le_succ_of_le (ih text)
          · exact Nat.le_of_eq (by rw [if_neg hch])

/-- A comparison takes the text on. -/
theorem behindWord_afterCommon_lt {ch : UInt8} (hch : ch ≠ SPACE) (op text : List UInt8) :
    (behindWord (afterCommon op (ch :: text)).2).length < (ch :: text).length := by
  have hskip : (behindWord (ch :: text)).length < (ch :: text).length := by
    rw [behindWord_cons hch]
    exact Nat.lt_succ_of_le (behindWord_length_le text)
  cases op with
  | nil => rwa [afterCommon_nil]
  | cons first op =>
      rw [afterCommon_cons]
      by_cases hfirst : ch = first
      · rw [if_pos hfirst]
        apply Nat.lt_succ_of_le
        exact Nat.le_trans (behindWord_length_le _) (afterCommon_length_le op text)
      · rwa [if_neg hfirst]

/-- Words are read up to the point where they part from the option. One that is all of the
option, and is not followed by a value, makes it a boolean one; of any other, the rest is
passed over. -/
def MeetsBoolean (option : List UInt8) : List UInt8 → Prop
  | [] => False
  | ch :: text =>
      if _hch : ch = SPACE then
        MeetsBoolean option text
      else
        let parted := afterCommon option (ch :: text)
        (parted.1 = [] ∧ (parted.2.head? = some SPACE ∨ parted.2.head? = some 0)) ∨
          MeetsBoolean option (behindWord parted.2)
  termination_by text => text.length
  decreasing_by
    · exact Nat.lt_succ_self _
    · exact behindWord_afterCommon_lt _hch option text

/-- The characters from `cmdline[i]` on, with the terminator if it is one of the first
`left`. -/
def visible (cmdline : List UInt8) : (left i : ℕ) → List UInt8
  | 0, _ => []
  | left + 1, i =>
      let ch := cmdline.getD i 0
      if ch = 0 then [0] else ch :: visible cmdline left (i + 1)

/-- The option stands on the command line as a word of its own. -/
def HasBoolean (cmdline : Option (List UInt8)) (option : CString) : Prop :=
  ∃ line ∈ cmdline, MeetsBoolean option.chars (visible line COMMAND_LINE_SIZE 0)

/-! ## The scan -/

/-- The option is met as a boolean one in text that is compared with `op`. -/
def MeetsFrom (option op text : List UInt8) : Prop :=
  ((afterCommon op text).1 = [] ∧
    ((afterCommon op text).2.head? = some SPACE ∨ (afterCommon op text).2.head? = some 0)) ∨
    MeetsBoolean option (behindWord (afterCommon op text).2)

theorem meetsBoolean_nil (option : List UInt8) : ¬ MeetsBoolean option [] := by
  rw [MeetsBoolean]
  exact id

theorem meetsBoolean_space (option text : List UInt8) :
    MeetsBoolean option (SPACE :: text) ↔ MeetsBoolean option text := by
  rw [MeetsBoolean, dif_pos rfl]

theorem meetsBoolean_cons {ch : UInt8} (hch : ch ≠ SPACE) (option text : List UInt8) :
    MeetsBoolean option (ch :: text) ↔ MeetsFrom option option (ch :: text) := by
  rw [MeetsBoolean, dif_neg hch]
  rfl

/-- The option is met as a boolean one in the text that a scan has come to. -/
def Scan.Meets (option : List UInt8) (s : Scan) (text : List UInt8) : Prop :=
  match s.state with
  | .ST_WORDSTART => MeetsBoolean option text
  | .ST_WORDCMP => MeetsFrom option s.op text
  | .ST_WORDSKIP | .ST_BUFCOPY => MeetsBoolean option (behindWord text)

theorem Scan.not_meets_nil (option : List UInt8) (s : Scan) : ¬ s.Meets option [] := by
  have hskip : ¬ MeetsBoolean option (behindWord []) := meetsBoolean_nil option
  rw [Scan.Meets]
  cases s.state with
  | ST_WORDSTART => exact meetsBoolean_nil option
  | ST_WORDCMP => simp [MeetsFrom, afterCommon_text_nil, hskip]
  | ST_WORDSKIP => exact hskip
  | ST_BUFCOPY => exact hskip

/-- The string can be ended. -/
structure Scan.Ready (buf_len : ℕ) (s : Scan) : Prop where
  room : s.buffer < buf_len
  filled : ∀ i < s.buffer, ∃ ch, s.buf i = some ch

/-- The string has not been ended yet, and a value is not longer than it is said to be. -/
structure Scan.Good (buf_len : ℕ) (s : Scan) : Prop extends s.Ready buf_len where
  copied : s.state = .ST_BUFCOPY → (s.buffer : ℤ) ≤ s.n
  unended : ∀ i, s.buf i ≠ some 0

variable {option : CString} {buf_len : ℕ} {s : Scan}

theorem wordSkip_meets (option : List UInt8) (ch : UInt8) (s : Scan) (text : List UInt8) :
    (wordSkip ch s).Meets option text ↔ MeetsBoolean option (behindWord (ch :: text)) := by
  by_cases hch : ch = SPACE
  · rw [hch, behindWord_space, meetsBoolean_space]
    rfl
  · rw [behindWord_cons hch]
    simp [Scan.Meets, wordSkip, hch]

theorem Scan.Good.wordSkip (h : s.Good buf_len) (ch : UInt8) :
    (Init.wordSkip ch s).Good buf_len := by
  refine ⟨⟨h.room, h.filled⟩, ?_, h.unended⟩
  intro hstate
  by_cases hch : ch = SPACE
  · simp [Init.wordSkip, hch] at hstate
  · simp [Init.wordSkip, hch] at hstate

/-- What a turn does: it leaves where the option is met as a boolean one, and otherwise
goes on as well prepared as before, except that the terminator may have been copied. -/
def Steps (option : List UInt8) (buf_len : ℕ) (ch : UInt8) (s : Scan) :
    Turn Scan Buffer → Prop
  | .leave buf => (∀ i, buf i ≠ some 0) ∧ ∀ text, s.Meets option (ch :: text)
  | .again next => next.Ready buf_len ∧ (ch ≠ 0 → next.Good buf_len) ∧
      ∀ text, next.Meets option text ↔ s.Meets option (ch :: text)

theorem Scan.Good.steps {next : Scan} (h : next.Good buf_len) {option : List UInt8}
    {ch : UInt8} (hmeets : ∀ text, next.Meets option text ↔ s.Meets option (ch :: text)) :
    Steps option buf_len ch s (.again next) :=
  ⟨h.toReady, fun _ => h, hmeets⟩

theorem Steps.of_meets {option : List UInt8} {ch : UInt8} {s' : Scan} {turn : Turn Scan Buffer}
    (h : Steps option buf_len ch s' turn)
    (hmeets : ∀ text, s'.Meets option (ch :: text) ↔ s.Meets option (ch :: text)) :
    Steps option buf_len ch s turn := by
  cases turn with
  | leave buf => exact ⟨h.1, fun text => (hmeets text).1 (h.2 text)⟩
  | again next => exact ⟨h.1, h.2.1, fun text => (h.2.2 text).trans (hmeets text)⟩

theorem wordCmp_steps (option : List UInt8) (h : s.Good buf_len)
    (hstate : s.state = .ST_WORDCMP) (ch : UInt8) :
    Steps option buf_len ch s (wordCmp ch s) := by
  rw [wordCmp]
  cases hop : s.op with
  | nil =>
      dsimp only
      have hmeets : ∀ text, s.Meets option (ch :: text) ↔
          (ch = SPACE ∨ ch = 0) ∨ MeetsBoolean option (behindWord (ch :: text)) := by
        intro text
        simp [Scan.Meets, hstate, MeetsFrom, hop, afterCommon_nil]
      by_cases heq : ch = EQUALS
      · rw [if_pos heq]
        apply Scan.Good.steps
        · exact ⟨⟨Nat.zero_lt_of_lt h.room, nofun⟩, fun _ => Int.le_refl 0, h.unended⟩
        · intro text
          rw [hmeets, heq, behindWord_cons (by decide)]
          simp [Scan.Meets, show EQUALS ≠ SPACE by decide, show EQUALS ≠ 0 by decide]
      · rw [if_neg heq]
        by_cases hend : ch = SPACE ∨ ch = 0
        · rw [if_pos hend]
          exact ⟨h.unended, fun text => (hmeets text).2 (.inl hend)⟩
        · rw [if_neg hend]
          apply (h.wordSkip ch).steps
          intro text
          rw [wordSkip_meets, hmeets, or_iff_right hend]
  | cons first op =>
      dsimp only
      by_cases hch : ch = first
      · rw [if_pos hch]
        apply Scan.Good.steps
        · exact ⟨⟨h.room, h.filled⟩, nofun, h.unended⟩
        · intro text
          simp [Scan.Meets, hstate, MeetsFrom, hop, afterCommon_cons, hch]
      · rw [if_neg hch]
        have hgood : Scan.Good buf_len { s with op } :=
          ⟨⟨h.room, h.filled⟩, h.copied, h.unended⟩
        apply (hgood.wordSkip ch).steps
        intro text
        rw [wordSkip_meets]
        simp [Scan.Meets, hstate, MeetsFrom, hop, afterCommon_cons, hch]

theorem bufCopy_steps (option : List UInt8) (h : s.Good buf_len)
    (hstate : s.state = .ST_BUFCOPY) (ch : UInt8) :
    ∃ next, bufCopy buf_len ch s = some next ∧ Steps option buf_len ch s (.again next) := by
  have hcopied := h.copied hstate
  have hmeets : ∀ text, s.Meets option (ch :: text) ↔
      MeetsBoolean option (behindWord (ch :: text)) := by
    intro text
    rw [Scan.Meets, hstate]
  rw [bufCopy]
  by_cases hch : ch = SPACE
  · rw [if_pos hch]
    have hgood : Scan.Good buf_len { s with state := .ST_WORDSTART } :=
      ⟨⟨h.room, h.filled⟩, nofun, h.unended⟩
    refine ⟨_, rfl, hgood.steps ?_⟩
    intro text
    rw [hmeets, hch, behindWord_space, meetsBoolean_space]
    rfl
  · rw [if_neg hch]
    have hskip : ∀ next : Scan, next.state = .ST_BUFCOPY →
        ∀ text, next.Meets option text ↔ s.Meets option (ch :: text) := by
      intro next hnext text
      rw [hmeets, behindWord_cons hch, Scan.Meets, hnext]
    by_cases hroom : s.n + 1 < buf_len
    · rw [if_pos hroom, Buffer.write, if_pos h.room]
      have hready : ∀ i < s.buffer + 1, ∃ c, Function.update s.buf s.buffer (some ch) i = some c := by
        intro i hi
        by_cases hlast : i = s.buffer
        · exact ⟨ch, by rw [hlast, Function.update_self]⟩
        · rw [Function.update_of_ne hlast]
          exact h.filled i (by omega)
      have hlt : s.buffer + 1 < buf_len := by omega
      refine ⟨_, rfl, ⟨hlt, hready⟩, ?_, hskip _ hstate⟩
      intro hnul
      refine ⟨⟨hlt, hready⟩, ?_, ?_⟩
      · intro _
        show ((s.buffer + 1 : ℕ) : ℤ) ≤ s.n + 1
        omega
      · intro i
        show Function.update s.buf s.buffer (some ch) i ≠ some 0
        by_cases hlast : i = s.buffer
        · rw [hlast, Function.update_self]
          exact fun h => hnul (Option.some.inj h)
        · rw [Function.update_of_ne hlast]
          exact h.unended i
    · rw [if_neg hroom]
      have hgood : Scan.Good buf_len { s with n := s.n + 1 } := by
        refine ⟨⟨h.room, h.filled⟩, ?_, h.unended⟩
        intro _
        show (s.buffer : ℤ) ≤ s.n + 1
        omega
      exact ⟨_, rfl, hgood.steps (hskip _ hstate)⟩

theorem scanChar_steps (option : CString) (h : s.Good buf_len) (ch : UInt8) :
    ∃ turn, scanChar option buf_len ch s = some turn ∧
      Steps option.chars buf_len ch s turn := by
  rw [scanChar]
  cases hstate : s.state with
  | ST_WORDSTART =>
      dsimp only
      by_cases hch : ch = SPACE
      · rw [if_pos hch]
        refine ⟨_, rfl, h.steps ?_⟩
        intro text
        rw [Scan.Meets, Scan.Meets, hstate, hch]
        exact (meetsBoolean_space _ text).symm
      · rw [if_neg hch]
        have hgood : Scan.Good buf_len { s with state := .ST_WORDCMP, op := option.chars } :=
          ⟨⟨h.room, h.filled⟩, nofun, h.unended⟩
        have hmeets : ∀ text, Scan.Meets option.chars
            { s with state := .ST_WORDCMP, op := option.chars } (ch :: text) ↔
            s.Meets option.chars (ch :: text) := by
          intro text
          rw [Scan.Meets, Scan.Meets, hstate]
          exact (meetsBoolean_cons hch _ text).symm
        exact ⟨_, rfl, (wordCmp_steps option.chars hgood rfl ch).of_meets hmeets⟩
  | ST_WORDCMP => exact ⟨_, rfl, wordCmp_steps option.chars h hstate ch⟩
  | ST_WORDSKIP =>
      refine ⟨_, rfl, (h.wordSkip ch).steps ?_⟩
      intro text
      rw [wordSkip_meets, Scan.Meets, hstate]
  | ST_BUFCOPY =>
      obtain ⟨next, hnext, hsteps⟩ := bufCopy_steps option.chars h hstate ch
      exact ⟨_, by rw [hnext]; rfl, hsteps⟩

/-- The loop leaves early exactly at a boolean option, with nothing that ends the string;
otherwise the string can be ended. -/
theorem scanLoop_spec (option : CString) (cmdline : List UInt8) (left i : ℕ)
    (h : s.Good buf_len) :
    (s.Meets option.chars (visible cmdline left i) →
      ∃ buf, scanLoop option buf_len cmdline left i s = some (.leave buf) ∧
        ∀ k, buf k ≠ some 0) ∧
    (¬ s.Meets option.chars (visible cmdline left i) →
      ∃ last, scanLoop option buf_len cmdline left i s = some (.again last) ∧
        last.Ready buf_len) := by
  induction left generalizing i s with
  | zero => exact ⟨fun hmeets => absurd hmeets (s.not_meets_nil _), fun _ => ⟨s, rfl, h.toReady⟩⟩
  | succ left ih =>
      obtain ⟨turn, hturn, hsteps⟩ := scanChar_steps option h (cmdline.getD i 0)
      rw [scanLoop, visible, hturn]
      cases turn with
      | leave buf =>
          obtain ⟨hunended, hmeets⟩ := hsteps
          refine ⟨fun _ => ⟨buf, rfl, hunended⟩, fun hnot => absurd ?_ hnot⟩
          by_cases hnul : cmdline.getD i 0 = 0
          · rw [if_pos hnul, ← hnul]
            exact hmeets []
          · rw [if_neg hnul]
            exact hmeets _
      | again next =>
          obtain ⟨hready, hgood, hmeets⟩ := hsteps
          dsimp only
          by_cases hnul : cmdline.getD i 0 = 0
          · rw [if_pos hnul, if_pos hnul]
            have hnot : ¬ s.Meets option.chars [0] := by
              rw [← hnul, ← hmeets]
              exact next.not_meets_nil _
            exact ⟨fun h => absurd h hnot, fun _ => ⟨next, rfl, hready⟩⟩
          · rw [if_neg hnul, if_neg hnul, ← hmeets]
            exact ih (i + 1) (hgood hnul)

/-! ## When there is a string -/

theorem max_COMMAND_LINE_SIZE : max COMMAND_LINE_SIZE 1 = COMMAND_LINE_SIZE := by decide

theorem Scan.good_start (hlen : 0 < buf_len) :
    Scan.Good buf_len ⟨.ST_WORDSTART, [], -1, 0, fun _ => none⟩ :=
  ⟨⟨hlen, nofun⟩, nofun, nofun⟩

/-- A string that is ready can be ended. -/
theorem Scan.Ready.write (h : s.Ready buf_len) :
    ∃ buf, s.buf.write buf_len s.buffer 0 = some buf ∧ HoldsString buf_len buf := by
  refine ⟨_, if_pos h.room, s.buffer, h.room, ?_, Function.update_self ..⟩
  intro i hi
  rw [Function.update_of_ne (Nat.ne_of_lt hi)]
  exact h.filled i hi

theorem rawParamGetOption_boolean {cmdline : Option (List UInt8)} (hlen : 0 < buf_len)
    (h : HasBoolean cmdline option) :
    ∃ buf, rawParamGetOption option buf_len cmdline COMMAND_LINE_SIZE = some (-2, buf) ∧
      ∀ k, buf k ≠ some 0 := by
  obtain ⟨line, rfl, hmeets⟩ := h
  obtain ⟨buf, hloop, hunended⟩ :=
    (scanLoop_spec option line COMMAND_LINE_SIZE 0 (Scan.good_start hlen)).1 hmeets
  exact ⟨buf, by simp [rawParamGetOption, max_COMMAND_LINE_SIZE, hloop], hunended⟩

theorem rawParamGetOption_string {cmdline : Option (List UInt8)} (hlen : 0 < buf_len)
    (h : ¬ HasBoolean cmdline option) :
    ∃ n buf, rawParamGetOption option buf_len cmdline COMMAND_LINE_SIZE = some (n, buf) ∧
      (n ≠ -1 → HoldsString buf_len buf) := by
  cases cmdline with
  | none => exact ⟨-1, _, rfl, fun h => absurd rfl h⟩
  | some line =>
      have hmeets : ¬ MeetsBoolean option.chars (visible line COMMAND_LINE_SIZE 0) := by
        simpa [HasBoolean] using h
      obtain ⟨last, hloop, hready⟩ :=
        (scanLoop_spec option line COMMAND_LINE_SIZE 0 (Scan.good_start hlen)).2 hmeets
      obtain ⟨buf, hwrite, hstring⟩ := hready.write
      refine ⟨last.n, buf, ?_, fun _ => hstring⟩
      simp [rawParamGetOption, max_COMMAND_LINE_SIZE, hloop, hwrite, Nat.ne_of_gt hlen]

/-- A boolean option is reported as one of length zero, with nothing that ends it. -/
theorem paramGetOption_boolean {cmdline : Option (List UInt8)} (hlen : 0 < buf_len)
    (h : HasBoolean cmdline option) :
    ∃ buf, paramGetOption option buf_len cmdline = some (0, buf) ∧
      ¬ HoldsString buf_len buf := by
  obtain ⟨buf, hraw, hunended⟩ := rawParamGetOption_boolean hlen h
  refine ⟨buf, by simp [paramGetOption, hraw], ?_⟩
  rintro ⟨k, -, -, hk⟩
  exact hunended k hk

/-- Otherwise the buffer holds a string where a length is reported. -/
theorem paramGetOption_string {cmdline : Option (List UInt8)} (hlen : 0 < buf_len)
    (h : ¬ HasBoolean cmdline option) :
    ∃ err buf, paramGetOption option buf_len cmdline = some (err, buf) ∧
      (0 ≤ err → HoldsString buf_len buf) := by
  obtain ⟨n, buf, hraw, hstring⟩ := rawParamGetOption_string hlen h
  by_cases herr : n = -1
  · exact ⟨-EINVAL, buf, by simp [paramGetOption, hraw, herr],
      fun h => absurd h (by decide)⟩
  · by_cases hbool : n = -2
    · exact ⟨0, buf, by simp [paramGetOption, hraw, hbool], fun _ => hstring herr⟩
    · exact ⟨n, buf, by simp [paramGetOption, hraw, hbool, herr], fun _ => hstring herr⟩

theorem not_deliversString (hlen : 0 < buf_len) {cmdline : Option (List UInt8)}
    (h : HasBoolean cmdline option) : ¬ DeliversString option buf_len cmdline := by
  rintro ⟨err, buf, hcall, hstring⟩
  obtain ⟨buf', hcall', hnot⟩ := paramGetOption_boolean hlen h
  obtain ⟨rfl, rfl⟩ : 0 = err ∧ buf' = buf := by simpa [hcall'] using hcall
  exact hnot (hstring (Int.le_refl 0))

variable {H : Type} {boot_command_line : List UInt8} {early : ℤ}

theorem handsStrings_nil : HandsStrings boot_command_line early ([] : List (SetupParam H)) :=
  ⟨[], rfl, nofun⟩

/-- One entry of the table after the other is served. -/
theorem handsStrings_cons (p : SetupParam H) (setup : List (SetupParam H)) :
    HandsStrings boot_command_line early (p :: setup) ↔
      (p.early = early → ¬ HasBoolean boot_command_line p.param) ∧
        HandsStrings boot_command_line early setup := by
  have hlen : 0 < 64 := by decide
  by_cases hearly : p.early = early
  · by_cases hbool : HasBoolean boot_command_line p.param
    · refine iff_of_false ?_ (fun h => h.1 hearly hbool)
      obtain ⟨buf, hcall, hnot⟩ := paramGetOption_boolean hlen hbool
      rintro ⟨calls, hcalls, hstring⟩
      obtain ⟨rest, -, rfl⟩ : ∃ rest, doParam boot_command_line early setup = some rest ∧
          (p.setup_func, buf) :: rest = calls := by
        simpa [doParam, hearly, hcall, Option.bind_eq_some_iff] using hcalls
      exact hnot (hstring _ List.mem_cons_self)
    · obtain ⟨err, buf, hcall, hstring⟩ := paramGetOption_string hlen hbool
      have hdo : doParam boot_command_line early (p :: setup) =
          (doParam boot_command_line early setup).map fun calls =>
            if err < 0 then calls else (p.setup_func, buf) :: calls := by
        rw [doParam, if_neg (not_not.2 hearly), hcall, Option.map_eq_bind]
        rfl
      have hcalls : ∀ calls, (∀ call ∈ if err < 0 then calls else (p.setup_func, buf) :: calls,
          HoldsString 64 call.2) ↔ ∀ call ∈ calls, HoldsString 64 call.2 := by
        intro calls
        by_cases herr : err < 0
        · rw [if_pos herr]
        · rw [if_neg herr, List.forall_mem_cons, and_iff_right (hstring (Int.not_lt.1 herr))]
      rw [HandsStrings, hdo, HandsStrings, and_iff_right fun _ => hbool]
      constructor
      · rintro ⟨_, hmap, hall⟩
        obtain ⟨calls, hdone, rfl⟩ := Option.map_eq_some_iff.1 hmap
        exact ⟨calls, hdone, (hcalls calls).1 hall⟩
      · rintro ⟨calls, hdone, hall⟩
        exact ⟨_, by rw [hdone]; rfl, (hcalls calls).2 hall⟩
  · rw [HandsStrings, doParam, if_pos hearly]
    exact ⟨fun h => ⟨fun h' => absurd h' hearly, h⟩, And.right⟩

theorem handsStrings_iff (setup : List (SetupParam H)) :
    HandsStrings boot_command_line early setup ↔
      ∀ p ∈ setup, p.early = early → ¬ HasBoolean boot_command_line p.param := by
  induction setup with
  | nil => exact iff_of_true handsStrings_nil nofun
  | cons p setup ih => rw [handsStrings_cons, ih, List.forall_mem_cons]

/-- There is a string for every option that is found, and for its handler, exactly if no
option that is looked for stands on the command line without a value. -/
theorem deliversString_iff (option : CString) {buf_len : ℕ} (hlen : 0 < buf_len)
    (cmdline : Option (List UInt8)) (boot_command_line : List UInt8) (early : ℤ)
    (setup : List (SetupParam H)) :
    (DeliversString option buf_len cmdline ↔ ¬ HasBoolean cmdline option) ∧
      (HandsStrings boot_command_line early setup ↔
        ∀ p ∈ setup, p.early = early → ¬ HasBoolean boot_command_line p.param) := by
  refine ⟨⟨fun h hbool => not_deliversString hlen hbool h, fun h => ?_⟩, handsStrings_iff setup⟩
  obtain ⟨err, buf, hcall, hstring⟩ := paramGetOption_string hlen h
  exact ⟨err, buf, hcall, hstring⟩

/-- `memblock`, with a command line on which it stands alone. -/
def memblock : CString := ⟨[0x6d, 0x65, 0x6d, 0x62, 0x6c, 0x6f, 0x63, 0x6b], by decide⟩

theorem hasBoolean_memblock : HasBoolean (some memblock.chars) memblock := by
  refine ⟨_, rfl, ?_⟩
  simp [memblock, MeetsBoolean, visible, COMMAND_LINE_SIZE, SPACE, afterCommon]

theorem deliversString_iff_memblock :
    (DeliversString memblock 64 (some memblock.chars) ↔
        ¬ HasBoolean (some memblock.chars) memblock) ∧
      (HandsStrings memblock.chars 1 [⟨memblock, (), 1⟩] ↔
        ∀ p ∈ [(⟨memblock, (), 1⟩ : SetupParam Unit)], p.early = 1 →
          ¬ HasBoolean memblock.chars p.param) :=
  deliversString_iff memblock (by decide) (some memblock.chars) memblock.chars 1 _

theorem not_deliversString_memblock :
    ¬ DeliversString memblock 64 (some memblock.chars) ∧
      ¬ HandsStrings memblock.chars 1 [⟨memblock, (), 1⟩] := by
  constructor
  · exact not_deliversString (by decide) hasBoolean_memblock
  · rw [handsStrings_iff]
    intro h
    exact h _ List.mem_cons_self rfl hasBoolean_memblock

end Cyanea.Init
