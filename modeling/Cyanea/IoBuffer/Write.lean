/-
# Writing loses nothing

Whatever the hooks do, what has been emitted and what is pending are together the bytes
that the calls of `iobWrite` reported as written, in their order. One step moves some of
the bytes in front of it (`Moved`), a call as a whole takes all of them unless a hook fails
(`Took`).
-/

import Cyanea.IoBuffer.Buffer

namespace Cyanea.IoBuffer

/-- What has been emitted, followed by what is pending. -/
def World.output (w : World) : List UInt8 := w.emitted ++ slice w.io.buffer 0 w.io.out

/-- No hook fails between the two states. -/
def Hooks.Unfailing (hooks : Hooks) (w w' : World) : Prop :=
  ∀ n, w.calls ≤ n → n < w'.calls → hooks.ready n w.taken ≠ 0

/-- The first `n` bytes of `data` have been moved on. -/
structure Moved (w w' : World) (data : List UInt8) (n : ℕ) : Prop where
  output : w'.output = w.output ++ data.take n
  le_length : n ≤ data.length
  emitted : w.emitted <+: w'.emitted
  calls_le : w.calls ≤ w'.calls
  out_le : w'.io.out ≤ w'.io.buf_size
  mode : w'.io.mode = w.io.mode
  buf_size : w'.io.buf_size = w.io.buf_size
  in_ : w'.io.in_ = w.io.in_
  taken : w'.taken = w.taken

/-- All of them have, unless a hook failed. -/
structure Took (hooks : Hooks) (w w' : World) (data : List UInt8) (n : ℕ) : Prop
    extends Moved w w' data n where
  all : hooks.Unfailing w w' → n = data.length

variable {hooks : Hooks} {w w₁ w₂ : World} {data : List UInt8} {n k : ℕ}

theorem Hooks.Unfailing.right (h : hooks.Unfailing w w₂) (hm : Moved w w₁ data n) :
    hooks.Unfailing w₁ w₂ := by
  intro i hi hlt
  rw [hm.taken]
  exact h i (Nat.le_trans hm.calls_le hi) hlt

theorem Hooks.Unfailing.left (h : hooks.Unfailing w w₂) (hm : w₁.calls ≤ w₂.calls) :
    hooks.Unfailing w w₁ :=
  fun i hi hlt => h i hi (Nat.lt_of_lt_of_le hlt hm)

theorem Moved.refl (hout : w.io.out ≤ w.io.buf_size) (data : List UInt8) :
    Moved w w data 0 :=
  ⟨by simp, Nat.zero_le _, List.prefix_rfl, Nat.le_refl _, hout, rfl, rfl, rfl, rfl⟩

/-- What one step leaves over is there for the next. -/
theorem Moved.trans (h : Moved w w₁ data n) (h' : Moved w₁ w₂ (data.drop n) k) :
    Moved w w₂ data (n + k) where
  output := by rw [h'.output, h.output, List.append_assoc, List.take_add]
  le_length := by
    have hle := h'.le_length
    rw [List.length_drop] at hle
    have := h.le_length
    omega
  emitted := h.emitted.trans h'.emitted
  calls_le := Nat.le_trans h.calls_le h'.calls_le
  out_le := h'.out_le
  mode := h'.mode.trans h.mode
  buf_size := h'.buf_size.trans h.buf_size
  in_ := h'.in_.trans h.in_
  taken := h'.taken.trans h.taken

theorem Moved.took (h : Moved w w₁ data n) (h' : Took hooks w₁ w₂ (data.drop n) k) :
    Took hooks w w₂ data (n + k) where
  toMoved := h.trans h'.toMoved
  all := by
    intro hgood
    have hall := h'.all (hgood.right h)
    rw [List.length_drop] at hall
    have := h.le_length
    omega

theorem Moved.after (h : Moved w w₁ data 0) (h' : Moved w₁ w₂ data n) : Moved w w₂ data n := by
  simpa using h.trans h'

/-! ## The hooks -/

theorem opsFlush_moved (hooks : Hooks) (hout : w.io.out ≤ w.io.buf_size) (data : List UInt8) :
    Moved w (opsFlush hooks w).2 data 0 := by
  rw [opsFlush]
  by_cases hready : w.ready hooks = 0
  · rw [if_pos hready]
    exact ⟨by simp [World.output], Nat.zero_le _, List.prefix_rfl, Nat.le_succ _, hout, rfl, rfl,
      rfl, rfl⟩
  · rw [if_neg hready]
    exact ⟨by simp [World.output, slice], Nat.zero_le _, List.prefix_append .., Nat.le_succ _,
      Nat.zero_le _, rfl, rfl, rfl, rfl⟩

theorem opsFlush_success (hooks : Hooks) (w : World) (h : (opsFlush hooks w).1 = SUCCESS) :
    (opsFlush hooks w).2.io.out = 0 ∧ (opsFlush hooks w).2.emitted = w.output := by
  rw [opsFlush] at h ⊢
  by_cases hready : w.ready hooks = 0
  · rw [if_pos hready] at h
    exact absurd (show (-1 : ℤ) = 0 from h) (by decide)
  · rw [if_neg hready]
    exact ⟨rfl, rfl⟩

theorem opsFlush_failure (hooks : Hooks) (w : World) (h : (opsFlush hooks w).1 ≠ SUCCESS) :
    ¬ hooks.Unfailing w (opsFlush hooks w).2 := by
  intro hgood
  rw [opsFlush] at h hgood
  by_cases hready : w.ready hooks = 0
  · rw [if_pos hready] at hgood
    exact hgood w.calls (Nat.le_refl _) (Nat.lt_succ_self _) hready
  · rw [if_neg hready] at h
    exact h rfl

theorem flushIf_moved (hooks : Hooks) (p : Prop) [Decidable p] (hout : w.io.out ≤ w.io.buf_size)
    (data : List UInt8) : Moved w (flushIf hooks p w).2 data 0 := by
  rw [flushIf]
  by_cases hp : p
  · rw [if_pos hp]
    exact opsFlush_moved hooks hout data
  · rw [if_neg hp]
    exact Moved.refl hout data

theorem flushIf_failure (hooks : Hooks) (p : Prop) [Decidable p] (h : (flushIf hooks p w).1 ≠ SUCCESS) :
    ¬ hooks.Unfailing w (flushIf hooks p w).2 := by
  rw [flushIf] at h ⊢
  by_cases hp : p
  · rw [if_pos hp] at h ⊢
    exact opsFlush_failure hooks w h
  · rw [if_neg hp] at h
    exact absurd rfl h

/-- A buffer that is not full, or has been flushed, is in one of two states. -/
theorem flushIf_room (hooks : Hooks) (hout : w.io.out ≤ w.io.buf_size)
    (h : (flushIf hooks (w.io.out = w.io.buf_size) w).1 = SUCCESS) :
    (flushIf hooks (w.io.out = w.io.buf_size) w).2.io.out = 0 ∨
      (flushIf hooks (w.io.out = w.io.buf_size) w).2.io.out <
        (flushIf hooks (w.io.out = w.io.buf_size) w).2.io.buf_size := by
  rw [flushIf] at h ⊢
  by_cases hfull : w.io.out = w.io.buf_size
  · rw [if_pos hfull] at h ⊢
    exact .inl (opsFlush_success hooks w h).1
  · rw [if_neg hfull]
    exact .inr (Nat.lt_of_le_of_ne hout hfull)

theorem opsWrite_moved (hooks : Hooks) (hempty : w.io.out = 0) (data : List UInt8) :
    Moved w (opsWrite hooks data w).2 data (opsWrite hooks data w).1 :=
  ⟨by simp [opsWrite, World.output, hempty, slice], Nat.min_le_right ..,
    List.prefix_append .., Nat.le_succ _, by simp [opsWrite, hempty], rfl, rfl, rfl, rfl⟩

theorem opsWrite_failure (hooks : Hooks) (w : World) (h : (opsWrite hooks data w).1 = 0) (hdata : data.length ≠ 0) :
    ¬ hooks.Unfailing w (opsWrite hooks data w).2 := by
  intro hgood
  have hready : w.ready hooks ≠ 0 := hgood w.calls (Nat.le_refl _) (Nat.lt_succ_self _)
  change min (w.ready hooks) data.length = 0 at h
  omega

/-- Copying to the end of what is pending. -/
theorem copy_moved (hn : n ≤ data.length) (hroom : w.io.out + n ≤ w.io.buf_size) :
    Moved w
      { w with
        io := { w.io with
          buffer := memcpy w.io.buffer w.io.out (data.take n), out := w.io.out + n } }
      data n := by
  have hlen : (data.take n).length = n := by
    rw [List.length_take]
    omega
  refine ⟨?_, hn, List.prefix_rfl, Nat.le_refl _, hroom, rfl, rfl, rfl, rfl⟩
  have hcopy := slice_memcpy w.io.buffer w.io.out (data.take n)
  rw [hlen] at hcopy
  have hbefore := slice_memcpy_before w.io.buffer (Nat.le_of_eq (Nat.zero_add w.io.out))
    (data.take n)
  simp only [World.output]
  rw [slice_add, Nat.zero_add, hbefore, hcopy, List.append_assoc]

/-! ## The loop -/

/-- The loop ends, and takes all of the data unless a hook fails. -/
theorem wbufferLoop_took {turns : ℕ} (hturns : data.length < turns) (written : ℕ)
    (hout : w.io.out ≤ w.io.buf_size) :
    ∃ r w', wbufferLoop hooks turns data written w = some (written + r, w') ∧
      Took hooks w w' data r := by
  induction turns generalizing data written w with
  | zero => omega
  | succ turns ih =>
      rw [wbufferLoop]
      by_cases hcount : data.length = 0
      · rw [if_pos hcount]
        exact ⟨0, w, rfl, Moved.refl hout data, fun _ => hcount.symm⟩
      · rw [if_neg hcount]
        have hmoved := flushIf_moved hooks (w.io.out = w.io.buf_size) hout data
        have hroom := flushIf_room hooks hout
        have hfail := flushIf_failure hooks (w.io.out = w.io.buf_size) (w := w)
        generalize flushIf hooks (w.io.out = w.io.buf_size) w = flushed at *
        obtain ⟨err, w₁⟩ := flushed
        dsimp only at *
        by_cases herr : err = SUCCESS
        · rw [if_neg (not_not.2 herr)]
          by_cases hbypass : w₁.io.out = 0 ∧ w₁.io.buf_size ≤ data.length
          · rw [if_pos hbypass]
            have hwrite := opsWrite_moved hooks hbypass.1 data
            have hstop := fun h => opsWrite_failure hooks w₁ h hcount
            generalize opsWrite hooks data w₁ = wrote at *
            obtain ⟨n, w₂⟩ := wrote
            dsimp only at *
            by_cases hn : n = 0
            · rw [if_pos hn]
              subst hn
              refine ⟨0, w₂, rfl, hmoved.after hwrite, ?_⟩
              intro hgood
              exact absurd (hgood.right hmoved) (hstop rfl)
            · rw [if_neg hn]
              have hlt : (data.drop n).length < turns := by
                rw [List.length_drop]
                omega
              obtain ⟨r, w', hloop, htook⟩ := ih hlt (written + n) hwrite.out_le
              refine ⟨n + r, w', ?_, (hmoved.after hwrite).took htook⟩
              rw [hloop, Nat.add_assoc]
          · rw [if_neg hbypass]
            have hout₁ := hmoved.out_le
            have hpos : 0 < min data.length (w₁.io.buf_size - w₁.io.out) := by
              have := hroom herr
              omega
            have hle : min data.length (w₁.io.buf_size - w₁.io.out) ≤ data.length :=
              Nat.min_le_left ..
            have hfits : w₁.io.out + min data.length (w₁.io.buf_size - w₁.io.out) ≤
                w₁.io.buf_size := by
              omega
            generalize min data.length (w₁.io.buf_size - w₁.io.out) = n at *
            have hcopy := copy_moved hle hfits
            have hlt : (data.drop n).length < turns := by
              rw [List.length_drop]
              omega
            obtain ⟨r, w', hloop, htook⟩ := ih hlt (written + n) hcopy.out_le
            refine ⟨n + r, w', ?_, (hmoved.after hcopy).took htook⟩
            rw [hloop, Nat.add_assoc]
        · rw [if_pos herr]
          exact ⟨0, w₁, rfl, hmoved, fun hgood => absurd hgood (hfail herr)⟩

theorem wbufferNoFlush_took (hooks : Hooks) (data : List UInt8) (hin : w.io.in_ = 0)
    (hout : w.io.out ≤ w.io.buf_size) :
    ∃ r w', wbufferNoFlush hooks data w = some (r, w') ∧ Took hooks w w' data r := by
  obtain ⟨r, w', hloop, htook⟩ : ∃ r w', wbufferLoop hooks (data.length + 1) data 0 w =
      some (0 + r, w') ∧ _ := wbufferLoop_took (Nat.lt_succ_self _) 0 hout
  refine ⟨r, w', ?_, htook⟩
  rw [wbufferNoFlush, flushIf, if_neg (not_not.2 hin)]
  rw [Nat.zero_add] at hloop
  exact hloop

/-! ## A call -/

theorem flushLength_le (data : List UInt8) (f_len : ℕ) : flushLength data f_len ≤ f_len := by
  induction f_len with
  | zero => exact Nat.le_refl _
  | succ f_len ih =>
      rw [flushLength]
      by_cases hline : data.getD f_len 0 = NEWLINE
      · exact Nat.le_of_eq (if_neg (not_not.2 hline))
      · rw [if_pos hline]
        exact Nat.le_succ_of_le ih

/-- Every newline is in front of the point up to which the buffer is flushed. -/
theorem lt_flushLength {data : List UInt8} {f_len i : ℕ} (hi : i < f_len)
    (hline : data.getD i 0 = NEWLINE) : i < flushLength data f_len := by
  induction f_len with
  | zero => omega
  | succ f_len ih =>
      rw [flushLength]
      by_cases hlast : data.getD f_len 0 = NEWLINE
      · rw [if_neg (not_not.2 hlast)]
        exact hi
      · rw [if_pos hlast]
        apply ih
        apply Nat.lt_of_le_of_ne (Nat.le_of_lt_succ hi)
        rintro rfl
        exact hlast hline

theorem flushedSize_le (mode : Mode) (data : List UInt8) :
    flushedSize mode data ≤ data.length := by
  cases mode with
  | _IONBF => exact Nat.le_refl _
  | _IOLBF => exact flushLength_le data data.length
  | _IOFBF => exact Nat.zero_le _

/-- In line-buffered mode, without a failure, every line that has been ended is out. -/
def LinesOut (hooks : Hooks) (w w' : World) (data : List UInt8) : Prop :=
  w.io.mode = ._IOLBF → hooks.Unfailing w w' → ∀ i < data.length,
    data.getD i 0 = NEWLINE → w.output ++ data.take (i + 1) <+: w'.emitted

/-- The data in front of the point up to which it is flushed are all that matters. -/
theorem linesOut_of {w' : World}
    (h : hooks.Unfailing w w' → flushedSize w.io.mode data ≠ 0 →
      w.output ++ data.take (flushedSize w.io.mode data) <+: w'.emitted) :
    LinesOut hooks w w' data := by
  intro hmode hgood i hi hline
  have hlt : i < flushedSize w.io.mode data := by
    rw [hmode]
    exact lt_flushLength hi hline
  have hprefix : data.take (i + 1) <+: data.take (flushedSize w.io.mode data) := by
    rw [List.prefix_take_iff]
    exact ⟨List.take_prefix .., by rw [List.length_take]; omega⟩
  exact ((List.prefix_append_right_inj _).2 hprefix).trans (h hgood (by omega))

theorem Moved.of_take {m : ℕ} (h : Moved w w₁ (data.take m) n) : Moved w w₁ data n := by
  have hle := h.le_length
  rw [List.length_take] at hle
  refine ⟨?_, by omega, h.emitted, h.calls_le, h.out_le, h.mode, h.buf_size, h.in_, h.taken⟩
  rw [h.output, List.take_take, Nat.min_eq_left (by omega)]

theorem iobWrite_took (hooks : Hooks) (data : List UInt8) (hin : w.io.in_ = 0)
    (hout : w.io.out ≤ w.io.buf_size) :
    ∃ r w', iobWrite hooks data w = some (r, w') ∧ Took hooks w w' data r ∧
      LinesOut hooks w w' data := by
  have hle := flushedSize_le w.io.mode data
  have hlines := @linesOut_of hooks w data
  rw [iobWrite]
  generalize flushedSize w.io.mode data = f_len at *
  by_cases hf : f_len = 0
  · rw [if_neg (not_not.2 hf)]
    by_cases hu : data.length - f_len = 0
    · rw [if_neg (not_not.2 hu)]
      refine ⟨0, w, rfl, ⟨Moved.refl hout data, fun _ => ?_⟩, hlines fun _ h => absurd hf h⟩
      omega
    · rw [if_pos hu]
      obtain ⟨r, w', hcall, htook⟩ := wbufferNoFlush_took hooks data hin hout
      exact ⟨r, w', hcall, htook, hlines fun _ h => absurd hf h⟩
  · rw [if_pos hf]
    obtain ⟨r, w₁, hcall, htook⟩ := wbufferNoFlush_took hooks (data.take f_len) hin hout
    simp only [hcall, Option.bind_eq_bind, Option.bind_some]
    have hlen : (data.take f_len).length = f_len := by
      rw [List.length_take]
      omega
    by_cases hr : r = f_len
    · subst hr
      rw [if_neg (not_not.2 rfl)]
      have hfirst := htook.toMoved.of_take
      have hflush := opsFlush_moved hooks hfirst.out_le (data.drop r)
      have hfail := opsFlush_failure hooks w₁
      have hdone := opsFlush_success hooks w₁
      generalize opsFlush hooks w₁ = after at *
      obtain ⟨err, w₂⟩ := after
      dsimp only at *
      have hboth := hfirst.trans hflush
      rw [Nat.add_zero] at hboth
      by_cases herr : err = SUCCESS
      · obtain ⟨-, hemitted⟩ := hdone herr
        have hout₂ : w.output ++ data.take r <+: w₂.emitted :=
          ⟨[], by rw [List.append_nil, hemitted, hfirst.output]⟩
        rw [if_neg (not_not.2 herr)]
        by_cases hu : data.length - r = 0
        · rw [if_neg (not_not.2 hu)]
          exact ⟨r, w₂, rfl, ⟨hboth, fun _ => by omega⟩, hlines fun _ _ => hout₂⟩
        · rw [if_pos hu]
          obtain ⟨k, w₃, hcall₃, htook₃⟩ := wbufferNoFlush_took hooks (data.drop r)
            (hboth.in_.trans hin) hboth.out_le
          refine ⟨r + k, w₃, ?_, hboth.took htook₃,
            hlines fun _ _ => hout₂.trans htook₃.emitted⟩
          rw [hcall₃]
          rfl
      · have hshort : ¬ hooks.Unfailing w w₂ := fun hgood => hfail herr (hgood.right hfirst)
        rw [if_pos herr]
        exact ⟨r, w₂, rfl, ⟨hboth, fun hgood => absurd hgood hshort⟩,
          hlines fun hgood => absurd hgood hshort⟩
    · have hshort : ¬ hooks.Unfailing w w₁ := fun hgood => hr ((htook.all hgood).trans hlen)
      rw [if_pos hr]
      exact ⟨r, w₁, rfl, ⟨htook.of_take, fun hgood => absurd hgood hshort⟩,
        hlines fun hgood => absurd hgood hshort⟩

/-! ## Every sequence of calls -/

/-- The first bytes of each call, as many as it says. -/
def accepted (calls : List (List UInt8)) (results : List ℕ) : List UInt8 :=
  (List.zipWith (fun data r => data.take r) calls results).flatten

/-- A run of calls ends with an output buffer that holds, behind what has been emitted,
what the calls have accepted. -/
structure Conserves (w w' : World) (calls : List (List UInt8)) (results : List ℕ) : Prop where
  length : results.length = calls.length
  output : w'.output = w.output ++ accepted calls results
  out_le : w'.io.out ≤ w'.io.buf_size
  buf_size : w'.io.buf_size = w.io.buf_size
  mode : w'.io.mode = w.io.mode
  in_ : w'.io.in_ = 0

theorem iobWrites_conserves (hooks : Hooks) (calls : List (List UInt8)) (hin : w.io.in_ = 0)
    (hout : w.io.out ≤ w.io.buf_size) :
    ∃ results w', iobWrites hooks calls w = some (results, w') ∧
      Conserves w w' calls results := by
  induction calls generalizing w with
  | nil => exact ⟨[], w, rfl, rfl, by simp [accepted], hout, rfl, rfl, hin⟩
  | cons data calls ih =>
      obtain ⟨r, w₁, hcall, htook, -⟩ := iobWrite_took hooks data hin hout
      obtain ⟨results, w', hcalls, hrest⟩ := ih (htook.in_.trans hin) htook.out_le
      refine ⟨r :: results, w', ?_, ?_, ?_, hrest.out_le, hrest.buf_size.trans htook.buf_size,
        hrest.mode.trans htook.mode, hrest.in_⟩
      · simp [iobWrites, hcall, hcalls]
      · rw [List.length_cons, List.length_cons, hrest.length]
      · rw [hrest.output, htook.output, List.append_assoc]
        rfl

theorem iobWrites_append {calls : List (List UInt8)} {results : List ℕ}
    (hcalls : iobWrites hooks calls w = some (results, w₁)) {r : ℕ}
    (hcall : iobWrite hooks data w₁ = some (r, w₂)) :
    iobWrites hooks (calls ++ [data]) w = some (results ++ [r], w₂) := by
  induction calls generalizing w results with
  | nil =>
      obtain ⟨rfl, rfl⟩ : [] = results ∧ w = w₁ := by simpa [iobWrites] using hcalls
      simp [iobWrites, hcall]
  | cons first calls ih =>
      obtain ⟨r', w', hfirst, rest, hrest, rfl⟩ :
          ∃ r' w', iobWrite hooks first w = some (r', w') ∧
            ∃ rest, iobWrites hooks calls w' = some (rest, w₁) ∧ r' :: rest = results := by
        simpa [iobWrites, Option.bind_eq_some_iff] using hcalls
      rw [List.cons_append, iobWrites, hfirst]
      simp [ih hrest]

/-- Writing loses nothing, doubles nothing and keeps the order, whatever the hooks do; in
line-buffered mode, each line that has been ended is out when a call returns, unless a hook
failed in it. -/
theorem iobWrites_faithful (hooks : Hooks) (io : Io) (calls : List (List UInt8)) :
    ∃ results w, iobWrites hooks calls (.fresh io) = some (results, w) ∧
      results.length = calls.length ∧
      w.emitted ++ slice w.io.buffer 0 w.io.out = accepted calls results ∧
      w.io.out ≤ io.buf_size ∧
      ∀ before data, calls = before ++ [data] → io.mode = ._IOLBF →
        ∃ results' w', iobWrites hooks before (.fresh io) = some (results', w') ∧
          (hooks.Unfailing w' w → ∀ i < data.length, data.getD i 0 = NEWLINE →
            accepted before results' ++ data.take (i + 1) <+: w.emitted) := by
  have hfresh : (World.fresh io).output = [] := rfl
  obtain ⟨results, w, hcalls, h⟩ :=
    iobWrites_conserves hooks calls (w := .fresh io) rfl (Nat.zero_le _)
  refine ⟨results, w, hcalls, h.length, ?_, ?_, ?_⟩
  · have hout := h.output
    rwa [hfresh, List.nil_append] at hout
  · rw [show io.buf_size = w.io.buf_size from h.buf_size.symm]
    exact h.out_le
  · rintro before data rfl hmode
    obtain ⟨results', w', hbefore, h'⟩ :=
      iobWrites_conserves hooks before (w := .fresh io) rfl (Nat.zero_le _)
    obtain ⟨r, w₂, hcall, -, hlines⟩ := iobWrite_took hooks data h'.in_ h'.out_le
    obtain rfl : w₂ = w := by
      have hboth := iobWrites_append hbefore hcall
      rw [hcalls] at hboth
      exact (Prod.mk.inj (Option.some.inj hboth)).2.symm
    refine ⟨results', w', hbefore, fun hgood i hi hline => ?_⟩
    have hprefix := hlines (h'.mode.trans hmode) hgood i hi hline
    rwa [h'.output, hfresh, List.nil_append] at hprefix

end Cyanea.IoBuffer
