/-
# The array the code lengths are read into

While `huffman_dynamic_tree` decodes the code lengths, it stores into the array `lengths[]`
and reads it back to repeat the last one. The loop asks whether there are lengths to come
only between two symbols, and a symbol can stand for up to 138 of them: the stores stay
below HLIT + HDIST exactly if no run of the stream goes past the last length.
-/

import Cyanea.Boot.DynamicTree

namespace Cyanea.Boot

open Math.Bits Math.PrefixCode Math.Simulation Rfc1951

/-! ## What is touched -/

/-- An element of `lengths[]` is read or stored. -/
inductive Access
  | load (i : ℕ)
  | store (i : ℕ)
  deriving DecidableEq, Repr

def Access.index : Access → ℕ
  | .load i => i
  | .store i => i

/-- A symbol is decoded at `it` without an error: the `k` next lengths are `l`. -/
structure Decodes (lengths : List ℕ) (it : ℕ) (d : Deflate) (s l k : ℕ) (d' : Deflate) :
    Prop where
  step : ∃ d₁, decodeLl d = .ok (s, d₁) ∧ d₁.error = .NONE ∧
    expandSymbol lengths it s d₁ = .ok ((l, k), d')
  error : d'.error = .NONE

/-- What the loop over `n` code lengths touches, from the turn with this index and this
array on. -/
inductive LoopTouches (n : ℕ) : ℕ × List ℕ → Deflate → Access → Prop
  | copied {it : ℕ} {lengths : List ℕ} {d d₁ : Deflate} : it < n → it ≠ 0 →
      decodeLl d = .ok (SYM_CL_COPY_3_6, d₁) → d₁.error = .NONE →
      LoopTouches n (it, lengths) d (.load (it - 1))
  | stored {it : ℕ} {lengths : List ℕ} {d d' : Deflate} {s l k i : ℕ} : it < n →
      Decodes lengths it d s l k d' → i < k → LoopTouches n (it, lengths) d (.store (it + i))
  | later {s s' : ℕ × List ℕ} {d d' : Deflate} {a : Access} :
      lengthTurn n s d = .ok (.again s', d') → LoopTouches n s' d' a → LoopTouches n s d a

/-- `hlit`, `hdist` and `hclen`. -/
def counts : Inflate (ℕ × ℕ × ℕ) := do
  let hlit ← getExtraBits 5 257
  let hdist ← getExtraBits 5 1
  let hclen ← getExtraBits 4 4
  return (hlit, hdist, hclen)

/-- What `huffman_dynamic_tree` touches where it reads `total` code lengths: first the
lengths of the code length code are put in place, and then the loop runs. -/
inductive Touches (d : Deflate) : ℕ → Access → Prop
  | placed {hlit hdist hclen it i : ℕ} {d₁ : Deflate} :
      counts d = .ok ((hlit, hdist, hclen), d₁) → d₁.error = .NONE → it < hclen →
      code_len_for_code_idx[it]? = some i → Touches d (hlit + hdist) (.store i)
  | looped {hlit hdist hclen : ℕ} {lengths : List ℕ} {t : Tree} {d₁ d₂ : Deflate} {a : Access} :
      counts d = .ok ((hlit, hdist, hclen), d₁) → d₁.error = .NONE →
      readCodeLengths hclen 0 (List.replicate nrLengths 0) d₁ = .ok (lengths, d₂) →
      d₂.error = .NONE → huffmanTree d₂.ll lengths 19 = .ok t →
      LoopTouches (hlit + hdist) (0, lengths) { d₂ with ll := t } a → Touches d (hlit + hdist) a

/-! ## Readers that only read -/

/-- The reader takes bits or refuses them, and does nothing else. -/
def Silent {β : Type} (g : Reader Reading β) : Prop :=
  ∀ r, (∃ b bits, g.run r = .ok b { r with bits }) ∨ ∃ bits, g.run r = .rejected { r with bits }

theorem Silent.pure {β : Type} (b : β) : Silent (pure b) := fun r => .inl ⟨b, r.bits, rfl⟩

theorem Silent.bind {β γ : Type} {g : Reader Reading β} {f : β → Reader Reading γ} (hg : Silent g)
    (hf : ∀ b, Silent (f b)) : Silent (g >>= f) := by
  intro r
  rw [run_bind]
  rcases hg r with ⟨b, bits, hrun⟩ | ⟨bits, hrun⟩
  · rw [hrun]
    exact hf b { r with bits }
  · rw [hrun]
    exact .inr ⟨bits, rfl⟩

theorem silent_reject {β : Type} : Silent (Reader.reject : Reader Reading β) :=
  fun r => .inr ⟨r.bits, rfl⟩

theorem silent_number (k : ℕ) : Silent (number k) := by
  intro r
  by_cases h : k ≤ r.bits.length
  · exact .inl ⟨_, _, if_pos h⟩
  · exact .inr ⟨r.bits, if_neg h⟩

theorem silent_above (base k : ℕ) : Silent (above base k) :=
  (silent_number k).bind fun _ => .pure _

theorem silent_symbol (code : List ℕ) : Silent (symbol code) := by
  intro r
  cases h : decode code maxBits r.bits with
  | none => exact .inr ⟨r.bits, by simp only [symbol, h]⟩
  | some p => exact .inl ⟨p.1, p.2, by simp only [symbol, h]⟩

theorem silent_repeated (lens : List ℕ) (s : ℕ) : Silent (repeated lens s) := by
  rw [repeated]
  split
  · split
    · exact (silent_above 3 2).bind fun _ => .pure _
    · exact silent_reject
  · split
    · exact (silent_above 3 3).bind fun _ => .pure _
    · split
      · exact (silent_above 11 7).bind fun _ => .pure _
      · exact .pure _

theorem silent_threeBits (k : ℕ) : Silent (threeBits k) := by
  induction k with
  | zero => exact .pure _
  | succ k ih => exact (silent_number 3).bind fun _ => ih.bind fun _ => .pure _

section Silent

variable {α β γ : Type} {M : Deflate → Reading → Prop} {f : Inflate α} {g : Reader Reading β}
  {N : α → β → Deflate → Reading → Prop} {P : α → Prop} {d : Deflate} {r : Reading}

/-- A program that simulates such a reader returns, with an error exactly where the reader
refuses. -/
theorem Silent.cases (hg : Silent g) (h : ∀ cap, Sim (setting cap) M f g N P) (hm : M d r) :
    (∃ a b d' bits, f d = .ok (a, d') ∧ g.run r = .ok b { r with bits } ∧
      N a b d' { r with bits }) ∨
    ∃ a d' bits, f d = .ok (a, d') ∧ g.run r = .rejected { r with bits } ∧ d'.error ≠ .NONE := by
  have hagrees := h r.out.length d r hm (Nat.le_refl _)
  rcases hg r with ⟨b, bits, hrun⟩ | ⟨bits, hrun⟩
  · rw [hrun] at hagrees
    obtain ⟨a, d', hf, hn⟩ := hagrees.2 (Nat.le_refl _)
    exact .inl ⟨a, b, d', bits, hf, hrun, hn⟩
  · rw [hrun] at hagrees
    obtain ⟨a, d', hf, herror, -⟩ := hagrees.2 (Nat.le_refl _)
    exact .inr ⟨a, d', bits, hf, hrun, herror⟩

end Silent

/-! ## The loop -/

theorem above_pos {base k v : ℕ} {r r' : Reading} (hbase : 0 < base)
    (h : (above base k).run r = .ok v r') : 0 < v := by
  obtain ⟨b, _, -, hv⟩ := Reader.bind_eq_ok.mp h
  obtain ⟨rfl, -⟩ : base + b = v ∧ _ = r' := by simpa using hv
  exact Nat.add_pos_left hbase b

/-- Every symbol stands for a length at least. -/
theorem repeated_pos {lens : List ℕ} {s l k : ℕ} {r r' : Reading}
    (h : (repeated lens s).run r = .ok (l, k) r') : 0 < k := by
  have hwrap : ∀ (l₀ base n : ℕ), 0 < base →
      (do return (l₀, ← above base n) : Reader Reading (ℕ × ℕ)).run r = .ok (l, k) r' → 0 < k := by
    intro l₀ base n hbase hrun
    obtain ⟨v, r₁, hv, hpair⟩ := Reader.bind_eq_ok.mp hrun
    obtain ⟨⟨rfl, rfl⟩, -⟩ : (l₀ = l ∧ v = k) ∧ r₁ = r' := by simpa using hpair
    exact above_pos hbase hv
  rw [repeated] at h
  split at h
  · split at h
    · exact hwrap _ 3 2 (by decide) h
    · cases h
  · split at h
    · exact hwrap 0 3 3 (by decide) h
    · split at h
      · exact hwrap 0 11 7 (by decide) h
      · obtain ⟨⟨-, rfl⟩, -⟩ : (s = l ∧ 1 = k) ∧ r = r' := by simpa using h
        exact Nat.one_pos

section Loop

variable {frame : Frame} {turns n s l k : ℕ} {code lengths lens : List ℕ} {d d' : Deflate}
  {r : Reading} {a : Access}

/-- A turn decodes what the reader reads, or both give up. -/
theorem turn_cases (hcode : Represents frame.ll code) (hsize : code.length = 19)
    (h : Holds lengths lens) (hd : Follows frame (turns + 1) d r) :
    (∃ s l k d' bits, Decodes lengths lens.length d s l k d' ∧ 0 < k ∧ l ≤ maxBits ∧
      (symbol code >>= repeated lens).run r = .ok (l, k) { r with bits } ∧
      Follows frame turns d' { r with bits }) ∨
    ∃ bits, (symbol code >>= repeated lens).run r = .rejected { r with bits } ∧
      ∀ s l k d', ¬ Decodes lengths lens.length d s l k d' := by
  have hsilent : Silent (symbol code >>= repeated lens) :=
    (silent_symbol code).bind (silent_repeated lens)
  rcases (silent_symbol code).cases (fun _ => decodeLl_sim hcode) hd with
    ⟨s, s', d₁, bits, hs, hread, rfl, hlt, hd₁⟩ | ⟨s, d₁, bits, hs, hread, herror⟩
  · rcases (silent_repeated lens s).cases (fun _ => expandSymbol_sim h (hsize ▸ hlt)) hd₁ with
      ⟨p, q, d₂, bits', hp, hread', rfl, hl, hd₂⟩ | ⟨p, d₂, bits', hp, hread', herror⟩
    · left
      have hdec : Decodes lengths lens.length d s p.1 p.2 d₂ :=
        ⟨⟨d₁, hs, hd₁.error, hp⟩, hd₂.error⟩
      refine ⟨s, p.1, p.2, d₂, bits', hdec, repeated_pos hread', hl, ?_, hd₂⟩
      rw [run_bind, hread]
      exact hread'
    · right
      refine ⟨bits', ?_, ?_⟩
      · rw [run_bind, hread]
        exact hread'
      · rintro s₀ l k d' ⟨⟨d₀, hs₀, -, hp₀⟩, hnone⟩
        obtain ⟨rfl, rfl⟩ := Prod.mk.inj (Except.ok.inj (hs.symm.trans hs₀))
        obtain ⟨-, rfl⟩ := Prod.mk.inj (Except.ok.inj (hp.symm.trans hp₀))
        exact herror hnone
  · right
    refine ⟨bits, ?_, ?_⟩
    · rw [run_bind, hread]
      rfl
    · rintro s₀ l k d' ⟨⟨d₀, hs₀, hnone, -⟩, -⟩
      obtain ⟨-, rfl⟩ := Prod.mk.inj (Except.ok.inj (hs.symm.trans hs₀))
      exact herror hnone

theorem Decodes.unique {s' l' k' : ℕ} {d'' : Deflate} (h : Decodes lengths lens.length d s l k d')
    (h' : Decodes lengths lens.length d s' l' k' d'') : l = l' ∧ k = k' ∧ d' = d'' := by
  obtain ⟨⟨d₁, hs, -, hp⟩, -⟩ := h
  obtain ⟨⟨d₂, hs', -, hp'⟩, -⟩ := h'
  obtain ⟨rfl, rfl⟩ := Prod.mk.inj (Except.ok.inj (hs.symm.trans hs'))
  obtain ⟨hpair, rfl⟩ := Prod.mk.inj (Except.ok.inj (hp.symm.trans hp'))
  obtain ⟨rfl, rfl⟩ := Prod.mk.inj hpair
  exact ⟨rfl, rfl, rfl⟩

/-- The next turn starts behind what was stored. -/
theorem lengthTurn_stored {it : ℕ} {ls : List ℕ} (hlt : it < n)
    (hdec : Decodes lengths it d s l k d') (hls : storeLengths l k it lengths = .ok ls) :
    lengthTurn n (it, lengths) d = .ok (.again (it + k, ls), d') := by
  obtain ⟨⟨d₁, hs, hnone, hp⟩, herror⟩ := hdec
  have hok : (Err.NONE != Err.NONE) = false := rfl
  simp only [lengthTurn, if_pos hlt, bind_apply, hs, ok_bind, failed_apply, hnone, hp, herror,
    hok, Bool.false_eq_true, if_false, liftM_apply, hls]
  rfl

/-- A turn that goes on has passed the check for an error. -/
theorem check_again {α β : Type} {b : β} {f : Inflate (Turn α β)} {next : α}
    (h : (failed >>= fun e => if e = true then pure (.leave b) else f) d =
      .ok (.again next, d')) : d.error = .NONE ∧ f d = .ok (.again next, d') := by
  simp only [bind_apply, failed_apply, ok_bind] at h
  by_cases hnone : d.error = .NONE
  · simp only [hnone, bne_self_eq_false, Bool.false_eq_true, if_false] at h
    exact ⟨hnone, h⟩
  · rw [if_pos (bne_iff_ne.mpr hnone)] at h
    exact absurd h nofun

/-- There is a next turn only if a symbol was decoded and what it stands for was stored. -/
theorem lengthTurn_again {it : ℕ} {next : ℕ × List ℕ}
    (h : lengthTurn n (it, lengths) d = .ok (.again next, d')) :
    it < n ∧ ∃ s l k ls, Decodes lengths it d s l k d' ∧
      storeLengths l k it lengths = .ok ls ∧ next = (it + k, ls) := by
  rw [lengthTurn] at h
  dsimp only at h
  by_cases hlt : it < n
  · rw [if_pos hlt] at h
    obtain ⟨s, d₁, hs, h⟩ := bind_apply_eq_ok.mp h
    obtain ⟨hnone, h⟩ := check_again h
    obtain ⟨⟨l, k⟩, d₂, hp, h⟩ := bind_apply_eq_ok.mp h
    obtain ⟨hnone', h⟩ := check_again h
    obtain ⟨ls, d₃, hls, h⟩ := bind_apply_eq_ok.mp h
    obtain ⟨heq, rfl⟩ := Prod.mk.inj (Except.ok.inj h)
    change (storeLengths l k it lengths >>= fun a => .ok (a, d₂)) = _ at hls
    cases hstore : storeLengths l k it lengths with
    | error f =>
        rw [hstore] at hls
        cases hls
    | ok ls' =>
        rw [hstore] at hls
        obtain ⟨rfl, rfl⟩ := Prod.mk.inj (Except.ok.inj hls)
        obtain rfl := Turn.again.inj heq
        exact ⟨hlt, s, l, k, ls', ⟨⟨d₁, hs, hnone, hp⟩, hnone'⟩, hstore, rfl⟩
  · rw [if_neg hlt] at h
    cases h

/-- What is touched behind the lengths is stored in this turn or touched in a later one. -/
theorem LoopTouches.behind {it : ℕ} (h : LoopTouches n (it, lengths) d a) (hn : n ≤ a.index) :
    it < n ∧ ∃ s l k d', Decodes lengths it d s l k d' ∧
      (n < it + k ∨ ∃ ls, storeLengths l k it lengths = .ok ls ∧
        LoopTouches n (it + k, ls) d' a) := by
  cases h with
  | copied hlt hne =>
      have hlast : n ≤ it - 1 := hn
      omega
  | @stored _ _ _ d' s l k i hlt hdec hi =>
      have hle : n ≤ it + i := hn
      exact ⟨hlt, s, l, k, d', hdec, .inl (by omega)⟩
  | later hturn hlater =>
      obtain ⟨hlt, s, l, k, ls, hdec, hls, rfl⟩ := lengthTurn_again hturn
      exact ⟨hlt, s, l, k, _, hdec, .inr ⟨ls, hls, hlater⟩⟩

/-- The array after a run was stored. -/
theorem Holds.append {ls : List ℕ} (h : Holds lengths lens) (hl : l ≤ maxBits)
    (hlen : ls.length = lengths.length)
    (htake : ls.take (lens.length + k) = lengths.take lens.length ++ List.replicate k l) :
    Holds ls (lens ++ List.replicate k l) := by
  refine ⟨by rw [hlen, h.room], ?_, ?_⟩
  · rw [List.length_append, List.length_replicate, htake, h.prefix_eq]
  · intro x hx
    rcases List.mem_append.1 hx with hx | hx
    · exact h.bounded x hx
    · rwa [List.eq_of_mem_replicate hx]

/-- Rules that were broken stay broken. -/
theorem mem_broken {β : Type} (g : Reader Reading β) {rule : Rule} (h : rule ∈ r.broken) :
    rule ∈ (g.run r).state.broken :=
  (g.le_run r).2.2.subset h

/-- The reader's turn, once it has read a symbol and its extra bits. -/
def takeRun (n : ℕ) (lens : List ℕ) (p : ℕ × ℕ) :
    Reader Reading (Turn (List ℕ) (List ℕ)) := do
  require .runLength (lens.length + p.2 ≤ n)
  if lens.length + p.2 ≤ maxLengths then
    return .again (lens ++ List.replicate p.2 p.1)
  else
    lose .runLength

theorem lengthTurn_run (hlt : lens.length < n) (r : Reading) :
    (Rfc1951.lengthTurn code n lens).run r =
      ((symbol code >>= repeated lens).run r).bind fun p r => (takeRun n lens p).run r := by
  rw [Rfc1951.lengthTurn, if_pos hlt, run_bind, run_bind]
  cases (symbol code).run r with
  | rejected r' => rfl
  | lost r' => rfl
  | ok s r' =>
      show ((repeated lens s).run r').bind _ = ((repeated lens s).run r').bind _
      cases (repeated lens s).run r' <;> rfl

/-- A run that fits in is taken without a mark. -/
theorem takeRun_fits (hfits : lens.length + k ≤ n) (hn : n ≤ nrLengths) :
    (takeRun n lens (l, k)).run r = .ok (.again (lens ++ List.replicate k l)) r := by
  have hroom : lens.length + k ≤ maxLengths := hfits.trans hn
  rw [takeRun, run_bind, require]
  simp only [if_pos hfits, if_pos hroom]
  rfl

/-- A run past the last length breaks the rule. -/
theorem takeRun_past (hpast : n < lens.length + k) :
    Rule.runLength ∈ ((takeRun n lens (l, k)).run r).state.broken := by
  rw [takeRun, run_bind, require]
  simp only [if_neg (not_le.mpr hpast)]
  exact mem_broken _ (List.mem_append_right _ (List.mem_singleton_self _))

theorem mem_broken_bind {β γ : Type} {x : Result Reading β} {f : β → Reader Reading γ}
    {rule : Rule} (h : rule ∈ x.state.broken) :
    rule ∈ (x.bind fun b r => (f b).run r).state.broken := by
  cases x with
  | ok b r => exact mem_broken (f b) h
  | rejected r => exact h
  | lost r => exact h

/-- From a turn on, the loop touches something behind the `n` lengths exactly if the reading
from there on breaks the rule for runs. -/
theorem loopTouches_iff (hcode : Represents frame.ll code) (hsize : code.length = 19)
    (hn : n ≤ nrLengths) (fuel : ℕ) (h : Holds lengths lens) (hd : Follows frame turns d r)
    (hfuel : r.bits.length < fuel) (hclean : Rule.runLength ∉ r.broken) :
    (∃ a, LoopTouches n (lens.length, lengths) d a ∧ n ≤ a.index) ↔
      Rule.runLength ∈
        ((Reader.iterate (Rfc1951.lengthTurn code n) fuel lens).run r).state.broken := by
  induction fuel generalizing lens lengths d r turns with
  | zero => exact absurd hfuel (Nat.not_lt_zero _)
  | succ fuel ih =>
      rw [Reader.iterate, run_bind]
      by_cases hlt : lens.length < n
      · rw [lengthTurn_run hlt]
        have hmore : Follows frame (r.bits.length + 1) d r := { hd with left := Nat.lt_succ_self _ }
        rcases turn_cases hcode hsize h hmore with
          ⟨s, l, k, d', bits, hdec, hpos, hl, hread, hd'⟩ | ⟨bits, hread, hnone⟩
        · rw [hread]
          by_cases hfits : lens.length + k ≤ n
          · obtain ⟨ls, hls, hlen, htake⟩ := storeLengths_eq l k lens.length lengths
              (by rw [h.room]; exact hfits.trans hn)
            have hstep := lengthTurn_stored hlt hdec hls
            have hless := hd'.left
            have hnext := ih (h.append hl hlen htake) hd' (Nat.lt_of_lt_of_le hless
              (Nat.le_of_lt_succ hfuel)) hclean
            rw [List.length_append, List.length_replicate] at hnext
            show _ ↔ _ ∈ (((takeRun n lens (l, k)).run { r with bits }).bind _).state.broken
            rw [takeRun_fits hfits hn]
            refine Iff.trans ⟨?_, ?_⟩ hnext
            · rintro ⟨a, htouch, hindex⟩
              obtain ⟨-, s', l', k', d'', hdec', hbehind⟩ := htouch.behind hindex
              obtain ⟨rfl, rfl, rfl⟩ := hdec.unique hdec'
              rcases hbehind with hpast | ⟨ls', hls', hlater⟩
              · omega
              · obtain rfl := Except.ok.inj (hls.symm.trans hls')
                exact ⟨a, hlater, hindex⟩
            · rintro ⟨a, htouch, hindex⟩
              exact ⟨a, .later hstep htouch, hindex⟩
          · refine iff_of_true ?_ ?_
            · refine ⟨.store (lens.length + (n - lens.length)), ?_, ?_⟩
              · exact .stored hlt hdec (by omega)
              · show n ≤ lens.length + (n - lens.length)
                omega
            · exact mem_broken_bind (takeRun_past (not_le.mp hfits))
        · rw [hread]
          refine iff_of_false ?_ hclean
          rintro ⟨a, htouch, hindex⟩
          obtain ⟨-, s, l, k, d', hdec, -⟩ := htouch.behind hindex
          exact hnone s l k d' hdec
      · rw [Rfc1951.lengthTurn, if_neg hlt]
        refine iff_of_false ?_ hclean
        rintro ⟨a, htouch, hindex⟩
        exact hlt (htouch.behind hindex).1

end Loop

/-! ## The whole function -/

/-- The three counts, as a reader reads them. -/
def readCounts : Reader Reading (ℕ × ℕ × ℕ) := do
  let hlit ← above 257 5
  let hdist ← above 1 5
  let hclen ← above 4 4
  return (hlit, hdist, hclen)

/-- The rest of `codes`. -/
def codesAfter (p : ℕ × ℕ × ℕ) : Reader Reading (List ℕ × List ℕ) := do
  require .literalCodes (p.1 ≤ 286)
  let sent ← threeBits p.2.2
  let code := codeLengthCode sent
  require .subscription (¬ OverSubscribed code maxBits)
  let lens ← Reader.iterateWithin Reading.left (Rfc1951.lengthTurn code (p.1 + p.2.1)) []
  let literal := lens.take p.1
  let distance := (lens.drop p.1).take p.2.1
  require .subscription (¬ OverSubscribed literal maxBits)
  require .subscription (¬ OverSubscribed distance maxBits)
  return (literal, distance)

theorem codes_run (r : Reading) :
    codes.run r = (readCounts.run r).bind fun p r => (codesAfter p).run r := by
  show ((above 257 5).run r).bind _ = Result.bind (((above 257 5).run r).bind _) _
  cases (above 257 5).run r with
  | rejected r => rfl
  | lost r => rfl
  | ok hlit r =>
      show ((above 1 5).run r).bind _ = Result.bind (((above 1 5).run r).bind _) _
      cases (above 1 5).run r with
      | rejected r => rfl
      | lost r => rfl
      | ok hdist r =>
          show ((above 4 4).run r).bind _ = Result.bind (((above 4 4).run r).bind _) _
          cases (above 4 4).run r <;> rfl

theorem silent_readCounts : Silent readCounts :=
  (silent_above 257 5).bind fun _ => (silent_above 1 5).bind fun _ =>
    (silent_above 4 4).bind fun _ => .pure _

section Whole

variable {cap n : ℕ} {frame : Frame} {d : Deflate} {r : Reading}

theorem counts_sim : Sim (setting cap) (Follows frame n) counts readCounts
    (fun p q d r => p = q ∧ (257 ≤ p.1 ∧ p.1 < 257 + 2 ^ 5) ∧ (1 ≤ p.2.1 ∧ p.2.1 < 1 + 2 ^ 5) ∧
      p.2.2 < 4 + 2 ^ 4 ∧ Follows frame n d r) (fun _ => True) := by
  rw [counts, readCounts]
  apply Sim.bind (getExtraBits_sim (by omega) 257)
  · intro hlit hlit'
    apply Sim.assume (φ := hlit = hlit' ∧ 257 ≤ hlit ∧ hlit < 257 + 2 ^ 5)
      fun d r h => ⟨h.1, h.2.1, h.2.2.1⟩
    rintro ⟨rfl, hhlit⟩
    apply Sim.bind ((getExtraBits_sim (by omega) 1).consequence (fun d r h => h.2.2.2)
      (fun _ _ _ _ h => h) (fun _ h => h))
    · intro hdist hdist'
      apply Sim.assume (φ := hdist = hdist' ∧ 1 ≤ hdist ∧ hdist < 1 + 2 ^ 5)
        fun d r h => ⟨h.1, h.2.1, h.2.2.1⟩
      rintro ⟨rfl, hhdist⟩
      apply Sim.bind ((getExtraBits_sim (by omega) 4).consequence (fun d r h => h.2.2.2)
        (fun _ _ _ _ h => h) (fun _ h => h))
      · intro hclen hclen'
        apply Sim.pure
        rintro d r ⟨rfl, -, hhclen, hd⟩
        exact ⟨rfl, hhlit, hhdist, hhclen, hd⟩
      · exact fun _ _ => Idle.pure trivial
    · exact fun _ _ => Idle.bind (idle_getExtraBits 4) fun _ _ => Idle.pure trivial
  · exact fun _ _ => Idle.bind (idle_getExtraBits 1) fun _ _ =>
      Idle.bind (idle_getExtraBits 4) fun _ _ => Idle.pure trivial

/-- Another rule does not touch the one for runs. -/
theorem mem_broken_require {β : Type} {rule : Rule} (hne : rule ≠ .runLength) (p : Prop)
    [Decidable p] (f : Unit → Reader Reading β) (r : Reading) :
    ∃ broken, (.runLength ∈ broken ↔ Rule.runLength ∈ r.broken) ∧
      (require rule p >>= f).run r = (f ()).run { r with broken } := by
  refine ⟨if p then r.broken else r.broken ++ [rule], ?_, ?_⟩
  · split
    · rfl
    · rw [List.mem_append, List.mem_singleton, or_iff_left hne.symm]
  · rw [run_bind, run_require]
    rfl

/-- What only marks other rules does not touch it either. -/
theorem mem_broken_bind_iff {β γ : Type} {x : Result Reading β} {f : β → Reader Reading γ}
    (h : ∀ b r, .runLength ∈ ((f b).run r).state.broken ↔ Rule.runLength ∈ r.broken) :
    .runLength ∈ (x.bind fun b r => (f b).run r).state.broken ↔
      Rule.runLength ∈ x.state.broken := by
  cases x with
  | ok b r => exact h b r
  | rejected r => rfl
  | lost r => rfl

/-- What the function touches in the loop, against the rest of the reading. -/
theorem codesAfter_iff {hlit hdist hclen : ℕ} (hfull : frame.Full) (hhlit : hlit < 257 + 2 ^ 5)
    (hhdist : hdist < 1 + 2 ^ 5) (hhclen : hclen < 4 + 2 ^ 4) (hd : Follows frame n d r)
    (hclean : Rule.runLength ∉ r.broken) :
    (∃ lengths d₂ t a,
      readCodeLengths hclen 0 (List.replicate nrLengths 0) d = .ok (lengths, d₂) ∧
      d₂.error = .NONE ∧ huffmanTree d₂.ll lengths 19 = .ok t ∧
      LoopTouches (hlit + hdist) (0, lengths) { d₂ with ll := t } a ∧ hlit + hdist ≤ a.index) ↔
      Rule.runLength ∈ ((codesAfter (hlit, hdist, hclen)).run r).state.broken := by
  have hroom : 19 ≤ (List.replicate nrLengths 0).length := by
    rw [List.length_replicate]
    decide
  rw [codesAfter]
  dsimp only
  have hliteral : Rule.literalCodes ≠ .runLength := nofun
  have hsubscription : Rule.subscription ≠ .runLength := nofun
  obtain ⟨broken₁, hmem₁, hrun₁⟩ := mem_broken_require hliteral (hlit ≤ 286) _ r
  rw [hrun₁, run_bind]
  have hd₁ : Follows frame n d { r with broken := broken₁ } := { hd with }
  rcases (silent_threeBits hclen).cases
    (fun _ => (readCodeLengths_sim hclen 0 _ (by omega) hroom).1) hd₁ with
    ⟨_, sent, d₂, bits, hread, hsent, rfl, hlen, hsmall, hd₂⟩ | ⟨ls, d₂, bits, hread, hsent, herror⟩
  · rw [hsent]
    obtain ⟨t, ht, hcode, hfullt⟩ := huffmanTree_eq
      (placeLengths 0 (List.replicate nrLengths 0) sent) 19 (hd₂.ll ▸ hfull.ll)
      (by rw [length_placeLengths]; exact hroom) (by decide) (by
        rw [take_placeLengths (by omega)]
        exact codeLengthCode_le hsmall)
    rw [take_placeLengths (by omega)] at hcode
    obtain ⟨broken₂, hmem₂, hrun₂⟩ := mem_broken_require hsubscription
      (¬ OverSubscribed (codeLengthCode sent) maxBits) _ (⟨bits, r.out, broken₁⟩ : Reading)
    show _ ↔ _ ∈ (Reader.run _ (⟨bits, r.out, broken₁⟩ : Reading)).state.broken
    rw [hrun₂, run_bind, mem_broken_bind_iff]
    · have hholds : Holds (placeLengths 0 (List.replicate nrLengths 0) sent) [] :=
        ⟨by rw [length_placeLengths, List.length_replicate], rfl, List.forall_mem_nil _⟩
      have hset : Follows { frame with ll := t, distance := d₂.distance } n
          { d₂ with ll := t } ⟨bits, r.out, broken₂⟩ :=
        { hd₂.setTrees t d₂.distance with }
      have htotal : hlit + hdist ≤ nrLengths := by
        simp only [nrLengths, MAX_SYMBOLS, MAX_DISTANCE]
        omega
      have hloop := loopTouches_iff hcode (by simp [codeLengthCode, codeLengthOrder]) htotal
        (bits.length + 1) hholds hset (Nat.lt_succ_self _)
        (hmem₂.not.mpr (hmem₁.not.mpr hclean))
      refine Iff.trans ⟨?_, ?_⟩ hloop
      · rintro ⟨lengths, d', t', a, hok, -, ht', htouch, hindex⟩
        obtain ⟨rfl, rfl⟩ := Prod.mk.inj (Except.ok.inj (hread.symm.trans hok))
        obtain rfl := Except.ok.inj (ht.symm.trans ht')
        exact ⟨a, htouch, hindex⟩
      · rintro ⟨a, htouch, hindex⟩
        exact ⟨_, d₂, t, a, hread, hd₂.error, ht, htouch, hindex⟩
    · intro lens r'
      obtain ⟨broken₃, hmem₃, hrun₃⟩ := mem_broken_require hsubscription
        (¬ OverSubscribed (lens.take hlit) maxBits) _ r'
      obtain ⟨broken₄, hmem₄, hrun₄⟩ := mem_broken_require hsubscription
        (¬ OverSubscribed ((lens.drop hlit).take hdist) maxBits) _ { r' with broken := broken₃ }
      rw [hrun₃, hrun₄]
      exact hmem₄.trans hmem₃
  · rw [hsent]
    refine iff_of_false ?_ (hmem₁.not.mpr hclean)
    rintro ⟨lengths, d', t, a, hok, hnone, -⟩
    obtain ⟨-, rfl⟩ := Prod.mk.inj (Except.ok.inj (hread.symm.trans hok))
    exact herror hnone

/-- Every element that is touched lies below HLIT + HDIST, exactly if no run of the stream
goes past the last code length. -/
theorem touchesInside_iff (hfull : d.frame.Full) (herror : d.error = .NONE) (hsound : d.Sound)
    (hnr : d.nr_bits < 8) :
    (∀ total a, Touches d total a → a.index < total) ↔
      Rule.runLength ∉ (codes.run ⟨d.bitsLeft, d.dest, []⟩).state.broken := by
  have hd : Follows d.frame (d.bitsLeft.length + 1) d ⟨d.bitsLeft, d.dest, []⟩ :=
    ⟨herror, hsound, hnr, rfl, Nat.lt_succ_self _, rfl, rfl⟩
  rw [codes_run]
  rcases silent_readCounts.cases (fun _ => counts_sim) hd with
    ⟨p, _, d₁, bits, hp, hread, rfl, hhlit, hhdist, hhclen, hd₁⟩ | ⟨p, d₁, bits, hp, hread, hfailed⟩
  · rw [hread]
    have hclean : Rule.runLength ∉ (⟨bits, d.dest, []⟩ : Reading).broken := List.not_mem_nil
    refine Iff.trans ?_ (codesAfter_iff hfull hhlit.2 hhdist.2 hhclen hd₁ hclean).not
    constructor
    · rintro hinside ⟨lengths, d₂, t, a, hok, hnone, ht, htouch, hindex⟩
      exact absurd (hinside _ a (.looped hp hd₁.error hok hnone ht htouch)) (not_lt.mpr hindex)
    · intro hnone total a htouch
      cases htouch with
      | @placed hlit hdist hclen it i _ hcounts _ hit hplace =>
          obtain ⟨rfl, rfl⟩ := Prod.mk.inj (Except.ok.inj (hp.symm.trans hcounts))
          have hmem := List.mem_of_getElem? hplace
          have hlt : i < 19 := (by decide : ∀ i ∈ code_len_for_code_idx, i < 19) i hmem
          have hle : 257 ≤ hlit := hhlit.1
          show i < hlit + hdist
          omega
      | @looped hlit hdist hclen lengths t _ d₂ a hcounts _ hok herr ht hloop =>
          obtain ⟨rfl, rfl⟩ := Prod.mk.inj (Except.ok.inj (hp.symm.trans hcounts))
          by_contra hindex
          exact hnone ⟨lengths, d₂, t, a, hok, herr, ht, hloop, not_lt.mp hindex⟩
  · rw [hread]
    refine iff_of_true ?_ List.not_mem_nil
    intro total a htouch
    cases htouch with
    | placed hcounts hnone =>
        obtain ⟨-, rfl⟩ := Prod.mk.inj (Except.ok.inj (hp.symm.trans hcounts))
        exact absurd hnone hfailed
    | looped hcounts hnone =>
        obtain ⟨-, rfl⟩ := Prod.mk.inj (Except.ok.inj (hp.symm.trans hcounts))
        exact absurd hnone hfailed

end Whole

theorem full_initial (source : List UInt8) : (initial source).frame.Full :=
  ⟨List.length_replicate, List.length_replicate⟩

theorem sound_initial (source : List UInt8) : (initial source).Sound :=
  ⟨Nat.one_pos, Nat.zero_le _⟩

/-- A run of 138 zeros and one of 120 are the 258 lengths that are announced. -/
def twoRuns : List UInt8 := [0x00, 0x00, 0x10, 0xf8, 0x6b, 0x03]

theorem touchesInside_twoRuns :
    (∀ total a, Touches (initial twoRuns) total a → a.index < total) ∧
      Rule.runLength ∉
        (codes.run ⟨(initial twoRuns).bitsLeft, (initial twoRuns).dest, []⟩).state.broken := by
  have hclean : Rule.runLength ∉
      (codes.run ⟨(initial twoRuns).bitsLeft, (initial twoRuns).dest, []⟩).state.broken := by
    decide +kernel
  exact ⟨(touchesInside_iff (full_initial twoRuns) rfl (sound_initial twoRuns) (by decide)).mpr
    hclean, hclean⟩

/-- 316 lengths are announced, and three runs of 138 zeros follow. -/
def threeRuns : List UInt8 := [0xbd, 0x03, 0x10, 0xf8, 0xfb, 0xfb, 0x03]

/-- The state with so much of `threeRuns` read. -/
def runsAt (in_ptr nr_bits bit_accum : ℕ) (ll : Tree) : Deflate :=
  { initial threeRuns with in_ptr, nr_bits, bit_accum, ll }

/-- The code of the symbol 18 alone. -/
def onlyRuns : Tree where
  bl_count := (List.replicate MAX_BITS 0).set 1 1
  sorted_symbols := (List.replicate MAX_SYMBOLS none).set 0 (some 18)

/-- `lengths[]` once the code length code is in place; the runs store only zeros. -/
def runsLengths (it : ℕ) : List ℕ :=
  (List.replicate nrLengths 0).set 18 (if it = 0 then 1 else 0)

/-- The third run starts at 276 and ends at 413: `lengths[]` has 320 elements. -/
theorem not_touchesInside_threeRuns :
    Touches (initial threeRuns) 316 (.store 413) ∧ ¬ 413 < nrLengths := by
  have hcounts : counts (initial threeRuns) = .ok ((286, 30, 4), runsAt 2 2 0 (initial []).ll) := by
    decide +kernel
  have hread : readCodeLengths 4 0 (List.replicate nrLengths 0) (runsAt 2 2 0 (initial []).ll) =
      .ok (runsLengths 0, runsAt 4 6 62 (initial []).ll) := by
    decide +kernel
  have htree : huffmanTree (initial []).ll (runsLengths 0) 19 = .ok onlyRuns := by
    decide +kernel
  have hfirst : Decodes (runsLengths 0) 0 (runsAt 4 6 62 onlyRuns) 18 0 138
      (runsAt 5 6 62 onlyRuns) :=
    ⟨⟨runsAt 4 5 31 onlyRuns, by decide +kernel, rfl, by decide +kernel⟩, rfl⟩
  have hsecond : Decodes (runsLengths 138) 138 (runsAt 5 6 62 onlyRuns) 18 0 138
      (runsAt 6 6 62 onlyRuns) :=
    ⟨⟨runsAt 5 5 31 onlyRuns, by decide +kernel, rfl, by decide +kernel⟩, rfl⟩
  have hthird : Decodes (runsLengths 276) 276 (runsAt 6 6 62 onlyRuns) 18 0 138
      (runsAt 7 6 0 onlyRuns) :=
    ⟨⟨runsAt 6 5 31 onlyRuns, by decide +kernel, rfl, by decide +kernel⟩, rfl⟩
  have hstore : ∀ it, it = 0 ∨ it = 138 →
      storeLengths 0 138 it (runsLengths it) = .ok (runsLengths (it + 138)) := by
    rintro it (rfl | rfl) <;> decide +kernel
  refine ⟨.looped hcounts rfl hread rfl htree ?_, by decide⟩
  refine .later (lengthTurn_stored (by decide) hfirst (hstore 0 (.inl rfl))) ?_
  refine .later (lengthTurn_stored (by decide) hsecond (hstore 138 (.inr rfl))) ?_
  exact .stored (by decide) hthird (show 137 < 138 by decide)

end Cyanea.Boot
