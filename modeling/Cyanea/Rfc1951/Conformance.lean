/-
# The readings that break no rule are the conforming streams

`Reads` is a reading that ends well with no rule broken. For every step it is worked out
what such a reading is, in both directions, until the loop over the blocks is the grammar.
-/

import Cyanea.Rfc1951.Reading

namespace Cyanea.Rfc1951

open Math.Bits Math.PrefixCode
open Math.Simulation (Reader Result Turn run_bind run_pure)
open Math.Simulation.Reader (bind_eq_ok iterateWithin_leave iterateWithin_again
  iterateWithin_induction)

variable {β γ : Type} {bits rest : List Bool} {out out' : List UInt8}

/-- The reading returns and breaks no rule. -/
def Reads (x : Reader Reading β) (bits : List Bool) (out : List UInt8) (b : β)
    (rest : List Bool) (out' : List UInt8) : Prop :=
  x.run ⟨bits, out, []⟩ = .ok b ⟨rest, out', []⟩

/-- Rules once broken stay broken. -/
theorem broken_eq_nil {r r' : Reading} (h : r ≤ r') (hr' : r'.broken = []) :
    r.broken = [] :=
  List.prefix_nil.1 (hr' ▸ h.2.2)

/-! ## Steps -/

theorem reads_bind {x : Reader Reading β} {f : β → Reader Reading γ} {c : γ} :
    Reads (x >>= f) bits out c rest out' ↔
      ∃ b mid out₁, Reads x bits out b mid out₁ ∧ Reads (f b) mid out₁ c rest out' := by
  rw [Reads, bind_eq_ok]
  constructor
  · rintro ⟨b, ⟨mid, out₁, broken⟩, hx, hf⟩
    have hle := (f b).le_run ⟨mid, out₁, broken⟩
    rw [hf] at hle
    obtain rfl : broken = [] := broken_eq_nil hle rfl
    exact ⟨b, mid, out₁, hx, hf⟩
  · rintro ⟨b, mid, out₁, hx, hf⟩
    exact ⟨b, ⟨mid, out₁, []⟩, hx, hf⟩

theorem reads_pure {b b' : β} :
    Reads (pure b) bits out b' rest out' ↔ b' = b ∧ rest = bits ∧ out' = out := by
  rw [Reads, run_pure]
  constructor
  · rintro ⟨⟩
    exact ⟨rfl, rfl, rfl⟩
  · rintro ⟨rfl, rfl, rfl⟩
    rfl

theorem not_reads_reject {b : β} : ¬ Reads .reject bits out b rest out' :=
  nofun

theorem not_reads_lose {rule : Rule} {b : β} : ¬ Reads (lose rule) bits out b rest out' :=
  nofun

theorem not_reads_tooManyBits {b : β} : ¬ Reads tooManyBits bits out b rest out' := by
  intro h
  rw [Reads, tooManyBits] at h
  dsimp only at h
  split at h <;> cases h

theorem reads_number {k v : ℕ} : Reads (number k) bits out v rest out' ↔
    ∃ e : List Bool, e.length = k ∧ bits = e ++ rest ∧ v = toNat e ∧ out' = out := by
  constructor
  · intro h
    rw [Reads, number] at h
    dsimp only at h
    split at h
    next hk =>
        cases h
        exact ⟨bits.take k, by simp [hk], (List.take_append_drop k bits).symm, rfl, rfl⟩
    next => cases h
  · rintro ⟨e, he, rfl, rfl, rfl⟩
    exact number_append he rest out' []

theorem reads_above {base k v : ℕ} : Reads (above base k) bits out v rest out' ↔
    ∃ e : List Bool, e.length = k ∧ bits = e ++ rest ∧ v = base + toNat e ∧ out' = out := by
  rw [above, reads_bind]
  constructor
  · rintro ⟨n, mid, out₁, hn, hv⟩
    obtain ⟨e, he, rfl, rfl, rfl⟩ := reads_number.1 hn
    obtain ⟨rfl, rfl, rfl⟩ := reads_pure.1 hv
    exact ⟨e, he, rfl, rfl, rfl⟩
  · rintro ⟨e, he, rfl, rfl, rfl⟩
    exact ⟨toNat e, rest, out', reads_number.2 ⟨e, he, rfl, rfl, rfl⟩,
      reads_pure.2 ⟨rfl, rfl, rfl⟩⟩

/-- No codeword of the code is longer than the format allows. -/
def Bounded (lens : List ℕ) : Prop := ∀ l ∈ lens, l ≤ maxBits

theorem Bounded.length_le {lens : List ℕ} (h : Bounded lens) {s : ℕ} {w : List Bool}
    (hw : Assigns lens s w) : w.length ≤ maxBits :=
  h _ (List.mem_of_getElem? hw.2.1)

theorem reads_symbol {lens : List ℕ} (h : Bounded lens) {s : ℕ} :
    Reads (symbol lens) bits out s rest out' ↔
      ∃ w, Assigns lens s w ∧ bits = w ++ rest ∧ out' = out := by
  constructor
  · intro hs
    rw [Reads, symbol] at hs
    dsimp only at hs
    cases hd : decode lens maxBits bits with
    | none =>
        rw [hd] at hs
        cases hs
    | some p =>
        rw [hd] at hs
        cases hs
        obtain ⟨w, -, hw, hbits⟩ := decode_eq_some_iff.1 hd
        exact ⟨w, hw, hbits, rfl⟩
  · rintro ⟨w, hw, rfl, rfl⟩
    exact symbol_append hw (h.length_le hw) rest out' []

theorem reads_align {u : Unit} : Reads align bits out u rest out' ↔
    rest = bits.drop (bits.length % 8) ∧ out' = out := by
  constructor
  · rintro ⟨⟩
    exact ⟨rfl, rfl⟩
  · rintro ⟨rfl, rfl⟩
    rfl

theorem reads_emit {data : List UInt8} {u : Unit} : Reads (emit data) bits out u rest out' ↔
    rest = bits ∧ out' = out ++ data := by
  constructor
  · rintro ⟨⟩
    exact ⟨rfl, rfl⟩
  · rintro ⟨rfl, rfl⟩
    rfl

theorem reads_require {rule : Rule} {p : Prop} [Decidable p] {u : Unit} :
    Reads (require rule p) bits out u rest out' ↔ p ∧ rest = bits ∧ out' = out := by
  rw [Reads, run_require]
  by_cases hp : p
  · rw [if_pos hp]
    constructor
    · rintro ⟨⟩
      exact ⟨hp, rfl, rfl⟩
    · rintro ⟨-, rfl, rfl⟩
      rfl
  · rw [if_neg hp]
    constructor
    · nofun
    · exact fun h => absurd h.1 hp

theorem reads_copy {distance length : ℕ} {u : Unit} :
    Reads (copy distance length) bits out u rest out' ↔
      distance ≤ out.length ∧ rest = bits ∧ out' = copyBack distance length out := by
  rw [Reads, copy]
  dsimp only
  constructor
  · intro h
    split at h
    next hd =>
        cases h
        exact ⟨hd, rfl, rfl⟩
    next => cases h
  · rintro ⟨hd, rfl, rfl⟩
    rw [if_pos hd]

theorem reads_bytes {k : ℕ} {data : List UInt8} : Reads (bytes k) bits out data rest out' ↔
    data.length = k ∧ bits = ofBytes data ++ rest ∧ out' = out := by
  constructor
  · intro h
    induction k generalizing bits data with
    | zero =>
        obtain ⟨rfl, rfl, rfl⟩ := reads_pure.1 h
        exact ⟨rfl, rfl, rfl⟩
    | succ k ih =>
        rw [bytes, reads_bind] at h
        obtain ⟨b, mid, out₁, hb, h⟩ := h
        obtain ⟨e, he, rfl, rfl, rfl⟩ := reads_number.1 hb
        obtain ⟨data', mid', out₂, hdata, h⟩ := reads_bind.1 h
        obtain ⟨rfl, rfl, rfl⟩ := reads_pure.1 h
        obtain ⟨hlen, rfl, rfl⟩ := ih hdata
        refine ⟨by simp [hlen], ?_, rfl⟩
        have hbyte : (UInt8.ofNat (toNat e)).toNat = toNat e :=
          Nat.mod_eq_of_lt (he ▸ toNat_lt e)
        rw [ofBytes_cons, hbyte, ← he, ofNat_toNat, List.append_assoc]
  · rintro ⟨hk, rfl, rfl⟩
    exact bytes_ofBytes k data out' [] rest hk

/-! ## Loops -/

section Loops

variable {body : γ → Reader Reading (Turn γ β)} {c c' : γ} {b : β} {mid : List Bool}
  {out₁ : List UInt8}

theorem reads_loop_leave (h : Reads (body c) bits out (.leave b) rest out') :
    Reads (Reader.iterateWithin Reading.left body c) bits out b rest out' :=
  iterateWithin_leave h

theorem reads_loop_again (h : Reads (body c) bits out (.again c') mid out₁)
    (hless : mid.length < bits.length)
    (hrest : Reads (Reader.iterateWithin Reading.left body c') mid out₁ b rest out') :
    Reads (Reader.iterateWithin Reading.left body c) bits out b rest out' :=
  iterateWithin_again h hless hrest

/-- A loop that breaks no rule is a chain of turns that break none. -/
theorem reads_loop_induction
    {P : γ → List Bool → List UInt8 → β → List Bool → List UInt8 → Prop}
    (hleave : ∀ c bits out b rest out', Reads (body c) bits out (.leave b) rest out' →
      P c bits out b rest out')
    (hagain : ∀ c c' bits mid out out₁ b rest out',
      Reads (body c) bits out (.again c') mid out₁ → P c' mid out₁ b rest out' →
      P c bits out b rest out')
    (h : Reads (Reader.iterateWithin Reading.left body c) bits out b rest out') :
    P c bits out b rest out' := by
  have hall : ([] : List Rule) = [] → P c bits out b rest out' := by
    apply iterateWithin_induction (P := fun c r b r' => r'.broken = [] →
      P c r.bits r.out b r'.bits r'.out) _ _ h
    · intro c ⟨bits, out, broken⟩ b ⟨rest, out', broken'⟩ hturn hclean
      obtain rfl : broken' = [] := hclean
      have hle := (body c).le_run ⟨bits, out, broken⟩
      rw [hturn] at hle
      obtain rfl : broken = [] := broken_eq_nil hle rfl
      exact hleave c bits out b rest out' hturn
    · intro c c' ⟨bits, out, broken⟩ ⟨mid, out₁, broken₁⟩ b r'' hturn hle' ih hclean
      obtain rfl : broken₁ = [] := broken_eq_nil hle' hclean
      have hle := (body c).le_run ⟨bits, out, broken⟩
      rw [hturn] at hle
      obtain rfl : broken = [] := broken_eq_nil hle rfl
      exact hagain c c' bits mid out out₁ b r''.bits r''.out hturn (ih hclean)
  exact hall rfl

end Loops

/-! ## Codes -/

theorem reads_threeBits {k : ℕ} {sent : List ℕ} :
    Reads (threeBits k) bits out sent rest out' ↔
      ∃ fields : List (List Bool), fields.length = k ∧ (∀ f ∈ fields, f.length = 3) ∧
        bits = fields.flatten ++ rest ∧ sent = fields.map toNat ∧ out' = out := by
  induction k generalizing bits sent with
  | zero =>
      rw [threeBits, reads_pure]
      constructor
      · rintro ⟨rfl, rfl, rfl⟩
        exact ⟨[], rfl, nofun, rfl, rfl, rfl⟩
      · rintro ⟨fields, hlen, -, rfl, rfl, rfl⟩
        obtain rfl := List.length_eq_zero_iff.1 hlen
        exact ⟨rfl, rfl, rfl⟩
  | succ k ih =>
      rw [threeBits, reads_bind]
      constructor
      · rintro ⟨l, mid, out₁, hl, h⟩
        obtain ⟨e, he, rfl, rfl, rfl⟩ := reads_number.1 hl
        obtain ⟨sent', mid', out₂, hsent, h⟩ := reads_bind.1 h
        obtain ⟨rfl, rfl, rfl⟩ := reads_pure.1 h
        obtain ⟨fields, hlen, hthree, rfl, rfl, rfl⟩ := ih.1 hsent
        refine ⟨e :: fields, by simp [hlen], ?_, by simp, rfl, rfl⟩
        intro f hf
        rcases List.mem_cons.1 hf with rfl | hf
        · exact he
        · exact hthree f hf
      · rintro ⟨fields, hlen, hthree, rfl, rfl, rfl⟩
        obtain ⟨e, fields, rfl⟩ := List.exists_cons_of_length_eq_add_one hlen
        refine ⟨toNat e, fields.flatten ++ rest, out', ?_, ?_⟩
        · exact reads_number.2 ⟨e, hthree e (by simp), by simp, rfl, rfl⟩
        · apply reads_bind.2
          refine ⟨fields.map toNat, rest, out', ih.2 ?_, reads_pure.2 ⟨rfl, rfl, rfl⟩⟩
          exact ⟨fields, by simpa using hlen, fun f hf => hthree f (by simp [hf]), rfl, rfl, rfl⟩

/-- The code length `l`, `k` times over, is what the symbol `s` with the extra bits `e`
stands for after the lengths `lens`. -/
def Repeats (lens : List ℕ) (s : ℕ) (e : List Bool) (l k : ℕ) : Prop :=
  (s = 16 ∧ lens.getLast? = some l ∧ e.length = 2 ∧ k = 3 + toNat e) ∨
    (s = 17 ∧ l = 0 ∧ e.length = 3 ∧ k = 3 + toNat e) ∨
    (s = 18 ∧ l = 0 ∧ e.length = 7 ∧ k = 11 + toNat e) ∨
    (s ≠ 16 ∧ s ≠ 17 ∧ s ≠ 18 ∧ e = [] ∧ l = s ∧ k = 1)

theorem reads_repeat {l base n : ℕ} {p : ℕ × ℕ} :
    Reads (do return (l, ← above base n)) bits out p rest out' ↔
      ∃ e : List Bool, p.1 = l ∧ e.length = n ∧ p.2 = base + toNat e ∧ bits = e ++ rest ∧
        out' = out := by
  rw [reads_bind]
  constructor
  · rintro ⟨v, mid, out₁, hv, h⟩
    obtain ⟨e, he, rfl, rfl, rfl⟩ := reads_above.1 hv
    obtain ⟨rfl, rfl, rfl⟩ := reads_pure.1 h
    exact ⟨e, rfl, he, rfl, rfl, rfl⟩
  · rintro ⟨e, rfl, he, hp, rfl, rfl⟩
    refine ⟨base + toNat e, rest, out', reads_above.2 ⟨e, he, rfl, rfl, rfl⟩, ?_⟩
    exact reads_pure.2 ⟨Prod.ext rfl hp, rfl, rfl⟩

theorem reads_repeated {lens : List ℕ} {s l k : ℕ} :
    Reads (repeated lens s) bits out (l, k) rest out' ↔
      ∃ e, Repeats lens s e l k ∧ bits = e ++ rest ∧ out' = out := by
  rw [repeated]
  by_cases h16 : s = 16
  · subst h16
    cases hlast : lens.getLast? with
    | none => simp [Repeats, hlast, not_reads_reject]
    | some l' =>
        simp only [if_true, reads_repeat, Repeats, hlast]
        grind
  · rw [if_neg h16]
    by_cases h17 : s = 17
    · simp only [if_pos h17, reads_repeat, Repeats]
      grind
    · rw [if_neg h17]
      by_cases h18 : s = 18
      · simp only [if_pos h18, reads_repeat, Repeats]
        grind
      · rw [if_neg h18, reads_pure]
        constructor
        · rintro ⟨⟨⟩, rfl, rfl⟩
          exact ⟨[], .inr (.inr (.inr ⟨h16, h17, h18, rfl, rfl, rfl⟩)), rfl, rfl⟩
        · rintro ⟨e, h, rfl, rfl⟩
          obtain ⟨-, -, -, rfl, rfl, rfl⟩ : s ≠ 16 ∧ s ≠ 17 ∧ s ≠ 18 ∧ e = [] ∧ l = s ∧ k = 1 := by
            simpa [Repeats, h16, h17, h18] using h
          exact ⟨rfl, rfl, rfl⟩

/-- A turn that goes round again appends what a symbol stands for. -/
theorem reads_lengthTurn_again {code lens lens' : List ℕ} {n : ℕ} (hcode : Bounded code)
    (hn : n ≤ maxLengths) :
    Reads (lengthTurn code n lens) bits out (.again lens') rest out' ↔
      ∃ w e s l k, Assigns code s w ∧ Repeats lens s e l k ∧ lens.length < n ∧
        lens.length + k ≤ n ∧ lens' = lens ++ List.replicate k l ∧
        bits = w ++ (e ++ rest) ∧ out' = out := by
  rw [lengthTurn]
  by_cases hlt : lens.length < n
  · rw [if_pos hlt]
    constructor
    · intro h
      obtain ⟨s, mid, out₁, hs, hturn⟩ := reads_bind.1 h
      obtain ⟨⟨l, k⟩, mid', out₂, hrep, hstore⟩ := reads_bind.1 hturn
      obtain ⟨_, mid'', out₃, hreq, hend⟩ := reads_bind.1 hstore
      obtain ⟨w, hw, rfl, rfl⟩ := (reads_symbol hcode).1 hs
      obtain ⟨e, he, rfl, rfl⟩ := reads_repeated.1 hrep
      obtain ⟨hk, rfl, rfl⟩ := reads_require.1 hreq
      rw [if_pos (hk.trans hn)] at hend
      obtain ⟨⟨⟩, rfl, rfl⟩ := reads_pure.1 hend
      exact ⟨w, e, s, l, k, hw, he, hlt, hk, rfl, rfl, rfl⟩
    · rintro ⟨w, e, s, l, k, hw, he, -, hk, rfl, rfl, rfl⟩
      apply reads_bind.2
      refine ⟨s, e ++ rest, out', (reads_symbol hcode).2 ⟨w, hw, rfl, rfl⟩, ?_⟩
      apply reads_bind.2
      refine ⟨(l, k), rest, out', reads_repeated.2 ⟨e, he, rfl, rfl⟩, ?_⟩
      apply reads_bind.2
      refine ⟨(), rest, out', reads_require.2 ⟨hk, rfl, rfl⟩, ?_⟩
      rw [if_pos (hk.trans hn)]
      exact reads_pure.2 ⟨rfl, rfl, rfl⟩
  · rw [if_neg hlt, reads_pure]
    constructor
    · nofun
    · rintro ⟨-, -, -, -, -, -, -, h, -⟩
      exact absurd h hlt

theorem reads_lengthTurn_leave {code lens lens' : List ℕ} {n : ℕ} :
    Reads (lengthTurn code n lens) bits out (.leave lens') rest out' ↔
      n ≤ lens.length ∧ lens' = lens ∧ rest = bits ∧ out' = out := by
  rw [lengthTurn]
  by_cases hlt : lens.length < n
  · rw [if_pos hlt]
    constructor
    · intro h
      obtain ⟨s, mid, out₁, -, hturn⟩ := reads_bind.1 h
      obtain ⟨⟨l, k⟩, mid', out₂, -, hstore⟩ := reads_bind.1 hturn
      obtain ⟨_, mid'', out₃, -, hend⟩ := reads_bind.1 hstore
      split at hend
      · cases (reads_pure.1 hend).1
      · exact absurd hend not_reads_lose
    · exact fun h => absurd hlt (not_lt.2 h.1)
  · rw [if_neg hlt, reads_pure]
    constructor
    · rintro ⟨⟨⟩, rfl, rfl⟩
      exact ⟨not_lt.1 hlt, rfl, rfl, rfl⟩
    · rintro ⟨-, rfl, rfl, rfl⟩
      exact ⟨rfl, rfl, rfl⟩

/-- The loop over the code lengths is the grammar's. -/
theorem reads_codeLengths {code lens lens' : List ℕ} {n : ℕ} (hcode : Bounded code)
    (hsize : code.length = codeLengthOrder.length) (hn : n ≤ maxLengths)
    (hlens : lens.length ≤ n) :
    Reads (Reader.iterateWithin Reading.left (lengthTurn code n) lens) bits out lens' rest
      out' ↔ CodeLengths code n lens bits lens' rest ∧ out' = out := by
  constructor
  · intro h
    revert hlens
    apply reads_loop_induction (P := fun lens bits out lens' rest out' => lens.length ≤ n →
      CodeLengths code n lens bits lens' rest ∧ out' = out) _ _ h
    · intro lens bits out lens' rest out' hturn hlens
      obtain ⟨hge, rfl, rfl, rfl⟩ := reads_lengthTurn_leave.1 hturn
      exact ⟨.done (le_antisymm hlens hge), rfl⟩
    · intro lens lens₁ bits mid out out₁ lens' rest out' hturn ih hlens
      obtain ⟨w, e, s, l, k, hw, he, hlt, hk, rfl, rfl, rfl⟩ :=
        (reads_lengthTurn_again hcode hn).1 hturn
      obtain ⟨htail, rfl⟩ := ih (by simpa using hk)
      refine ⟨?_, rfl⟩
      rcases he with ⟨rfl, hl, he, rfl⟩ | ⟨rfl, rfl, he, rfl⟩ | ⟨rfl, rfl, he, rfl⟩ |
        ⟨h16, h17, h18, rfl, rfl, rfl⟩
      · exact .copy hw hl he hk htail
      · exact .zeros hw he hk htail
      · exact .manyZeros hw he hk htail
      · have hs := hw.lt_length
        have horder : codeLengthOrder.length = 19 := rfl
        exact .one hw (by omega) hk htail
  · rintro ⟨h, rfl⟩
    induction h with
    | done hn => exact reads_loop_leave (reads_lengthTurn_leave.2 ⟨hn.ge, rfl, rfl, rfl⟩)
    | @one lens w bits lens' rest s hw hs hk htail ih =>
        apply reads_loop_again _ _ (ih (by simpa using hk))
        · apply (reads_lengthTurn_again hcode hn).2
          refine ⟨w, [], s, s, 1, hw, ?_, by omega, hk, rfl, rfl, rfl⟩
          exact .inr (.inr (.inr ⟨by omega, by omega, by omega, rfl, rfl, rfl⟩))
        · exact hw.length_lt_append
    | @copy lens w e bits lens' rest l hw hl he hk htail ih =>
        apply reads_loop_again _ _ (ih (by simpa using hk))
        · apply (reads_lengthTurn_again hcode hn).2
          exact ⟨w, e, 16, l, _, hw, .inl ⟨rfl, hl, he, rfl⟩, by omega, hk, rfl, rfl, rfl⟩
        · exact lt_of_le_of_lt (by simp) hw.length_lt_append
    | @zeros lens w e bits lens' rest hw he hk htail ih =>
        apply reads_loop_again _ _ (ih (by simpa using hk))
        · apply (reads_lengthTurn_again hcode hn).2
          exact ⟨w, e, 17, 0, _, hw, .inr (.inl ⟨rfl, rfl, he, rfl⟩), by omega, hk, rfl, rfl, rfl⟩
        · exact lt_of_le_of_lt (by simp) hw.length_lt_append
    | @manyZeros lens w e bits lens' rest hw he hk htail ih =>
        apply reads_loop_again _ _ (ih (by simpa using hk))
        · apply (reads_lengthTurn_again hcode hn).2
          exact ⟨w, e, 18, 0, _, hw, .inr (.inr (.inl ⟨rfl, rfl, he, rfl⟩)), by omega, hk, rfl,
            rfl, rfl⟩
        · exact lt_of_le_of_lt (by simp) hw.length_lt_append

theorem bounded_codeLengthCode {fields : List (List Bool)}
    (hthree : ∀ f ∈ fields, f.length = 3) : Bounded (codeLengthCode (fields.map toNat)) := by
  intro l hl
  obtain ⟨s, -, rfl⟩ := List.mem_map.1 hl
  rw [List.getD_eq_getElem?_getD]
  cases hget : (fields.map toNat)[codeLengthOrder.idxOf s]? with
  | none => exact Nat.zero_le _
  | some v =>
      obtain ⟨f, hf, rfl⟩ := List.mem_map.1 (List.mem_of_getElem? hget)
      have hlt := toNat_lt f
      rw [hthree f hf] at hlt
      show toNat f ≤ 15
      omega

/-- Code lengths are below 16, repeated ones included. -/
theorem CodeLengths.bounded {code lens lens' : List ℕ} {n : ℕ}
    (h : CodeLengths code n lens bits lens' rest) (hlens : Bounded lens) : Bounded lens' := by
  have hmore : ∀ {lens : List ℕ} {k l : ℕ}, Bounded lens → l ≤ maxBits →
      Bounded (lens ++ List.replicate k l) := by
    intro lens k l hb hl x hx
    rcases List.mem_append.1 hx with hx | hx
    · exact hb x hx
    · rw [List.eq_of_mem_replicate hx]
      exact hl
  induction h with
  | done hn => exact hlens
  | one hw hs hn htail ih => exact ih (hmore (k := 1) hlens (Nat.le_of_lt_succ hs))
  | copy hw hl he hn htail ih => exact ih (hmore hlens (hlens _ (List.mem_of_getLast? hl)))
  | zeros hw he hn htail ih => exact ih (hmore hlens (Nat.zero_le _))
  | manyZeros hw he hn htail ih => exact ih (hmore hlens (Nat.zero_le _))

theorem CodeLengths.length_eq {code lens lens' : List ℕ} {n : ℕ}
    (h : CodeLengths code n lens bits lens' rest) : lens'.length = n := by
  induction h with
  | done hn => exact hn
  | one hw hs hn htail ih => exact ih
  | copy hw hl he hn htail ih => exact ih
  | zeros hw he hn htail ih => exact ih
  | manyZeros hw he hn htail ih => exact ih

theorem Codes.bounded {literal distance : List ℕ} (h : Codes bits literal distance rest) :
    Bounded literal ∧ Bounded distance := by
  cases h with
  | intro ha hb hc hlit hfields hthree hcode hlens hliteral hdistance =>
      have hall := hlens.bounded nofun
      exact ⟨fun l hl => hall l (List.mem_of_mem_take hl),
        fun l hl => hall l (List.mem_of_mem_drop hl)⟩

theorem length_codeLengthCode (sent : List ℕ) :
    (codeLengthCode sent).length = codeLengthOrder.length := by
  simp [codeLengthCode]

theorem reads_codes {p : List ℕ × List ℕ} :
    Reads codes bits out p rest out' ↔ Codes bits p.1 p.2 rest ∧ out' = out := by
  have hroom : ∀ {b : List Bool} {hlit : ℕ}, b.length = 5 → hlit ≤ 286 →
      hlit + (1 + toNat b) ≤ maxLengths := by
    intro b hlit hb hlit'
    have hlt := toNat_lt b
    rw [hb] at hlt
    show _ ≤ 320
    omega
  constructor
  · intro h
    obtain ⟨hlit, bits₁, out₁, h₁, h⟩ := reads_bind.1 h
    obtain ⟨hdist, bits₂, out₂, h₂, h⟩ := reads_bind.1 h
    obtain ⟨hclen, bits₃, out₃, h₃, h⟩ := reads_bind.1 h
    obtain ⟨_, bits₄, out₄, h₄, h⟩ := reads_bind.1 h
    obtain ⟨sent, bits₅, out₅, h₅, h⟩ := reads_bind.1 h
    obtain ⟨_, bits₆, out₆, h₆, h⟩ := reads_bind.1 h
    obtain ⟨lens, bits₇, out₇, h₇, h⟩ := reads_bind.1 h
    obtain ⟨_, bits₈, out₈, h₈, h⟩ := reads_bind.1 h
    obtain ⟨_, bits₉, out₉, h₉, h⟩ := reads_bind.1 h
    obtain ⟨rfl, rfl, rfl⟩ := reads_pure.1 h
    obtain ⟨hdistance, rfl, rfl⟩ := reads_require.1 h₉
    obtain ⟨hliteral, rfl, rfl⟩ := reads_require.1 h₈
    obtain ⟨a, ha, rfl, rfl, rfl⟩ := reads_above.1 h₁
    obtain ⟨b, hb, rfl, rfl, rfl⟩ := reads_above.1 h₂
    obtain ⟨c, hc, rfl, rfl, rfl⟩ := reads_above.1 h₃
    obtain ⟨hlit, rfl, rfl⟩ := reads_require.1 h₄
    obtain ⟨fields, hfields, hthree, rfl, rfl, rfl⟩ := reads_threeBits.1 h₅
    obtain ⟨hcode, rfl, rfl⟩ := reads_require.1 h₆
    obtain ⟨hlens, rfl⟩ := (reads_codeLengths (bounded_codeLengthCode hthree)
      (length_codeLengthCode _) (hroom hb hlit) (Nat.zero_le _)).1 h₇
    have htake : (lens.drop (257 + toNat a)).take (1 + toNat b) = lens.drop (257 + toNat a) := by
      apply List.take_of_length_le
      rw [List.length_drop, hlens.length_eq]
      omega
    rw [htake] at hdistance ⊢
    refine ⟨?_, rfl⟩
    rw [Nat.add_comm 257] at *
    rw [Nat.add_comm 1] at hlens
    rw [Nat.add_comm 4] at hfields
    exact .intro ha hb hc hlit hfields hthree hcode hlens hliteral hdistance
  · obtain ⟨literal, distance⟩ := p
    rintro ⟨h, rfl⟩
    dsimp only at h
    cases h with
    | @intro a b c fields bits rest lens ha hb hc hlit hfields hthree hcode hlens hliteral
        hdistance =>
        have htake : (lens.drop (257 + toNat a)).take (1 + toNat b) =
            lens.drop (257 + toNat a) := by
          apply List.take_of_length_le
          rw [List.length_drop, hlens.length_eq]
          omega
        rw [Nat.add_comm _ 257] at *
        rw [Nat.add_comm _ 1] at hlens
        rw [Nat.add_comm _ 4] at hfields
        apply reads_bind.2
        refine ⟨_, _, _, reads_above.2 ⟨a, ha, rfl, rfl, rfl⟩, ?_⟩
        apply reads_bind.2
        refine ⟨_, _, _, reads_above.2 ⟨b, hb, rfl, rfl, rfl⟩, ?_⟩
        apply reads_bind.2
        refine ⟨_, _, _, reads_above.2 ⟨c, hc, rfl, rfl, rfl⟩, ?_⟩
        apply reads_bind.2
        refine ⟨(), _, _, reads_require.2 ⟨hlit, rfl, rfl⟩, ?_⟩
        apply reads_bind.2
        refine ⟨_, _, _, reads_threeBits.2 ⟨fields, hfields, hthree, rfl, rfl, rfl⟩, ?_⟩
        apply reads_bind.2
        refine ⟨(), _, _, reads_require.2 ⟨hcode, rfl, rfl⟩, ?_⟩
        apply reads_bind.2
        refine ⟨lens, rest, out', (reads_codeLengths (bounded_codeLengthCode hthree)
          (length_codeLengthCode _) (hroom hb hlit) (Nat.zero_le _)).2 ⟨hlens, rfl⟩, ?_⟩
        apply reads_bind.2
        refine ⟨(), _, _, reads_require.2 ⟨hliteral, rfl, rfl⟩, ?_⟩
        rw [htake]
        apply reads_bind.2
        exact ⟨(), _, _, reads_require.2 ⟨hdistance, rfl, rfl⟩, reads_pure.2 ⟨rfl, rfl, rfl⟩⟩

/-! ## Blocks -/

/-- The length, with its extra bits, that a length symbol stands for. -/
theorem reads_lengthOf {s v : ℕ} : Reads (lengthOf s) bits out v rest out' ↔
    ∃ (e : List Bool) (len : ℕ), lengthCodes[s]? = some (e.length, len) ∧ v = len + toNat e ∧
      bits = e ++ rest ∧ out' = out := by
  rw [lengthOf]
  cases lengthCodes[s]? with
  | none =>
      have hno : ¬ Reads (if s = 29 then tooManyBits else lose .lengthSymbol) bits out v rest
          out' := by
        split
        · exact not_reads_tooManyBits
        · exact not_reads_lose
      simp [hno]
  | some p =>
      obtain ⟨k, len⟩ := p
      simp only [reads_above, Option.some.injEq, Prod.mk.injEq]
      constructor
      · rintro ⟨e, rfl, rfl, rfl, rfl⟩
        exact ⟨e, len, ⟨rfl, rfl⟩, rfl, rfl, rfl⟩
      · rintro ⟨e, len, ⟨rfl, rfl⟩, rfl, rfl, rfl⟩
        exact ⟨e, rfl, rfl, rfl, rfl⟩

theorem reads_distanceOf {t v : ℕ} : Reads (distanceOf t) bits out v rest out' ↔
    ∃ (e : List Bool) (dist : ℕ), distanceCodes[t]? = some (e.length, dist) ∧
      v = dist + toNat e ∧ bits = e ++ rest ∧ out' = out := by
  rw [distanceOf]
  cases distanceCodes[t]? with
  | none => simp [not_reads_lose]
  | some p =>
      obtain ⟨k, dist⟩ := p
      simp only [reads_above, Option.some.injEq, Prod.mk.injEq]
      constructor
      · rintro ⟨e, rfl, rfl, rfl, rfl⟩
        exact ⟨e, dist, ⟨rfl, rfl⟩, rfl, rfl, rfl⟩
      · rintro ⟨e, dist, ⟨rfl, rfl⟩, rfl, rfl, rfl⟩
        exact ⟨e, rfl, rfl, rfl, rfl⟩

section Symbols

variable {literal dist : List ℕ} {u : Unit}

/-- The turns of the loop over symbols, from the first codeword on. -/
theorem reads_symbolTurn (hliteral : Bounded literal) {t : Turn Unit Unit} :
    Reads (symbolTurn literal dist) bits out t rest out' ↔
      ∃ w s mid, Assigns literal s w ∧ bits = w ++ mid ∧
        Reads (if s = endOfBlock then pure (.leave ())
          else if s < endOfBlock then do
            emit [UInt8.ofNat s]
            return .again ()
          else do
            let length ← lengthOf (s - 257)
            let t ← symbol dist
            let distance ← distanceOf t
            copy distance length
            return .again ()) mid out t rest out' := by
  rw [symbolTurn, reads_bind]
  constructor
  · rintro ⟨s, mid, out₁, hs, h⟩
    obtain ⟨w, hw, rfl, rfl⟩ := (reads_symbol hliteral).1 hs
    exact ⟨w, s, mid, hw, rfl, h⟩
  · rintro ⟨w, s, mid, hw, rfl, h⟩
    exact ⟨s, mid, out, (reads_symbol hliteral).2 ⟨w, hw, rfl, rfl⟩, h⟩

theorem reads_copyTurn (hdist : Bounded dist) {s : ℕ} {t : Turn Unit Unit} :
    Reads (do
        let length ← lengthOf s
        let t ← symbol dist
        let distance ← distanceOf t
        copy distance length
        return .again ()) bits out t rest out' ↔
      ∃ (e w' e' : List Bool) (t' len base : ℕ), lengthCodes[s]? = some (e.length, len) ∧
        Assigns dist t' w' ∧ distanceCodes[t']? = some (e'.length, base) ∧
        base + toNat e' ≤ out.length ∧ bits = e ++ (w' ++ (e' ++ rest)) ∧
        out' = copyBack (base + toNat e') (len + toNat e) out ∧ t = .again () := by
  constructor
  · intro h
    obtain ⟨length, bits₁, out₁, h₁, h⟩ := reads_bind.1 h
    obtain ⟨t', bits₂, out₂, h₂, h⟩ := reads_bind.1 h
    obtain ⟨distance, bits₃, out₃, h₃, h⟩ := reads_bind.1 h
    obtain ⟨_, bits₄, out₄, h₄, h⟩ := reads_bind.1 h
    obtain ⟨rfl, rfl, rfl⟩ := reads_pure.1 h
    obtain ⟨e, len, hlen, rfl, rfl, rfl⟩ := reads_lengthOf.1 h₁
    obtain ⟨w', hw', rfl, rfl⟩ := (reads_symbol hdist).1 h₂
    obtain ⟨e', base, hbase, rfl, rfl, rfl⟩ := reads_distanceOf.1 h₃
    obtain ⟨hback, rfl, rfl⟩ := reads_copy.1 h₄
    exact ⟨e, w', e', t', len, base, hlen, hw', hbase, hback, rfl, rfl, rfl⟩
  · rintro ⟨e, w', e', t', len, base, hlen, hw', hbase, hback, rfl, rfl, rfl⟩
    apply reads_bind.2
    refine ⟨_, _, _, reads_lengthOf.2 ⟨e, len, hlen, rfl, rfl, rfl⟩, ?_⟩
    apply reads_bind.2
    refine ⟨_, _, _, (reads_symbol hdist).2 ⟨w', hw', rfl, rfl⟩, ?_⟩
    apply reads_bind.2
    refine ⟨_, _, _, reads_distanceOf.2 ⟨e', base, hbase, rfl, rfl, rfl⟩, ?_⟩
    apply reads_bind.2
    exact ⟨(), _, _, reads_copy.2 ⟨hback, rfl, rfl⟩, reads_pure.2 ⟨rfl, rfl, rfl⟩⟩

theorem reads_symbols (hliteral : Bounded literal) (hdist : Bounded dist) :
    Reads (symbols literal dist) bits out u rest out' ↔
      Symbols literal dist out bits out' rest := by
  constructor
  · intro h
    apply reads_loop_induction (P := fun _ bits out _ rest out' =>
      Symbols literal dist out bits out' rest) _ _ h
    · intro _ bits out _ rest out' hturn
      obtain ⟨w, s, mid, hw, rfl, h⟩ := (reads_symbolTurn hliteral).1 hturn
      split at h
      next hs =>
          obtain ⟨-, rfl, rfl⟩ := reads_pure.1 h
          exact .stop (hs ▸ hw)
      next =>
          split at h
          · obtain ⟨_, mid', out₁, -, h⟩ := reads_bind.1 h
            cases (reads_pure.1 h).1
          · obtain ⟨_, _, _, _, _, _, _, _, _, _, _, _, ⟨⟩⟩ := (reads_copyTurn hdist).1 h
    · intro _ _ bits mid out out₁ _ rest out' hturn ih
      obtain ⟨w, s, mid', hw, rfl, h⟩ := (reads_symbolTurn hliteral).1 hturn
      split at h
      next => cases (reads_pure.1 h).1
      next heob =>
          split at h
          next hs =>
              obtain ⟨_, mid'', out₂, hemit, h⟩ := reads_bind.1 h
              obtain ⟨-, rfl, rfl⟩ := reads_pure.1 h
              obtain ⟨rfl, rfl⟩ := reads_emit.1 hemit
              exact .literal hw hs ih
          next hs =>
              obtain ⟨e, w', e', t', len, base, hlen, hw', hbase, hback, rfl, rfl, -⟩ :=
                (reads_copyTurn hdist).1 h
              have hs' : s = 257 + (s - 257) := by
                have heob' : endOfBlock = 256 := rfl
                omega
              exact .copy (hs' ▸ hw) hlen hw' hbase hback ih
  · intro h
    induction h with
    | stop hw =>
        apply reads_loop_leave
        apply (reads_symbolTurn hliteral).2
        exact ⟨_, _, _, hw, rfl, reads_pure.2 ⟨rfl, rfl, rfl⟩⟩
    | @literal out w bits out' rest s hw hs htail ih =>
        apply reads_loop_again _ hw.length_lt_append ih
        apply (reads_symbolTurn hliteral).2
        refine ⟨w, s, bits, hw, rfl, ?_⟩
        rw [if_neg hs.ne, if_pos hs]
        apply reads_bind.2
        exact ⟨(), _, _, reads_emit.2 ⟨rfl, rfl⟩, reads_pure.2 ⟨rfl, rfl, rfl⟩⟩
    | @copy out w e w' e' bits out' rest s t len base hw hlen hw' hbase hback htail ih =>
        have hless : bits.length < (w ++ (e ++ (w' ++ (e' ++ bits)))).length :=
          lt_of_le_of_lt (by simp only [List.length_append]; omega) hw.length_lt_append
        apply reads_loop_again _ hless ih
        apply (reads_symbolTurn hliteral).2
        refine ⟨w, 257 + s, _, hw, rfl, ?_⟩
        have heob : endOfBlock = 256 := rfl
        rw [if_neg (by omega), if_neg (by omega), Nat.add_sub_cancel_left]
        apply (reads_copyTurn hdist).2
        exact ⟨e, w', e', t, len, base, hlen, hw', hbase, hback, rfl, rfl, rfl⟩

end Symbols

theorem ofNat_eq_of_toNat {e : List Bool} {k v : ℕ} (he : e.length = k) (hv : toNat e = v) :
    e = ofNat k v := by
  rw [← he, ← hv, ofNat_toNat]

theorem reads_stored {u : Unit} : Reads stored bits out u rest out' ↔
    ∃ (pad : List Bool) (data : List UInt8), pad.length < 8 ∧ rest.length % 8 = 0 ∧
      data.length < 2 ^ 16 ∧ out' = out ++ data ∧
      bits = pad ++ (ofNat 16 data.length ++ (ofNat 16 (2 ^ 16 - 1 - data.length) ++
        (ofBytes data ++ rest))) := by
  constructor
  · intro h
    obtain ⟨_, bits₁, out₁, h₁, h⟩ := reads_bind.1 h
    obtain ⟨len, bits₂, out₂, h₂, h⟩ := reads_bind.1 h
    obtain ⟨nlen, bits₃, out₃, h₃, h⟩ := reads_bind.1 h
    obtain ⟨_, bits₄, out₄, h₄, h⟩ := reads_bind.1 h
    obtain ⟨data, bits₅, out₅, h₅, h⟩ := reads_bind.1 h
    obtain ⟨rfl, rfl⟩ := reads_emit.1 h
    obtain ⟨hlen, rfl, rfl⟩ := reads_bytes.1 h₅
    obtain ⟨hcomp, rfl, rfl⟩ := reads_require.1 h₄
    obtain ⟨e', he', rfl, rfl, rfl⟩ := reads_number.1 h₃
    obtain ⟨e, he, rfl, rfl, rfl⟩ := reads_number.1 h₂
    obtain ⟨halign, rfl⟩ := reads_align.1 h₁
    have hlt := toNat_lt e
    rw [he, ← hlen] at hlt
    rw [← hlen] at hcomp
    rw [ofNat_eq_of_toNat he hlen.symm, ofNat_eq_of_toNat he' hcomp] at halign
    refine ⟨bits.take (bits.length % 8), data, ?_, ?_, hlt, rfl, ?_⟩
    · rw [List.length_take]
      omega
    · have hsize := congrArg List.length halign
      simp only [List.length_append, length_ofNat, length_ofBytes, List.length_drop] at hsize
      omega
    · rw [halign]
      exact (List.take_append_drop _ bits).symm
  · rintro ⟨pad, data, hpad, halign, hdata, rfl, rfl⟩
    have hskip : (pad ++ (ofNat 16 data.length ++ (ofNat 16 (2 ^ 16 - 1 - data.length) ++
        (ofBytes data ++ rest)))).length % 8 = pad.length := by
      simp only [List.length_append, length_ofNat, length_ofBytes]
      omega
    apply reads_bind.2
    refine ⟨(), _, out, reads_align.2 ⟨rfl, rfl⟩, ?_⟩
    rw [hskip, List.drop_left]
    apply reads_bind.2
    refine ⟨data.length, _, out, reads_number.2 ⟨_, length_ofNat _ _, rfl, ?_, rfl⟩, ?_⟩
    · rw [toNat_ofNat, Nat.mod_eq_of_lt hdata]
    apply reads_bind.2
    refine ⟨2 ^ 16 - 1 - data.length, _, out,
      reads_number.2 ⟨_, length_ofNat _ _, rfl, ?_, rfl⟩, ?_⟩
    · rw [toNat_ofNat, Nat.mod_eq_of_lt (by omega)]
    apply reads_bind.2
    refine ⟨(), _, out, reads_require.2 ⟨rfl, rfl, rfl⟩, ?_⟩
    apply reads_bind.2
    exact ⟨data, rest, out, reads_bytes.2 ⟨rfl, rfl, rfl⟩, reads_emit.2 ⟨rfl, rfl⟩⟩

theorem bounded_fixedLiteral : Bounded fixedLiteral := by
  intro l hl
  simp only [fixedLiteral, List.mem_append, List.mem_replicate] at hl
  show l ≤ 15
  omega

theorem bounded_fixedDistance : Bounded fixedDistance := by
  intro l hl
  rw [List.eq_of_mem_replicate hl]
  decide

/-- A block behind its two bits of type. -/
theorem reads_block {u : Unit} :
    Reads (do block (← number 2)) bits out u rest out' ↔ Block out bits out' rest := by
  rw [reads_bind]
  constructor
  · rintro ⟨type, mid, out₁, htype, h⟩
    obtain ⟨e, he, rfl, hv, rfl⟩ := reads_number.1 htype
    obtain rfl := ofNat_eq_of_toNat he hv.symm
    match type with
    | 0 =>
        obtain ⟨pad, data, hpad, halign, hdata, rfl, rfl⟩ := reads_stored.1 h
        exact .stored hpad halign hdata
    | 1 => exact .fixed ((reads_symbols bounded_fixedLiteral bounded_fixedDistance).1 h)
    | 2 =>
        obtain ⟨⟨literal, dist⟩, mid', out₂, hcodes, hsymbols⟩ := reads_bind.1 h
        obtain ⟨hc, rfl⟩ := reads_codes.1 hcodes
        exact .dynamic hc ((reads_symbols hc.bounded.1 hc.bounded.2).1 hsymbols)
    | n + 3 => exact absurd h not_reads_reject
  · intro h
    have htype : ∀ {mid : List Bool} (type : ℕ), type < 4 →
        Reads (number 2) (ofNat 2 type ++ mid) out type mid out := by
      intro mid type hlt
      have hlt' : type < 2 ^ 2 := hlt
      refine reads_number.2 ⟨_, length_ofNat _ _, rfl, ?_, rfl⟩
      rw [toNat_ofNat, Nat.mod_eq_of_lt hlt']
    cases h with
    | stored hpad halign hdata =>
        refine ⟨0, _, out, htype 0 (by decide), reads_stored.2 ?_⟩
        exact ⟨_, _, hpad, halign, hdata, rfl, rfl⟩
    | fixed h =>
        refine ⟨1, _, out, htype 1 (by decide), ?_⟩
        exact (reads_symbols bounded_fixedLiteral bounded_fixedDistance).2 h
    | dynamic hc hsymbols =>
        refine ⟨2, _, out, htype 2 (by decide), reads_bind.2 ?_⟩
        refine ⟨(_, _), _, out, reads_codes.2 ⟨hc, rfl⟩, ?_⟩
        exact (reads_symbols hc.bounded.1 hc.bounded.2).2 hsymbols

theorem reads_blockTurn {t : Turn Unit Unit} : Reads blockTurn bits out t rest out' ↔
    ∃ (final : Bool) (mid : List Bool), bits = final :: mid ∧ Block out mid out' rest ∧
      t = if final = true then .leave () else .again () := by
  rw [blockTurn, reads_bind]
  constructor
  · rintro ⟨v, mid, out₁, hv, h⟩
    obtain ⟨e, he, rfl, rfl, rfl⟩ := reads_number.1 hv
    obtain ⟨final, rfl⟩ := List.length_eq_one_iff.1 he
    obtain ⟨type, mid₂, out₂, htype, h⟩ := reads_bind.1 h
    obtain ⟨u, mid₃, out₃, hblock, h⟩ := reads_bind.1 h
    have hb := reads_block.1 (reads_bind.2 ⟨type, mid₂, out₂, htype, hblock⟩)
    refine ⟨final, mid, rfl, ?_⟩
    cases final with
    | true =>
        obtain ⟨rfl, rfl, rfl⟩ := reads_pure.1 h
        exact ⟨hb, rfl⟩
    | false =>
        obtain ⟨rfl, rfl, rfl⟩ := reads_pure.1 h
        exact ⟨hb, rfl⟩
  · rintro ⟨final, mid, rfl, hb, rfl⟩
    refine ⟨toNat [final], mid, out, reads_number.2 ⟨[final], rfl, rfl, rfl, rfl⟩, ?_⟩
    obtain ⟨type, mid₂, out₂, htype, hblock⟩ := reads_bind.1 (reads_block.2 hb)
    apply reads_bind.2
    refine ⟨type, mid₂, out₂, htype, reads_bind.2 ⟨(), rest, out', hblock, ?_⟩⟩
    cases final with
    | true => exact reads_pure.2 ⟨rfl, rfl, rfl⟩
    | false => exact reads_pure.2 ⟨rfl, rfl, rfl⟩

/-- A block never leaves more bits than there were. -/
theorem Block.length_le (h : Block out bits out' rest) : rest.length ≤ bits.length := by
  have hread : (do block (← number 2) : Reader Reading Unit).run ⟨bits, out, []⟩ =
      .ok () ⟨rest, out', []⟩ := reads_block.2 h
  have hle := Reader.le_run (do block (← number 2) : Reader Reading Unit) ⟨bits, out, []⟩
  rw [hread] at hle
  exact Reading.bits_le hle

theorem reads_blocks {u : Unit} :
    Reads blocks bits out u rest out' ↔ Blocks out bits out' rest := by
  constructor
  · intro h
    apply reads_loop_induction (P := fun _ bits out _ rest out' => Blocks out bits out' rest)
      _ _ h
    · intro _ bits out _ rest out' hturn
      obtain ⟨final, mid, rfl, hb, ht⟩ := reads_blockTurn.1 hturn
      cases final with
      | true => exact .last hb
      | false => cases ht
    · intro _ _ bits mid out out₁ _ rest out' hturn ih
      obtain ⟨final, mid', rfl, hb, ht⟩ := reads_blockTurn.1 hturn
      cases final with
      | true => cases ht
      | false => exact .more hb ih
  · intro h
    induction h with
    | last hb => exact reads_loop_leave (reads_blockTurn.2 ⟨true, _, rfl, hb, rfl⟩)
    | more hb htail ih =>
        apply reads_loop_again (reads_blockTurn.2 ⟨false, _, rfl, hb, rfl⟩) _ ih
        exact Nat.lt_succ_of_le hb.length_le

/-- The readings that end well and break no rule are the conforming streams. -/
theorem read_eq_ok_iff {source : List UInt8} :
    read source = .ok () ⟨rest, out, []⟩ ↔ Stream source out rest :=
  reads_blocks

end Cyanea.Rfc1951
