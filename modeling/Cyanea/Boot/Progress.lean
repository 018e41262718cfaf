/-
# Every loop of the inflater uses up its input

Whatever the bytes are and whatever the trees hold, each turn of the three loops takes a
bit from the source or raises an error, and no byte at or behind `in_end` is read. Nothing
is asked of the state here but that `in_ptr` is not past `in_end`.
-/

import Cyanea.Math.Progress
import Cyanea.Boot.BitReader

namespace Cyanea.Boot

open Math Math.Simulation

/-- The number of bits left: those in the accumulator and those not fetched. -/
def Deflate.left (d : Deflate) : ℕ := d.nr_bits + 8 * (d.in_end - d.in_ptr)

/-- What happens to a `struct deflate` as time passes. -/
structure Later (d d' : Deflate) : Prop where
  source : d'.source = d.source
  left : d'.left ≤ d.left
  error : d.error ≠ .NONE → d'.error ≠ .NONE

theorem Later.refl (d : Deflate) : Later d d := ⟨rfl, le_rfl, id⟩

theorem Later.trans {d d' d'' : Deflate} (h : Later d d') (h' : Later d' d'') : Later d d'' :=
  ⟨h'.source.trans h.source, h'.left.trans h.left, fun he => h'.error (h.error he)⟩

/-- At least a bit was taken, or there is an error now. -/
def Spent (d d' : Deflate) : Prop :=
  Later d d' ∧ (d'.left < d.left ∨ d'.error ≠ .NONE)

theorem Spent.trans {d d' d'' : Deflate} (h : Spent d d') (h' : Later d' d'') : Spent d d'' := by
  refine ⟨h.1.trans h', ?_⟩
  rcases h.2 with hless | herror
  · exact .inl (lt_of_le_of_lt h'.left hless)
  · exact .inr (h'.error herror)

/-- `in_ptr` is inside the source, and a loop has turns enough for the bits left. -/
def InSource (turns : ℕ) (d : Deflate) : Prop :=
  d.in_ptr ≤ d.in_end ∧ d.left < turns

/-- The faults of undefined behaviour and of a full destination: a call that stops with one
has neither run out of turns nor read past the source. -/
def Allowed (f : Fault) : Prop := f ≠ .unfinished ∧ f ≠ .pastEnd

/-- A function that only moves on. -/
abbrev Quiet {α : Type} (turns : ℕ) (f : Inflate α) : Prop :=
  Keeps (InSource turns) Allowed (fun _ => Later) f

/-- A function that takes a bit or raises an error. -/
abbrev Eager {α : Type} (turns : ℕ) (f : Inflate α) : Prop :=
  Keeps (InSource turns) Allowed (fun _ => Spent) f

variable {turns k : ℕ} {α β : Type}

theorem Quiet.bind {f : Inflate α} {g : α → Inflate β} (hf : Quiet turns f)
    (hg : ∀ a, Quiet turns (g a)) : Quiet turns (f >>= g) :=
  Keeps.bind hf hg fun _ _ _ _ _ => Later.trans

theorem Eager.bind {f : Inflate α} {g : α → Inflate β} (hf : Eager turns f)
    (hg : ∀ a, Quiet turns (g a)) : Eager turns (f >>= g) :=
  Keeps.bind hf hg fun _ _ _ _ _ => Spent.trans

theorem Eager.quiet {f : Inflate α} (hf : Eager turns f) : Quiet turns f :=
  hf.mono fun _ _ _ h => h.1

theorem quiet_pure (a : α) : Quiet turns (pure a : Inflate α) :=
  Keeps.pure Later.refl

theorem allowed_outOfBounds : Allowed .outOfBounds := by
  simp [Allowed]

theorem eager_raise {e : Err} (he : e ≠ .NONE) : Eager turns (raise e) :=
  ⟨fun _ hd => ⟨hd, ⟨rfl, le_rfl, fun _ => he⟩, .inr he⟩⟩

/-- What comes behind a check for errors starts without one. -/
theorem keeps_check {x : α} {f : Inflate α} {Q Q' : α → Deflate → Deflate → Prop}
    (hx : ∀ d, d.error ≠ .NONE → Q' x d d) (hf : Keeps (InSource turns) Allowed Q f)
    (h : ∀ a d d', d.error = .NONE → Q a d d' → Q' a d d') :
    Keeps (InSource turns) Allowed Q' (failed >>= fun b => if b = true then pure x else f) := by
  constructor
  intro d hd
  rw [bind_apply, failed_apply, ok_bind, if_apply]
  by_cases herror : d.error = .NONE
  · rw [if_neg (by simp [herror])]
    exact (hf.ends d hd).mono (fun p hp => ⟨hp.1, h p.1 d p.2 herror hp.2⟩) fun _ he => he
  · rw [if_pos (by simp [herror])]
    exact ⟨hd, hx d herror⟩

theorem quiet_check {x : α} {f : Inflate α} (hf : Quiet turns f) :
    Quiet turns (failed >>= fun b => if b = true then pure x else f) :=
  keeps_check (fun d _ => Later.refl d) hf fun _ _ _ _ h => h

/-! ## Memory -/

theorem ends_load (xs : List α) (i : ℕ) : Ends (fun _ => True) Allowed (load xs i) := by
  rw [load]
  split
  · trivial
  · exact allowed_outOfBounds

theorem ends_store (xs : List α) (i : ℕ) (x : α) :
    Ends (fun _ => True) Allowed (store xs i x) := by
  rw [store]
  split
  · trivial
  · exact allowed_outOfBounds

theorem quiet_lift {x : Except Fault α} (hx : Ends (fun _ => True) Allowed x) :
    Quiet turns (liftM x : Inflate α) :=
  Keeps.lift hx fun _ => Later.refl

theorem ends_huffmanTree (tree : Tree) (lengths : List ℕ) (nr_sym : ℕ) :
    Ends (fun _ => True) Allowed (huffmanTree tree lengths nr_sym) := by
  rw [huffmanTree]
  apply Ends.bind (ends_foldlM _ _ _)
  · intro bl_count _
    apply Ends.bind (ends_foldlM _ _ _)
    · exact fun _ _ => trivial
    · intro s it _
      apply (ends_load lengths it).bind
      intro l _
      split
      · apply (ends_load s.2 l).bind
        intro at_ _
        apply (ends_store s.1 at_ _).bind
        intro _ _
        exact (ends_store s.2 l _).bind fun _ _ => trivial
      · trivial
  · intro counts it _
    apply (ends_load lengths it).bind
    intro l _
    exact (ends_load counts l).bind fun _ _ => ends_store counts l _

theorem ends_storeSymbols (xs : List (Option ℕ)) (start n symbol : ℕ) :
    Ends (fun _ => True) Allowed (storeSymbols xs start n symbol) :=
  ends_foldlM _ (fun _ _ _ => ends_store _ _ _) xs

theorem ends_huffmanFixedTree (lt dt : Tree) :
    Ends (fun _ => True) Allowed (huffmanFixedTree lt dt) := by
  rw [huffmanFixedTree]
  apply (ends_storeSymbols _ _ _ _).bind
  intro _ _
  apply (ends_storeSymbols _ _ _ _).bind
  intro _ _
  apply (ends_storeSymbols _ _ _ _).bind
  intro _ _
  apply (ends_storeSymbols _ _ _ _).bind
  intro _ _
  exact (ends_storeSymbols _ _ _ _).bind fun _ _ => trivial

theorem ends_storeLengths (symbol length it : ℕ) (lengths : List ℕ) :
    Ends (fun _ => True) Allowed (storeLengths symbol length it lengths) := by
  induction length generalizing it lengths with
  | zero => trivial
  | succ length ih => exact (ends_store lengths it symbol).bind fun _ _ => ih _ _

/-! ## Bits -/

/-- There are `k` bits in the accumulator, or there is an error. -/
def Fetched (k : ℕ) (enough : Bool) (d d' : Deflate) : Prop :=
  Later d d' ∧ if enough = true then k ≤ d'.nr_bits else d'.error ≠ .NONE

/-- A turn of the loop that fetches bytes brings the number of bits asked for nearer. -/
theorem fetchTurn_keeps (k : ℕ) :
    Keeps (InSource turns) Allowed (Nearer (fun d => k - d.nr_bits) Later (Fetched k))
      (fetchTurn k) := by
  constructor
  intro d hd
  by_cases henough : k ≤ d.nr_bits
  · rw [fetchTurn_enough henough]
    exact ⟨hd, Later.refl d, henough⟩
  · rw [not_le] at henough
    cases hb : d.source[d.in_ptr]? with
    | none =>
        have hend : d.in_ptr = d.in_end := le_antisymm hd.1 (List.getElem?_eq_none_iff.1 hb)
        rw [fetchTurn_end henough hend]
        have herror : Err.OVERFLOW ≠ .NONE := by decide
        exact ⟨hd, ⟨rfl, le_rfl, fun _ => herror⟩, herror⟩
    | some b =>
        have hlt := in_ptr_lt hb
        by_cases hshift : 32 ≤ d.nr_bits
        · rw [fetchTurn_shift henough hb hshift]
          simp [Allowed]
        · rw [fetchTurn_fetch henough hb (by omega)]
          have hleft : (d.fetch b).left = d.left := by
            show d.nr_bits + 8 + 8 * (d.in_end - (d.in_ptr + 1)) = _
            rw [Deflate.left]
            omega
          refine ⟨⟨hlt, by rw [hleft]; exact hd.2⟩, ⟨rfl, hleft.le, id⟩, ?_⟩
          show k - (d.nr_bits + 8) < k - d.nr_bits
          omega

/-- `get_bits` takes as many bits as it was asked for. -/
theorem getBits_keeps (k : ℕ) :
    Keeps (InSource turns) Allowed (fun _ d d' => Later d d' ∧
      (d'.left + k ≤ d.left ∨ d'.error ≠ .NONE)) (getBits k) := by
  apply keeps_check (Q := fun _ d d' => Later d d' ∧ (d'.left + k ≤ d.left ∨ d'.error ≠ .NONE))
    (fun d herror => ⟨Later.refl d, .inr herror⟩) _ fun _ _ _ _ h => h
  apply Keeps.bind (Q := Fetched k)
    (R := fun enough _ d d' => Later d d' ∧ if enough = true then
      k ≤ d.nr_bits → d'.left + k ≤ d.left else d' = d)
  · constructor
    intro d hd
    apply Keeps.iterate (fun _ => fetchTurn_keeps k) _ (k + 1) () d hd (by omega)
    rintro enough d d' d'' hlater ⟨hlater', h⟩
    exact ⟨hlater.trans hlater', h⟩
  · intro enough
    cases enough with
    | false => exact Keeps.pure fun d => ⟨Later.refl d, rfl⟩
    | true =>
        rw [if_pos rfl]
        apply Keeps.ite (Keeps.throw (by simp [Allowed]))
        apply Keeps.get_bind
        intro d hd
        have hleft : ({ d with bit_accum := d.bit_accum >>> k, nr_bits := d.nr_bits - k } :
            Deflate).left ≤ d.left := by
          show d.nr_bits - k + 8 * (d.in_end - d.in_ptr) ≤ _
          rw [Deflate.left]
          omega
        refine ⟨⟨hd.1, lt_of_le_of_lt hleft hd.2⟩, ⟨rfl, hleft, id⟩, fun hk => ?_⟩
        show d.nr_bits - k + 8 * (d.in_end - d.in_ptr) + k ≤ _
        rw [Deflate.left]
        omega
  · rintro enough _ d d' d'' ⟨hlater, h⟩ ⟨hlater', h'⟩
    refine ⟨hlater.trans hlater', ?_⟩
    cases enough with
    | true => exact .inl ((h' h).trans hlater.left)
    | false =>
        obtain rfl : d'' = d' := h'
        exact .inr h

theorem quiet_getBits (k : ℕ) : Quiet turns (getBits k) :=
  (getBits_keeps k).mono fun _ _ _ h => h.1

theorem eager_getBits (hk : 0 < k) : Eager turns (getBits k) := by
  apply (getBits_keeps k).mono
  rintro _ d d' ⟨hlater, h⟩
  exact ⟨hlater, h.imp_left fun hless => by omega⟩

theorem quiet_getExtraBits (k base : ℕ) : Quiet turns (getExtraBits k base) :=
  Quiet.bind ((quiet_getBits k).ite (quiet_pure 0)) fun _ => quiet_pure _

/-! ## Symbols and code lengths -/

/-- Each level takes a bit, and behind the last one there is an error. -/
theorem eager_decodeFrom (tree : Tree) (levels it sum offs : ℕ) :
    Eager turns (decodeFrom tree levels it sum offs) := by
  induction levels generalizing it sum offs with
  | zero => exact (eager_raise (by decide)).bind fun _ => quiet_pure _
  | succ levels ih =>
      apply (eager_getBits Nat.one_pos).bind
      intro bit
      apply quiet_check
      apply (quiet_lift (ends_load _ _)).bind
      intro leaves
      apply Keeps.ite
      · apply (quiet_lift (ends_load _ _)).bind
        rintro (_ | symbol)
        · exact Keeps.throw (by simp [Allowed])
        · exact quiet_pure symbol
      · exact (ih _ _ _).quiet

theorem eager_decodeLl : Eager turns decodeLl := by
  apply Keeps.get_bind
  intro d hd
  exact (eager_decodeFrom d.ll _ _ _ _).ends d hd

theorem eager_decodeDistance : Eager turns decodeDistance := by
  apply Keeps.get_bind
  intro d hd
  exact (eager_decodeFrom d.distance _ _ _ _).ends d hd

theorem quiet_readCodeLengths (left it : ℕ) (lengths : List ℕ) :
    Quiet turns (readCodeLengths left it lengths) := by
  induction left generalizing it lengths with
  | zero => exact quiet_pure lengths
  | succ left ih =>
      apply (quiet_getBits 3).bind
      intro bits
      apply (quiet_lift (ends_load _ _)).bind
      intro i
      exact (quiet_lift (ends_store _ _ _)).bind fun _ => ih _ _

theorem quiet_expandSymbol (lengths : List ℕ) (it symbol : ℕ) :
    Quiet turns (expandSymbol lengths it symbol) := by
  apply Keeps.ite
  · apply Keeps.ite
    · exact (eager_raise (by decide)).quiet.bind fun _ => quiet_pure _
    · apply (quiet_lift (ends_load _ _)).bind
      intro l
      exact (quiet_getExtraBits 2 3).bind fun _ => quiet_pure _
  · apply Keeps.ite
    · exact (quiet_getExtraBits 3 3).bind fun _ => quiet_pure _
    · apply Keeps.ite
      · exact (quiet_getExtraBits 7 11).bind fun _ => quiet_pure _
      · exact quiet_pure _

/-! ## Turns -/

/-- A turn that takes a bit or raises an error, and that goes round again only if it took
one. -/
abbrev Turned : Turn α β → Deflate → Deflate → Prop :=
  Nearer Deflate.left Later fun _ => Spent

/-- What goes round again only from a state without an error. -/
def Careful (t : Turn α β) (d d' : Deflate) : Prop :=
  Later d d' ∧ (d.error = .NONE ∨ ∃ b, t = .leave b)

theorem careful_check {x : β} {f : Inflate (Turn α β)} (hf : Quiet turns f) :
    Keeps (InSource turns) Allowed Careful
      (failed >>= fun b => if b = true then pure (.leave x) else f) :=
  keeps_check (fun d _ => ⟨Later.refl d, .inr ⟨x, rfl⟩⟩) hf
    fun _ _ _ herror h => ⟨h, .inl herror⟩

theorem careful_bind {γ : Type} {f : Inflate γ} {g : γ → Inflate (Turn α β)}
    (hf : Quiet turns f) (hg : ∀ a, Keeps (InSource turns) Allowed Careful (g a)) :
    Keeps (InSource turns) Allowed Careful (f >>= g) := by
  apply Keeps.bind hf hg
  rintro _ t d d' d'' hlater ⟨hlater', h⟩
  refine ⟨hlater.trans hlater', ?_⟩
  by_cases herror : d.error = .NONE
  · exact .inl herror
  · exact .inr (h.resolve_left (hlater.error herror))

theorem turned_bind {γ : Type} {f : Inflate γ} {g : γ → Inflate (Turn α β)}
    (hf : Eager turns f) (hg : ∀ a, Keeps (InSource turns) Allowed Careful (g a)) :
    Keeps (InSource turns) Allowed Turned (f >>= g) := by
  apply Keeps.bind hf hg
  rintro _ t d d' d'' hspent ⟨hlater, h⟩
  cases t with
  | leave b => exact hspent.trans hlater
  | again a =>
      refine ⟨hspent.1.trans hlater, ?_⟩
      have herror : d'.error = .NONE := h.resolve_right fun ⟨_, heq⟩ => nomatch heq
      exact lt_of_le_of_lt hlater.left (hspent.2.resolve_right fun hno => hno herror)

/-- A loop moves on, and ends. -/
theorem quiet_iterate {body : α → Inflate (Turn α β)}
    (hbody : ∀ a, Keeps (InSource turns) Allowed
      (Nearer Deflate.left Later fun _ => Later) (body a)) (a : α) :
    Quiet turns (iterate .unfinished body turns a) := by
  constructor
  intro d hd
  exact Keeps.iterate hbody (fun _ _ _ _ => Later.trans) turns a d hd hd.2

theorem Turned.nearer {t : Turn α β} {d d' : Deflate} (h : Turned t d d') :
    Nearer Deflate.left Later (fun (_ : β) => Later) t d d' := by
  cases t with
  | again a => exact h
  | leave b => exact h.1

/-! ## The three loops -/

theorem lengthTurn_turned (n : ℕ) (s : ℕ × List ℕ) (hs : s.1 < n) :
    Keeps (InSource turns) Allowed Turned (lengthTurn n s) := by
  rw [lengthTurn]
  dsimp only
  rw [if_pos hs]
  apply turned_bind eager_decodeLl
  intro symbol
  apply careful_check
  apply (quiet_expandSymbol _ _ _).bind
  rintro ⟨l, length⟩
  apply quiet_check
  exact (quiet_lift (ends_storeLengths _ _ _ _)).bind fun _ => quiet_pure _

theorem lengthTurn_nearer (n : ℕ) (s : ℕ × List ℕ) :
    Keeps (InSource turns) Allowed (Nearer Deflate.left Later fun _ => Later)
      (lengthTurn n s) := by
  by_cases hs : s.1 < n
  · exact (lengthTurn_turned n s hs).mono fun _ _ _ => Turned.nearer
  · rw [lengthTurn]
    dsimp only
    rw [if_neg hs]
    exact Keeps.pure Later.refl

theorem quiet_huffmanDynamicTree : Quiet turns (huffmanDynamicTree turns) := by
  apply (quiet_getExtraBits 5 257).bind
  intro hlit
  apply (quiet_getExtraBits 5 1).bind
  intro hdist
  apply (quiet_getExtraBits 4 4).bind
  intro hclen
  apply quiet_check
  apply (quiet_readCodeLengths _ _ _).bind
  intro lengths
  apply quiet_check
  apply Keeps.get_bind
  intro d hd
  apply Keeps.lift_bind (ends_huffmanTree _ _ _)
  intro ll
  have hrest : Quiet turns (do
      let lengths ← iterate .unfinished (lengthTurn (hlit + hdist)) turns (0, lengths)
      if ← failed then
        return
      else
        let d ← get
        let ll ← huffmanTree d.ll lengths hlit
        let distance ← huffmanTree d.distance (lengths.drop hlit) hdist
        set { d with ll, distance }) := by
    apply (quiet_iterate (fun s => lengthTurn_nearer (hlit + hdist) s) _).bind
    intro lengths
    apply quiet_check
    apply Keeps.get_bind
    intro d hd
    apply Keeps.lift_bind (ends_huffmanTree _ _ _)
    intro ll
    apply Keeps.lift_bind (ends_huffmanTree _ _ _)
    intro distance
    exact ⟨hd, rfl, le_rfl, id⟩
  apply (hrest.ends { d with ll } hd).mono
  · exact fun p hp => ⟨hp.1, hp.2.source, hp.2.left, hp.2.error⟩
  · exact fun _ he => he

variable {cap : ℕ}

theorem quiet_storeDest (b : UInt8) : Quiet turns (storeDest cap b) := by
  apply Keeps.get_bind
  intro d hd
  rw [if_apply]
  split
  · exact ⟨hd, rfl, le_rfl, id⟩
  · simp [Allowed]

theorem quiet_copyMatch (offset length : ℕ) : Quiet turns (copyMatch cap offset length) := by
  induction length with
  | zero => exact quiet_pure _
  | succ length ih =>
      apply Keeps.get_bind
      intro d hd
      rw [if_apply]
      split
      · simp [Allowed]
      · apply Keeps.lift_bind (ends_load _ _)
        intro b
        exact ((quiet_storeDest b).bind fun _ => ih).ends d hd

/-- The extra bits that a table gives for an entry, added to its base. -/
theorem quiet_tables (bits base : List ℕ) (i : ℕ) :
    Quiet turns (do getExtraBits (← load bits i) (← load base i)) := by
  apply (quiet_lift (ends_load bits i)).bind
  intro k
  apply (quiet_lift (ends_load base i)).bind
  exact fun _ => quiet_getExtraBits _ _

theorem quiet_getLength (symbol : ℕ) : Quiet turns (getLength symbol) := by
  rw [getLength]
  generalize symbol - SYM_LL_LENGTH = i
  exact quiet_tables length_bits length_base i

theorem quiet_getOffset (distance : ℕ) : Quiet turns (getOffset distance) :=
  quiet_tables dist_bits dist_base distance

theorem symbolTurn_turned (t_dest : ℕ) :
    Keeps (InSource turns) Allowed Turned (symbolTurn cap t_dest) := by
  apply turned_bind eager_decodeLl
  intro symbol
  apply careful_check
  apply Keeps.ite
  · apply Quiet.bind _ fun _ => quiet_pure _
    exact ⟨fun d hd => ⟨hd, rfl, le_rfl, id⟩⟩
  · apply Keeps.ite
    · exact (quiet_storeDest _).bind fun _ => quiet_pure _
    · apply (quiet_getLength symbol).bind
      intro length
      apply eager_decodeDistance.quiet.bind
      intro distance
      apply (quiet_getOffset distance).bind
      intro offset
      apply quiet_check
      exact (quiet_copyMatch _ _).bind fun _ => quiet_pure _

theorem quiet_deflateBlock : Quiet turns (deflateBlock cap turns) := by
  apply Keeps.get_bind
  intro d hd
  exact (quiet_iterate (fun _ => (symbolTurn_turned _).mono fun _ _ _ => Turned.nearer) ()).ends
    d hd

/-- The bytes of a stored block are all in the source. -/
theorem copyStored_ends (k : ℕ) (d : Deflate) (h : d.in_ptr + k ≤ d.in_end) :
    Ends (fun p => p.2.source = d.source ∧ p.2.in_ptr = d.in_ptr + k ∧
      p.2.error = d.error ∧ p.2.nr_bits = d.nr_bits) Allowed (copyStored cap k d) := by
  induction k generalizing d with
  | zero => exact ⟨rfl, rfl, rfl, rfl⟩
  | succ k ih =>
      have hlt : d.in_ptr < d.source.length := by
        have hend : d.in_end = d.source.length := rfl
        omega
      have hload : loadSource d.source d.in_ptr = .ok d.source[d.in_ptr] := by
        simp [loadSource, hlt]
      simp only [copyStored, bind_apply, get_apply, ok_bind, liftM_apply, hload, set_apply]
      rw [storeDest]
      simp only [bind_apply, get_apply, ok_bind, if_apply]
      split
      · apply (ih _ (by show d.in_ptr + 1 + k ≤ d.in_end; omega)).mono
        · rintro p ⟨hsource, hptr, herror, hnr⟩
          refine ⟨hsource, ?_, herror, hnr⟩
          rw [hptr]
          show d.in_ptr + 1 + k = _
          omega
        · exact fun _ he => he
      · simp [Allowed]

theorem ends_getUnalignedLe16 {source : List UInt8} {i : ℕ} (h : i + 1 < source.length) :
    Ends (fun _ => True) Allowed (getUnalignedLe16 source i) := by
  have hi : i < source.length := by omega
  simp [getUnalignedLe16, loadSource, h, hi, pure, Except.pure]

/-- A stored block takes at least the four bytes of its header. -/
theorem quiet_deflateUncompressedBlock : Quiet turns (deflateUncompressedBlock cap) := by
  apply Keeps.get_bind
  intro d hd
  rw [if_apply]
  split
  next => exact (eager_raise (by decide)).quiet.ends d hd
  next hshort =>
      have hheader : d.in_ptr + 1 < d.in_end := by omega
      apply Keeps.lift_bind (ends_getUnalignedLe16 hheader)
      intro length
      simp only [bind_apply, set_apply, ok_bind, if_apply]
      have hleft : d.nr_bits + 8 * (d.in_end - (d.in_ptr + 4)) ≤ d.left := by
        rw [Deflate.left]
        omega
      split
      next =>
          have herror : Err.OVERFLOW ≠ .NONE := by decide
          have hptr : d.in_ptr + 4 ≤ d.in_end := by omega
          exact ⟨⟨hptr, lt_of_le_of_lt hleft hd.2⟩, rfl, hleft, fun _ => herror⟩
      next hlong =>
          have hlong' : length ≤ d.in_end - (d.in_ptr + 4) := not_lt.1 hlong
          apply (copyStored_ends length { d with in_ptr := d.in_ptr + 4 }
            (by show d.in_ptr + 4 + length ≤ d.in_end; omega)).bind
          rintro ⟨_, d'⟩ ⟨hsource, hptr, herror, _⟩
          have hsource' : d'.source = d.source := hsource
          have hend : d'.in_end = d.in_end := congrArg List.length hsource'
          have hptr' : d'.in_ptr = d.in_ptr + 4 + length := hptr
          have hless : 0 + 8 * (d'.in_end - d'.in_ptr) ≤ d.left := by
            rw [hend, hptr', Deflate.left]
            omega
          refine ⟨⟨?_, lt_of_le_of_lt hless hd.2⟩, hsource', hless, fun h => ?_⟩
          · show d'.in_ptr ≤ d'.in_end
            omega
          · show d'.error ≠ .NONE
            rwa [herror]

theorem quiet_deflateBlockOfType (block_type : ℕ) :
    Quiet turns (deflateBlockOfType cap turns block_type) := by
  apply Keeps.ite quiet_deflateUncompressedBlock
  apply Keeps.ite
  · apply Keeps.get_bind
    intro d hd
    apply Keeps.lift_bind (ends_huffmanFixedTree _ _)
    rintro ⟨ll, distance⟩
    apply (quiet_deflateBlock.ends { d with ll, distance } hd).mono
    · exact fun p hp => ⟨hp.1, hp.2.source, hp.2.left, hp.2.error⟩
    · exact fun _ he => he
  · apply Keeps.ite
    · apply quiet_huffmanDynamicTree.bind
      intro _
      exact quiet_check quiet_deflateBlock
    · exact (eager_raise (by decide)).quiet

theorem bufferTurn_turned : Keeps (InSource turns) Allowed Turned (bufferTurn cap turns) := by
  apply turned_bind (eager_getBits Nat.one_pos)
  intro block_final
  apply careful_bind (quiet_getBits 2)
  intro block_type
  apply careful_check
  apply (quiet_deflateBlockOfType block_type).bind
  intro _
  apply Keeps.get_bind
  intro d hd
  rw [if_apply]
  split <;> exact ⟨hd, Later.refl d⟩

theorem initial_inSource (source : List UInt8) :
    InSource (turnBound source) (initial source) := by
  refine ⟨Nat.zero_le _, ?_⟩
  show 0 + 8 * (source.length - 0) < 8 * source.length + 1
  omega

/-- A call that returns has the source in place and `in_ptr` inside it, and one that stops
has neither run out of turns nor read past the source. -/
theorem deflateBuffer_ends (cap dest_len : ℕ) (source : List UInt8) :
    Ends (fun r => r.d.source = source ∧ r.d.in_ptr ≤ source.length) Allowed
      (deflateBuffer cap dest_len source) := by
  have hturn : Keeps (InSource (turnBound source)) Allowed Turned
      (bufferTurn cap (turnBound source)) := bufferTurn_turned
  have hloop := (quiet_iterate (fun _ => hturn.mono fun _ _ _ => Turned.nearer) ()).ends
    (initial source) (initial_inSource source)
  rw [deflateBuffer]
  apply hloop.bind
  rintro ⟨_, d⟩ ⟨⟨hptr, _⟩, hlater⟩
  have hsource : d.source = source := hlater.source
  refine ⟨hsource, ?_⟩
  rw [Deflate.in_end, hsource] at hptr
  exact hptr

/-- `deflate_buffer` ends whatever it is given: each turn of its loops takes a bit or
raises an error, and `in_ptr` stays in the source. -/
theorem deflateBuffer_terminates (cap dest_len : ℕ) (source : List UInt8) :
    Ends (fun r => r.d.source = source ∧ r.d.in_ptr ≤ source.length) Allowed
        (deflateBuffer cap dest_len source) ∧
      ∀ turns,
        Keeps (InSource turns) Allowed Turned (bufferTurn cap turns) ∧
        (∀ t_dest, Keeps (InSource turns) Allowed Turned (symbolTurn cap t_dest)) ∧
        ∀ n s, s.1 < n → Keeps (InSource turns) Allowed Turned (lengthTurn n s) :=
  ⟨deflateBuffer_ends cap dest_len source,
    fun _ => ⟨bufferTurn_turned, symbolTurn_turned, lengthTurn_turned⟩⟩

end Cyanea.Boot
