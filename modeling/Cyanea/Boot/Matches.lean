/-
# What the symbols of a block touch

`deflate_block` looks the length and distance symbols up in tables of thirty entries, asks
for the extra bits that these give, and copies bytes from behind its destination. None of
the three is checked. The tables, the accumulator and the output are never left exactly if
the symbols of the block are those that the format allows: the fixed codes have codewords
for others, and a distance can reach further back than the output.
-/

import Cyanea.Boot.DeflateBuffer

namespace Cyanea.Boot

open Math.Bits Math.PrefixCode Math.Simulation Rfc1951

/-! ## Deeds and signs -/

/-- What `deflate_block` does that could go wrong. -/
inductive Deed
  /-- An element of `length_bits` and `length_base`, or of `dist_bits` and `dist_base`, is
  looked up. -/
  | index (i : ℕ)
  /-- `get_bits` is asked for so many bits. -/
  | ask (nr_bits : ℕ)
  /-- A byte is read that many bytes from the start of the output. -/
  | read (i : ℤ)

def Deed.Inside : Deed → Prop
  | .index i => i < 30
  | .ask nr_bits => nr_bits ≤ 16
  | .read i => 0 ≤ i

/-- A length symbol is decoded. -/
structure LengthSymbol (d : Deflate) (s : ℕ) (d₁ : Deflate) : Prop where
  run : decodeLl d = .ok (s, d₁)
  error : d₁.error = .NONE
  isLength : SYM_LL_EOB < s

/-- Behind the length a distance symbol is decoded, or zero where there was an error. -/
structure DistanceSymbol (d : Deflate) (length t : ℕ) (d₃ : Deflate) : Prop where
  run : ∃ s d₁ d₂, LengthSymbol d s d₁ ∧ getLength s d₁ = .ok (length, d₂) ∧
    decodeDistance d₂ = .ok (t, d₃)

/-- What the loop over the symbols does from the turn on that starts with `d`. -/
inductive Does (cap t_dest : ℕ) : Deflate → Deed → Prop
  | bit {d : Deflate} : Does cap t_dest d (.ask 1)
  | lengthIndex {d d₁ : Deflate} {s : ℕ} : LengthSymbol d s d₁ →
      Does cap t_dest d (.index (s - SYM_LL_LENGTH))
  | lengthBits {d d₁ : Deflate} {s k : ℕ} : LengthSymbol d s d₁ →
      length_bits[s - SYM_LL_LENGTH]? = some k → k ≠ 0 → Does cap t_dest d (.ask k)
  | distanceIndex {d d₃ : Deflate} {length t : ℕ} : DistanceSymbol d length t d₃ →
      Does cap t_dest d (.index t)
  | distanceBits {d d₃ : Deflate} {length t k : ℕ} : DistanceSymbol d length t d₃ →
      dist_bits[t]? = some k → k ≠ 0 → Does cap t_dest d (.ask k)
  | copied {d d₃ d₄ : Deflate} {length t offset it : ℕ} : DistanceSymbol d length t d₃ →
      getOffset t d₃ = .ok (offset, d₄) → d₄.error = .NONE → it < length →
      Does cap t_dest d (.read (d₄.dest.length + it - offset))
  | later {d d' : Deflate} {deed : Deed} : symbolTurn cap t_dest d = .ok (.again (), d') →
      Does cap t_dest d' deed → Does cap t_dest d deed

/-- What a reading of the symbols comes across. -/
inductive Sign
  | length (s : ℕ)
  | distance (t : ℕ)
  /-- A distance, and how many bytes of output there are. -/
  | reach (offset produced : ℕ)

def Sign.Legal : Sign → Prop
  | .length s => s ≤ 285
  | .distance t => t ≤ 29
  | .reach offset produced => offset ≤ produced

/-- A length symbol is read. -/
structure ReadsLength (literal : List ℕ) (r : Reading) (s : ℕ) (r₁ : Reading) : Prop where
  run : (symbol literal).run r = .ok s r₁
  isLength : endOfBlock < s

/-- A length and, behind it, a distance symbol are read. -/
structure ReadsDistance (literal dist : List ℕ) (r : Reading) (length t : ℕ) (r₃ : Reading) :
    Prop where
  run : ∃ s r₁ r₂, ReadsLength literal r s r₁ ∧ (lengthOf (s - 257)).run r₁ = .ok length r₂ ∧
    (symbol dist).run r₂ = .ok t r₃

/-- What the symbols of a block with these codes come across. -/
inductive Meets (literal dist : List ℕ) : Reading → Sign → Prop
  | length {r r₁ : Reading} {s : ℕ} : ReadsLength literal r s r₁ →
      Meets literal dist r (.length s)
  | distance {r r₃ : Reading} {length t : ℕ} : ReadsDistance literal dist r length t r₃ →
      Meets literal dist r (.distance t)
  | reach {r r₃ r₄ : Reading} {length t offset : ℕ} :
      ReadsDistance literal dist r length t r₃ → (distanceOf t).run r₃ = .ok offset r₄ →
      Meets literal dist r (.reach offset r₄.out.length)
  | later {r r' : Reading} {sign : Sign} :
      (Rfc1951.symbolTurn literal dist).run r = .ok (.again ()) r' →
      Meets literal dist r' sign → Meets literal dist r sign

/-! ## One turn -/

theorem length_bits_le : ∀ i < 29, ∀ k, length_bits[i]? = some k → k ≤ 16 := by
  decide

theorem dist_bits_le : ∀ i < 30, ∀ k, dist_bits[i]? = some k → k ≤ 16 := by
  decide

section Outcomes

variable {α β : Type} {M : Deflate → Reading → Prop} {f : Inflate α} {g : Reader Reading β}
  {N : α → β → Deflate → Reading → Prop} {P : α → Prop} {d d' : Deflate} {r r' : Reading} {a : α}
  {b : β}

theorem run_of_read (h : ∀ cap, Sim (setting cap) M f g N P) (hm : M d r)
    (hread : g.run r = .ok b r') : ∃ a d', f d = .ok (a, d') ∧ N a b d' r' := by
  have hle := g.le_run r
  rw [hread] at hle
  have hagrees := h r'.out.length d r hm (Reading.out_le hle)
  rw [hread] at hagrees
  exact hagrees.2 (Nat.le_refl _)

theorem read_of_run (h : ∀ cap, Sim (setting cap) M f g N P) (hm : M d r)
    (hrun : f d = .ok (a, d')) :
    (∃ b r', g.run r = .ok b r' ∧ N a b d' r') ∨ d'.error ≠ .NONE ∧ P a := by
  have hagrees := h r.out.length d r hm (Nat.le_refl _)
  rw [hrun] at hagrees
  exact hagrees.ok_cases

end Outcomes

section Turn

variable {cap n t_dest length t s : ℕ} {frame : Frame} {literal dist : List ℕ}
  {d d' d₁ d₃ : Deflate} {r r' r₁ r₃ : Reading}

theorem LengthSymbol.reads (hll : Represents frame.ll literal) (hd : Within frame (n + 1) d r)
    (h : LengthSymbol d s d₁) :
    ∃ r₁, ReadsLength literal r s r₁ ∧ Within frame n d₁ r₁ := by
  rcases read_of_run (fun _ => decodeLl_within hll) hd h.run with
    ⟨_, r₁, hread, ⟨rfl, -⟩, hd₁⟩ | ⟨herror, -⟩
  · exact ⟨r₁, ⟨hread, h.isLength⟩, hd₁⟩
  · exact absurd h.error herror

theorem ReadsLength.symbol (hll : Represents frame.ll literal) (hd : Within frame (n + 1) d r)
    (h : ReadsLength literal r s r₁) : ∃ d₁, LengthSymbol d s d₁ ∧ Within frame n d₁ r₁ := by
  obtain ⟨_, d₁, hrun, ⟨rfl, -⟩, hd₁⟩ := run_of_read (fun _ => decodeLl_within hll) hd h.run
  exact ⟨d₁, ⟨hrun, hd₁.error, h.isLength⟩, hd₁⟩

/-- Where an error has been raised the next symbol is zero, and stands for no extra bits. -/
theorem DistanceSymbol.reads (hll : Represents frame.ll literal)
    (hdist : Represents frame.distance dist) (hd : Within frame (n + 1) d r)
    (h : DistanceSymbol d length t d₃) :
    (∃ r₃, ReadsDistance literal dist r length t r₃ ∧ Within frame n d₃ r₃) ∨
      t = 0 ∧ d₃.error ≠ .NONE := by
  obtain ⟨s, d₁, d₂, hsymbol, hlength, hdistance⟩ := h.run
  obtain ⟨r₁, hreads, hd₁⟩ := hsymbol.reads hll hd
  rcases read_of_run (fun _ => getLength_within s) hd₁ hlength with
    ⟨_, r₂, hlen, ⟨rfl, -⟩, hd₂⟩ | ⟨herror, -⟩
  · rcases read_of_run (fun _ => decodeDistance_within hdist) hd₂ hdistance with
      ⟨_, r₃, hread, rfl, hd₃⟩ | ⟨herror, rfl⟩
    · exact .inl ⟨r₃, ⟨s, r₁, r₂, hreads, hlen, hread⟩, hd₃⟩
    · exact .inr ⟨rfl, herror⟩
  · have hidle : Idle (setting 0) decodeDistance (· = 0) := idle_decodeDistance
    obtain ⟨_, hzero, rfl⟩ := hidle d₂ herror
    obtain ⟨rfl, rfl⟩ := Prod.mk.inj (Except.ok.inj (hzero.symm.trans hdistance))
    exact .inr ⟨rfl, herror⟩

theorem ReadsDistance.symbol (hll : Represents frame.ll literal)
    (hdist : Represents frame.distance dist) (hd : Within frame (n + 1) d r)
    (h : ReadsDistance literal dist r length t r₃) :
    ∃ d₃, DistanceSymbol d length t d₃ ∧ 0 < length ∧ Within frame n d₃ r₃ := by
  obtain ⟨s, r₁, r₂, hreads, hlength, hdistance⟩ := h.run
  obtain ⟨d₁, hsymbol, hd₁⟩ := hreads.symbol hll hd
  obtain ⟨_, d₂, hlen, ⟨rfl, hpos⟩, hd₂⟩ := run_of_read (fun _ => getLength_within s) hd₁ hlength
  obtain ⟨_, d₃, hrun, rfl, hd₃⟩ :=
    run_of_read (fun _ => decodeDistance_within hdist) hd₂ hdistance
  exact ⟨d₃, ⟨s, d₁, d₂, hsymbol, hlen, hrun⟩, hpos, hd₃⟩

/-- The relation of the turns of the loop: any bound on the bits left will do. -/
def Follow (frame : Frame) (d : Deflate) (r : Reading) : Prop :=
  Within frame (r.bits.length + 1) d r

theorem Within.follow (h : Within frame n d r) : Follow frame d r :=
  { h with left := Nat.lt_succ_self _ }

theorem symbolTurn_agrees (t_dest : ℕ) (hll : Represents frame.ll literal)
    (hdist : Represents frame.distance dist) (hd : Follow frame d r) (hr : r.out.length ≤ cap) :
    Agrees (setting cap) (symbolTurn cap t_dest d) ((Rfc1951.symbolTurn literal dist).run r)
      (SymbolTurn frame t_dest r.bits.length r.bits.length) (Leaves fun _ => True) :=
  symbolTurn_sim hll hdist t_dest le_rfl d r hd hr

/-- A turn of the loop that does not end it is a turn of the reading. -/
theorem turn_of_run (hll : Represents frame.ll literal) (hdist : Represents frame.distance dist)
    (hd : Follow frame d r) (hr : r.out.length ≤ cap)
    (hrun : symbolTurn cap t_dest d = .ok (.again (), d')) :
    ∃ r', (Rfc1951.symbolTurn literal dist).run r = .ok (.again ()) r' ∧ r'.out.length ≤ cap ∧
      Follow frame d' r' := by
  have hagrees := symbolTurn_agrees t_dest hll hdist hd hr
  rw [hrun] at hagrees
  rcases hagrees.ok_cases with ⟨turn, r', hread, hturn⟩ | ⟨-, hleaves⟩
  · cases turn with
    | again u =>
        rw [hread] at hagrees
        refine ⟨r', hread, ?_, hturn.1.follow⟩
        by_contra hfull
        exact absurd (hagrees.1 hfull) nofun
    | leave u => exact hturn.elim
  · exact hleaves.elim

theorem turn_of_read (t_dest : ℕ) (hll : Represents frame.ll literal)
    (hdist : Represents frame.distance dist) (hd : Follow frame d r)
    (hread : (Rfc1951.symbolTurn literal dist).run r = .ok (.again ()) r')
    (hr' : r'.out.length ≤ cap) :
    ∃ d', symbolTurn cap t_dest d = .ok (.again (), d') ∧ Follow frame d' r' := by
  have hle := (Rfc1951.symbolTurn literal dist).le_run r
  rw [hread] at hle
  have hagrees := symbolTurn_agrees t_dest hll hdist hd ((Reading.out_le hle).trans hr')
  rw [hread] at hagrees
  obtain ⟨turn, d', hrun, hturn⟩ := hagrees.2 hr'
  cases turn with
  | again u => exact ⟨d', hrun, hturn.1.follow⟩
  | leave u => exact hturn.elim

end Turn

/-! ## A block -/

section Block

variable {cap t_dest : ℕ} {frame : Frame} {literal dist : List ℕ} {d : Deflate} {r : Reading}
  {deed : Deed} {sign : Sign}

/-- Where everything is legal, nothing goes wrong. -/
theorem Does.inside (hll : Represents frame.ll literal) (hdist : Represents frame.distance dist)
    (hd : Follow frame d r) (hr : r.out.length ≤ cap)
    (hlegal : ∀ sign, Meets literal dist r sign → sign.Legal) (h : Does cap t_dest d deed) :
    deed.Inside := by
  induction h generalizing r with
  | bit => exact (by decide : 1 ≤ 16)
  | @lengthIndex d d₁ s hsymbol =>
      obtain ⟨r₁, hreads, -⟩ := hsymbol.reads hll hd
      have hle : s ≤ 285 := hlegal _ (.length hreads)
      show s - 257 < 30
      omega
  | @lengthBits d d₁ s k hsymbol hbits hk =>
      obtain ⟨r₁, hreads, -⟩ := hsymbol.reads hll hd
      have hle : s ≤ 285 := hlegal _ (.length hreads)
      exact length_bits_le (s - 257) (by omega) k hbits
  | @distanceIndex d d₃ length t hsymbol =>
      rcases hsymbol.reads hll hdist hd with ⟨r₃, hreads, -⟩ | ⟨rfl, -⟩
      · have hle : t ≤ 29 := hlegal _ (.distance hreads)
        exact Nat.lt_succ_of_le hle
      · exact (by decide : 0 < 30)
  | @distanceBits d d₃ length t k hsymbol hbits hk =>
      rcases hsymbol.reads hll hdist hd with ⟨r₃, hreads, -⟩ | ⟨rfl, -⟩
      · have hle : t ≤ 29 := hlegal _ (.distance hreads)
        exact dist_bits_le t (Nat.lt_succ_of_le hle) k hbits
      · exact dist_bits_le 0 (by decide) k hbits
  | @copied d d₃ d₄ length t offset it hsymbol hoffset herror hit =>
      rcases hsymbol.reads hll hdist hd with ⟨r₃, hreads, hd₃⟩ | ⟨rfl, hfailed⟩
      · rcases read_of_run (fun _ => getOffset_within t) hd₃ hoffset with
          ⟨_, r₄, hread, ⟨rfl, -⟩, hd₄⟩ | ⟨hfailed, -⟩
        · have hle : offset ≤ r₄.out.length := hlegal _ (.reach hreads hread)
          have hdest : d₄.dest.length = r₄.out.length := congrArg List.length hd₄.dest
          show 0 ≤ (d₄.dest.length : ℤ) + it - offset
          omega
        · exact absurd herror hfailed
      · have hidle : Idle (setting 0) (getOffset 0) (fun _ => True) := idle_getOffset_zero
        obtain ⟨_, hzero, -⟩ := hidle d₃ hfailed
        obtain ⟨-, rfl⟩ := Prod.mk.inj (Except.ok.inj (hzero.symm.trans hoffset))
        exact absurd herror hfailed
  | @later d d' deed hturn _ ih =>
      obtain ⟨r', hread, hr', hd'⟩ := turn_of_run hll hdist hd hr hturn
      exact ih hd' hr' fun sign hmeets => hlegal sign (.later hread hmeets)

/-- Where something illegal is come across, something goes wrong, if there is room to get
there. -/
theorem Meets.outside (t_dest : ℕ) (hll : Represents frame.ll literal)
    (hdist : Represents frame.distance dist) (h : Meets literal dist r sign) (hillegal : ¬ sign.Legal) :
    ∃ least, ∀ cap, least ≤ cap → ∀ d, Follow frame d r →
      ∃ deed, Does cap t_dest d deed ∧ ¬ deed.Inside := by
  induction h with
  | @length r r₁ s hreads =>
      refine ⟨0, fun cap _ d hd => ?_⟩
      obtain ⟨d₁, hsymbol, -⟩ := hreads.symbol hll hd
      have hlt : 285 < s := not_le.mp hillegal
      by_cases hlast : s = 286
      · subst hlast
        refine ⟨.ask 127, .lengthBits hsymbol rfl (by decide), ?_⟩
        exact (by decide : ¬ 127 ≤ 16)
      · refine ⟨.index (s - SYM_LL_LENGTH), .lengthIndex hsymbol, ?_⟩
        show ¬ s - 257 < 30
        omega
  | @distance r r₃ length t hreads =>
      refine ⟨0, fun cap _ d hd => ?_⟩
      obtain ⟨d₃, hsymbol, -⟩ := hreads.symbol hll hdist hd
      have hlt : 29 < t := not_le.mp hillegal
      exact ⟨.index t, .distanceIndex hsymbol, not_lt.mpr hlt⟩
  | @reach r r₃ r₄ length t offset hreads hoffset =>
      refine ⟨0, fun cap _ d hd => ?_⟩
      obtain ⟨d₃, hsymbol, hpos, hd₃⟩ := hreads.symbol hll hdist hd
      obtain ⟨v, d₄, hrun, ⟨hv, -⟩, hd₄⟩ :=
        run_of_read (fun _ => getOffset_within t) hd₃ hoffset
      have hdest : d₄.dest.length = r₄.out.length := congrArg List.length hd₄.dest
      have hlt : r₄.out.length < offset := not_le.mp hillegal
      refine ⟨_, .copied hsymbol hrun hd₄.error hpos, ?_⟩
      show ¬ 0 ≤ (d₄.dest.length : ℤ) + (0 : ℕ) - v
      omega
  | @later r r' sign hread _ ih =>
      obtain ⟨least, hleast⟩ := ih hillegal
      refine ⟨max r'.out.length least, fun cap hcap d hd => ?_⟩
      obtain ⟨d', hrun, hd'⟩ :=
        turn_of_read t_dest hll hdist hd hread ((le_max_left _ _).trans hcap)
      obtain ⟨deed, hdoes, houtside⟩ := hleast cap ((le_max_right _ _).trans hcap) d' hd'
      exact ⟨deed, .later hrun hdoes, houtside⟩

/-- Nothing goes wrong, whatever room there is, exactly if all that the reading comes across
is legal. -/
theorem does_inside_iff (hll : Represents frame.ll literal)
    (hdist : Represents frame.distance dist) (hd : Follow frame d r) :
    (∀ cap deed, d.dest.length ≤ cap → Does cap t_dest d deed → deed.Inside) ↔
      ∀ sign, Meets literal dist r sign → sign.Legal := by
  have hdest : d.dest.length = r.out.length := congrArg List.length hd.dest
  rw [hdest]
  constructor
  · intro hinside sign hmeets
    by_contra hillegal
    obtain ⟨least, hleast⟩ := hmeets.outside t_dest hll hdist hillegal
    obtain ⟨deed, hdoes, houtside⟩ := hleast (max r.out.length least) (le_max_right _ _) d hd
    exact houtside (hinside _ deed (le_max_left _ _) hdoes)
  · intro hlegal cap deed hr hdoes
    exact hdoes.inside hll hdist hd hr hlegal

end Block

/-! ## The trees -/

/-- How the trees of a compressed block are built. -/
inductive Trees
  | fixed
  | dynamic

/-- What `deflate_buffer` does before it calls `deflate_block`. -/
def buildTrees (turns : ℕ) : Trees → Inflate Unit
  | .fixed => do
      let d ← get
      let (ll, distance) ← huffmanFixedTree d.ll d.distance
      set { d with ll, distance }
  | .dynamic => huffmanDynamicTree turns

/-- The codes of such a block. -/
def readTrees : Trees → Reader Reading (List ℕ × List ℕ)
  | .fixed => pure (fixedLiteral, fixedDistance)
  | .dynamic => codes

section Trees

variable {cap turns : ℕ} {frame : Frame}

theorem buildTrees_sim (hfull : frame.Full) (trees : Trees) :
    Sim (setting cap) (Follows frame turns) (buildTrees turns trees) (readTrees trees)
      (fun _ c => TreesFor frame.dest frame.dest_size c.1 c.2 turns) (fun _ => True) := by
  cases trees with
  | fixed =>
      intro d r hd hr
      obtain ⟨ll, distance, hrun, hll, hdistance, hfullll, hfulldist⟩ :=
        huffmanFixedTree_eq hfull.ll hfull.distance
      refine Agrees.of_ok (a := ()) (d := { d with ll, distance }) ?_ hr ?_
      · rw [← hd.ll, ← hd.distance] at hrun
        simp only [buildTrees, bind_apply, get_apply, ok_bind, liftM_apply, hrun, set_apply]
      · exact ⟨hll, hdistance, ⟨hfullll, hfulldist⟩, hd.setTrees ll distance⟩
  | dynamic => exact huffmanDynamicTree_sim hfull

theorem TreesFor.follow {dest : List UInt8} {size : ℕ} {literal dist : List ℕ} {d : Deflate}
    {r : Reading} (h : TreesFor dest size literal dist turns d r) : Follow d.frame d r := by
  have hframe : d.frame.at r.out = d.frame := by
    rw [← h.follows.dest]
    rfl
  show Follows (d.frame.at r.out) (r.bits.length + 1) d r
  rw [hframe]
  exact { h.follows with left := Nat.lt_succ_self _, frame := rfl }

/-- `deflate_block` stays inside its tables, its accumulator and its output exactly if the
symbols of the block and the distances are legal ones. -/
theorem deflateBlock_inside_iff {d : Deflate} (hd : d.Ready) (hfull : d.frame.Full)
    (hturns : d.bitsLeft.length < turns) (trees : Trees) :
    (∀ d', buildTrees turns trees d = .ok ((), d') → d'.error = .NONE → ∀ cap deed,
      d'.dest.length ≤ cap → Does cap d'.dest.length d' deed → deed.Inside) ↔
    ∀ codes r', (readTrees trees).run d.reading = .ok codes r' → ∀ sign,
      Meets codes.1 codes.2 r' sign → sign.Legal := by
  have hfollows : Follows d.frame turns d d.reading := hd.follows hturns
  constructor
  · intro hinside codes r' hread
    obtain ⟨_, d', hrun, hd'⟩ := run_of_read (fun _ => buildTrees_sim hfull trees) hfollows hread
    exact (does_inside_iff hd'.ll hd'.distance hd'.follow).mp
      (hinside d' hrun hd'.follows.error)
  · intro hlegal d' hrun herror
    rcases read_of_run (fun _ => buildTrees_sim hfull trees) hfollows hrun with
      ⟨codes, r', hread, hd'⟩ | ⟨hfailed, -⟩
    · exact (does_inside_iff hd'.ll hd'.distance hd'.follow).mpr (hlegal codes r' hread)
    · exact absurd herror hfailed

end Trees

/-! ## Fixed codes -/

theorem ready_initial (source : List UInt8) : (initial source).Ready :=
  (initial_boundary source).follows.ready

theorem bitsLeft_initial (source : List UInt8) :
    (initial source).bitsLeft.length < turnBound source := by
  have hleft := (initial_boundary source).follows.left
  rwa [← (initial_boundary source).follows.bits] at hleft

theorem run_symbol {lens : List ℕ} {s : ℕ} {w rest : List Bool} {r : Reading}
    (hw : Assigns lens s w) (hlen : w.length ≤ maxBits) (hbits : r.bits = w ++ rest) :
    (symbol lens).run r = .ok s { r with bits := rest } := by
  obtain ⟨bits, out, broken⟩ := r
  obtain rfl : bits = w ++ rest := hbits
  exact symbol_append hw hlen rest out broken

section Met

variable {literal dist : List ℕ} {r r' r₁ r₂ r₃ r₄ : Reading} {sign : Sign} {s length t offset : ℕ}

/-- No length is read where another symbol is next. -/
theorem lt_of_readsLength (h : ReadsLength literal r s r') {s' : ℕ}
    (hsymbol : (symbol literal).run r = .ok s' r₁) : endOfBlock < s' := by
  obtain ⟨rfl, -⟩ := Result.ok.inj (h.run.symm.trans hsymbol)
  exact h.isLength

theorem not_meets_end (hsymbol : (symbol literal).run r = .ok endOfBlock r₁) :
    ¬ Meets literal dist r sign := by
  intro h
  cases h with
  | length hreads => exact lt_irrefl _ (lt_of_readsLength hreads hsymbol)
  | distance hreads =>
      obtain ⟨s, r₁', r₂, hreads, -⟩ := hreads.run
      exact lt_irrefl _ (lt_of_readsLength hreads hsymbol)
  | reach hreads =>
      obtain ⟨s, r₁', r₂, hreads, -⟩ := hreads.run
      exact lt_irrefl _ (lt_of_readsLength hreads hsymbol)
  | later hturn =>
      rw [Rfc1951.symbolTurn, run_bind, hsymbol] at hturn
      cases hturn

/-- Behind a literal. -/
theorem Meets.of_literal (h : Meets literal dist r sign)
    (hsymbol : (symbol literal).run r = .ok s r₁) (hs : s < endOfBlock)
    (hturn : (Rfc1951.symbolTurn literal dist).run r = .ok (.again ()) r') :
    Meets literal dist r' sign := by
  cases h with
  | length hreads => exact absurd (lt_of_readsLength hreads hsymbol) hs.not_gt
  | distance hreads =>
      obtain ⟨s, r₁', r₂, hreads, -⟩ := hreads.run
      exact absurd (lt_of_readsLength hreads hsymbol) hs.not_gt
  | reach hreads =>
      obtain ⟨s, r₁', r₂, hreads, -⟩ := hreads.run
      exact absurd (lt_of_readsLength hreads hsymbol) hs.not_gt
  | later hturn' hmeets =>
      obtain ⟨-, rfl⟩ := Result.ok.inj (hturn.symm.trans hturn')
      exact hmeets

/-- At a match, and behind it. -/
theorem Meets.of_match (h : Meets literal dist r sign)
    (hsymbol : (symbol literal).run r = .ok s r₁)
    (hlength : (lengthOf (s - 257)).run r₁ = .ok length r₂)
    (hdistance : (symbol dist).run r₂ = .ok t r₃) (hoffset : (distanceOf t).run r₃ = .ok offset r₄)
    (hturn : (Rfc1951.symbolTurn literal dist).run r = .ok (.again ()) r') :
    sign = .length s ∨ sign = .distance t ∨ sign = .reach offset r₄.out.length ∨
      Meets literal dist r' sign := by
  have hsame {length' t' : ℕ} {r₃' : Reading}
      (hreads : ReadsDistance literal dist r length' t' r₃') : t' = t ∧ r₃' = r₃ := by
    obtain ⟨s', r₁', r₂', hreads, hlength', hdistance'⟩ := hreads.run
    obtain ⟨rfl, rfl⟩ := Result.ok.inj (hsymbol.symm.trans hreads.run)
    obtain ⟨rfl, rfl⟩ := Result.ok.inj (hlength.symm.trans hlength')
    obtain ⟨rfl, rfl⟩ := Result.ok.inj (hdistance.symm.trans hdistance')
    exact ⟨rfl, rfl⟩
  cases h with
  | length hreads =>
      obtain ⟨rfl, -⟩ := Result.ok.inj (hsymbol.symm.trans hreads.run)
      exact .inl rfl
  | distance hreads =>
      obtain ⟨rfl, -⟩ := hsame hreads
      exact .inr (.inl rfl)
  | reach hreads hoffset' =>
      obtain ⟨rfl, rfl⟩ := hsame hreads
      obtain ⟨rfl, rfl⟩ := Result.ok.inj (hoffset.symm.trans hoffset')
      exact .inr (.inr (.inl rfl))
  | later hturn' hmeets =>
      obtain ⟨-, rfl⟩ := Result.ok.inj (hturn.symm.trans hturn')
      exact .inr (.inr (.inr hmeets))

end Met

/-- A block with fixed codes: the letter A, a match that repeats it three times, and the end. -/
def repeatedLetter : List UInt8 := [0x8e, 0x40, 0x00, 0x00]

theorem legal_repeatedLetter : ∀ codes r',
    (readTrees .fixed).run (initial repeatedLetter).reading = .ok codes r' →
      ∀ sign, Meets codes.1 codes.2 r' sign → sign.Legal := by
  rintro _ _ ⟨⟩ sign hmeets
  dsimp only at hmeets
  have hletter : Assigns fixedLiteral 65 [false, true, true, true, false, false, false, true] :=
    ⟨by decide, by decide +kernel, by decide +kernel⟩
  have hlength : Assigns fixedLiteral 257 [false, false, false, false, false, false, true] :=
    ⟨by decide, by decide +kernel, by decide +kernel⟩
  have hdistance : Assigns fixedDistance 0 (List.replicate 5 false) :=
    ⟨by decide, by decide +kernel, by decide +kernel⟩
  have hend : Assigns fixedLiteral 256 (List.replicate 7 false) :=
    ⟨by decide, by decide +kernel, by decide +kernel⟩
  have hfirst : (symbol fixedLiteral).run (initial repeatedLetter).reading =
      .ok 65 ⟨[false, false, false, false, false, false, true] ++ List.replicate 17 false, [],
        []⟩ :=
    run_symbol hletter (by decide) (by decide +kernel)
  have hsecond : (symbol fixedLiteral).run
      ⟨[false, false, false, false, false, false, true] ++ List.replicate 17 false, [65], []⟩ =
      .ok 257 ⟨List.replicate 17 false, [65], []⟩ := run_symbol hlength (by decide) rfl
  have hthird : (symbol fixedDistance).run ⟨List.replicate 17 false, [65], []⟩ =
      .ok 0 ⟨List.replicate 12 false, [65], []⟩ := run_symbol hdistance (by decide) rfl
  have hbase : (lengthOf (257 - 257)).run ⟨List.replicate 17 false, [65], []⟩ =
      .ok 3 ⟨List.replicate 17 false, [65], []⟩ := by decide +kernel
  have hoffset : (distanceOf 0).run ⟨List.replicate 12 false, [65], []⟩ =
      .ok 1 ⟨List.replicate 12 false, [65], []⟩ := by decide +kernel
  have hturn : (Rfc1951.symbolTurn fixedLiteral fixedDistance).run
      (initial repeatedLetter).reading =
      .ok (.again ()) ⟨[false, false, false, false, false, false, true] ++
        List.replicate 17 false, [65], []⟩ := by
    rw [Rfc1951.symbolTurn, run_bind, hfirst]
    rfl
  have hturn' : (Rfc1951.symbolTurn fixedLiteral fixedDistance).run
      ⟨[false, false, false, false, false, false, true] ++ List.replicate 17 false, [65], []⟩ =
      .ok (.again ()) ⟨List.replicate 12 false, [65, 65, 65, 65], []⟩ := by
    rw [Rfc1951.symbolTurn, run_bind, hsecond]
    change ((lengthOf (257 - 257) >>= _).run _) = _
    rw [run_bind, hbase]
    change ((symbol fixedDistance >>= _).run _) = _
    rw [run_bind, hthird]
    change ((distanceOf 0 >>= _).run _) = _
    rw [run_bind, hoffset]
    rfl
  obtain rfl | rfl | rfl | hlast :=
    (hmeets.of_literal hfirst (by decide) hturn).of_match hsecond hbase hthird hoffset hturn'
  · exact (by decide : 257 ≤ 285)
  · exact (by decide : 0 ≤ 29)
  · exact (by decide : 1 ≤ 1)
  · exact absurd hlast (not_meets_end (run_symbol hend (by decide) rfl))

theorem inside_repeatedLetter :
    (∀ d, buildTrees (turnBound repeatedLetter) .fixed (initial repeatedLetter) = .ok ((), d) →
      d.error = .NONE → ∀ cap deed, d.dest.length ≤ cap → Does cap d.dest.length d deed →
        deed.Inside) ∧
      ∀ codes r', (readTrees .fixed).run (initial repeatedLetter).reading = .ok codes r' →
        ∀ sign, Meets codes.1 codes.2 r' sign → sign.Legal :=
  ⟨(deflateBlock_inside_iff (ready_initial _) (initial_boundary _).full
    (bitsLeft_initial _) .fixed).mpr legal_repeatedLetter, legal_repeatedLetter⟩

theorem fixed_initial (source : List UInt8) :
    ∃ d, buildTrees (turnBound source) .fixed (initial source) = .ok ((), d) ∧ d.error = .NONE ∧
      Represents d.frame.ll fixedLiteral ∧ Represents d.frame.distance fixedDistance ∧
      Follow d.frame d ⟨ofBytes source, [], []⟩ := by
  have hread : (readTrees .fixed).run (initial source).reading =
      .ok (fixedLiteral, fixedDistance) (initial source).reading := run_pure _ _
  obtain ⟨_, d, hrun, hd⟩ := run_of_read
    (fun _ => buildTrees_sim (initial_boundary source).full .fixed)
    ((ready_initial source).follows (bitsLeft_initial source)) hread
  exact ⟨d, hrun, hd.follows.error, hd.ll, hd.distance, hd.follow⟩

/-- Length symbol 287 is looked up behind the tables, 286 asks for 127 bits, and a first
symbol that copies reads in front of the output. -/
theorem not_inside_fixed :
    (∃ d, buildTrees (turnBound [0xe3]) .fixed (initial [0xe3]) = .ok ((), d) ∧
      d.error = .NONE ∧ Does 0 0 d (.index 30)) ∧
    (∃ d, buildTrees (turnBound [0x63]) .fixed (initial [0x63]) = .ok ((), d) ∧
      d.error = .NONE ∧ Does 0 0 d (.ask 127)) ∧
    ∃ d, buildTrees (turnBound [0x40, 0x00]) .fixed (initial [0x40, 0x00]) = .ok ((), d) ∧
      d.error = .NONE ∧ Does 0 0 d (.read (-1)) := by
  refine ⟨?_, ?_, ?_⟩
  · obtain ⟨d, hrun, herror, hll, -, hd⟩ := fixed_initial [0xe3]
    have hcode : Assigns fixedLiteral 287 [true, true, false, false, false, true, true, true] :=
      ⟨by decide, by decide +kernel, by decide +kernel⟩
    have hreads : ReadsLength fixedLiteral ⟨ofBytes [0xe3], [], []⟩ 287 ⟨[], [], []⟩ :=
      ⟨run_symbol hcode (by decide) (by decide +kernel), by decide⟩
    obtain ⟨d₁, hsymbol, -⟩ := hreads.symbol hll hd
    have hdoes : Does 0 0 d (.index (287 - SYM_LL_LENGTH)) := .lengthIndex hsymbol
    rw [show 287 - SYM_LL_LENGTH = 30 by decide] at hdoes
    exact ⟨d, hrun, herror, hdoes⟩
  · obtain ⟨d, hrun, herror, hll, -, hd⟩ := fixed_initial [0x63]
    have hcode : Assigns fixedLiteral 286 [true, true, false, false, false, true, true, false] :=
      ⟨by decide, by decide +kernel, by decide +kernel⟩
    have hreads : ReadsLength fixedLiteral ⟨ofBytes [0x63], [], []⟩ 286 ⟨[], [], []⟩ :=
      ⟨run_symbol hcode (by decide) (by decide +kernel), by decide⟩
    obtain ⟨d₁, hsymbol, -⟩ := hreads.symbol hll hd
    have hbits : length_bits[286 - SYM_LL_LENGTH]? = some 127 := by decide
    exact ⟨d, hrun, herror, .lengthBits hsymbol hbits (by decide)⟩
  · obtain ⟨d, hrun, herror, hll, hdist, hd⟩ := fixed_initial [0x40, 0x00]
    have hlength : Assigns fixedLiteral 257 [false, false, false, false, false, false, true] :=
      ⟨by decide, by decide +kernel, by decide +kernel⟩
    have hdistance : Assigns fixedDistance 0 (List.replicate 5 false) :=
      ⟨by decide, by decide +kernel, by decide +kernel⟩
    have hreads : ReadsDistance fixedLiteral fixedDistance ⟨ofBytes [0x40, 0x00], [], []⟩ 3 0
        ⟨List.replicate 4 false, [], []⟩ :=
      ⟨257, ⟨List.replicate 9 false, [], []⟩, ⟨List.replicate 9 false, [], []⟩,
        ⟨run_symbol hlength (by decide) (by decide +kernel), by decide⟩,
        by decide +kernel, run_symbol hdistance (by decide) (by decide +kernel)⟩
    obtain ⟨d₃, hsymbol, hpos, hd₃⟩ := hreads.symbol hll hdist hd
    obtain ⟨v, d₄, hoffset, ⟨hv, -⟩, hd₄⟩ := run_of_read (fun _ => getOffset_within 0) hd₃
      (show (distanceOf 0).run ⟨List.replicate 4 false, [], []⟩ =
        .ok 1 ⟨List.replicate 4 false, [], []⟩ by decide +kernel)
    have hread : Does 0 0 d (.read (d₄.dest.length + (0 : ℕ) - v)) :=
      .copied hsymbol hoffset hd₄.error hpos
    rw [show d₄.dest = [] from hd₄.dest, hv] at hread
    exact ⟨d, hrun, herror, hread⟩

end Cyanea.Boot
