/-
# The E820 table

The entries are appended in the order in which the firmware lists them, neighbours that
continue each other with the same type are joined in place, and what is usable is
handed to the allocator. `Joined` says what the in-place pass has done to the entries
it has seen; it changes neither the usable bytes nor whether adding them ever fills the
array of the allocator.
-/

import Cyanea.Math.Joining
import Cyanea.Memory.Adding

namespace Cyanea.Efi

open Cyanea.Memory
open Math.Joining (pass joined pass_some pass_none)

/-- `enum e820_type`. -/
inductive E820Type where
  | RAM
  | RESERVED
  | ACPI
  | NVS
  | UNUSABLE
  | PMEM
  deriving DecidableEq, Repr

/-- `struct e820_entry`. -/
structure E820Entry where
  start : ℕ
  size : ℕ
  type : E820Type
  deriving DecidableEq, Repr

def E820_MAX_ENTRIES : ℕ := 128

/-- `struct e820_table`: the first `nr_entries` entries. Those behind them are written
before they are read. -/
structure E820Table where
  entries : List E820Entry
  nr_entries_le : entries.length ≤ E820_MAX_ENTRIES

/-- `e820_table` at boot. -/
def e820Table : E820Table := ⟨[], Nat.zero_le _⟩

/-- `e820__range_add`. A full table ignores the range. -/
def e820RangeAdd (table : E820Table) (start size : ℕ) (type : E820Type) : E820Table :=
  if h : table.entries.length = E820_MAX_ENTRIES then table
  else ⟨table.entries ++ [⟨start, size, type⟩], by
    have hle := table.nr_entries_le
    rw [List.length_append, List.length_singleton]
    omega⟩

/-- The loop of `__e820__update_table`, with as many turns left as there are entries from
`cur_idx` on. Both indices are below `nr_entries`. -/
def updateLoop : ℕ → ℕ → ℕ → List E820Entry → ℕ × List E820Entry
  | 0, _, idx, entries => (idx, entries)
  | turns + 1, cur_idx, idx, entries =>
    match entries[idx]?, entries[cur_idx]? with
    | some e, some c =>
      if e.type = c.type ∧ add64 e.start e.size = c.start then
        updateLoop turns (cur_idx + 1) idx
          (entries.set idx { e with size := add64 e.size c.size })
      else updateLoop turns (cur_idx + 1) (idx + 1) (entries.set (idx + 1) c)
    | _, _ => (idx, entries)

/-- `nr_entries = idx + 1`. -/
def upTo (result : ℕ × List E820Entry) : List E820Entry := result.2.take (result.1 + 1)

/-- The entries that `__e820__update_table` leaves. -/
def updateEntries (entries : List E820Entry) : List E820Entry :=
  if entries.length = 0 then entries else upTo (updateLoop (entries.length - 1) 1 0 entries)

/-- `e820__memblock_setup`. -/
def e820MemblockSetup (behind : Option MemblockRegion) (entries : List E820Entry)
    (m : Memblock) : Except Memory.Fault Memblock :=
  entries.foldlM (fun m e =>
    if e.type = .RAM then do
      let (m, _) ← memblockAdd behind m e.start e.size (-1) MEMBLOCK_NONE
      return m
    else return m) m

/-! ## Joining in place -/

/-- The entry ends inside the address space. -/
def E820Entry.Fits (e : E820Entry) : Prop := e.start + e.size < 2 ^ 64

/-- The second list is the first one with some neighbours joined. -/
inductive Joined : List E820Entry → List E820Entry → Prop
  | nil : Joined [] []
  | keep {l l' : List E820Entry} (c : E820Entry) : Joined l l' → Joined (l ++ [c]) (l' ++ [c])
  | join {l l' : List E820Entry} {e c : E820Entry} : Joined l (l' ++ [e]) → e.type = c.type →
      e.start + e.size = c.start → Joined (l ++ [c]) (l' ++ [⟨e.start, e.size + c.size, e.type⟩])

variable {l l' : List E820Entry}

/-- The entry that takes the place of two, if they are joined. -/
def joinEntry (e c : E820Entry) : Option E820Entry :=
  if e.type = c.type ∧ add64 e.start e.size = c.start then
    some { e with size := add64 e.size c.size }
  else none

theorem joinEntry_some {e c e' : E820Entry} (h : joinEntry e c = some e') :
    e.type = c.type ∧ add64 e.start e.size = c.start ∧
      e' = { e with size := add64 e.size c.size } := by
  rw [joinEntry] at h
  by_cases hjoin : e.type = c.type ∧ add64 e.start e.size = c.start
  · rw [if_pos hjoin] at h
    exact ⟨hjoin.1, hjoin.2, (Option.some.inj h).symm⟩
  · rw [if_neg hjoin] at h
    cases h

/-- Entries that fit are joined without an overflow. -/
theorem joinEntry_fits {e c e' : E820Entry} (he : e.Fits) (hc : c.Fits)
    (h : joinEntry e c = some e') :
    e.start + e.size = c.start ∧ e' = ⟨e.start, e.size + c.size, e.type⟩ ∧ e'.Fits := by
  have hlt : c.start + c.size < 2 ^ 64 := hc
  obtain ⟨-, hadjacent, rfl⟩ := joinEntry_some h
  rw [add64_eq he] at hadjacent
  have hsize : add64 e.size c.size = e.size + c.size := add64_eq (by omega)
  refine ⟨hadjacent, by rw [hsize], ?_⟩
  show e.start + add64 e.size c.size < 2 ^ 64
  omega

/-- The two indices make the pass in place: behind the entries that are done and the one at
hand there is a gap, then what is left. -/
theorem upTo_updateLoop (rest gap done : List E820Entry) (e : E820Entry) :
    upTo (updateLoop rest.length (done.length + 1 + gap.length) done.length
      (done ++ e :: (gap ++ rest))) = done ++ pass joinEntry e rest := by
  induction rest generalizing done gap e with
  | nil =>
      rw [List.length_nil, updateLoop, upTo, List.take_append]
      simp [Math.Joining.pass]
  | cons c rest ih =>
      have hidx : (done ++ e :: (gap ++ c :: rest))[done.length]? = some e := by
        simp
      have hcur : (done ++ e :: (gap ++ c :: rest))[done.length + 1 + gap.length]? = some c := by
        rw [List.getElem?_append_right (by omega)]
        simp [Nat.add_assoc, Nat.add_comm 1]
      rw [List.length_cons, updateLoop, hidx, hcur]
      dsimp only
      by_cases hjoin : e.type = c.type ∧ add64 e.start e.size = c.start
      · -- `c` is joined to `e`; it stays in the array behind the entries that are done
        have hset : (done ++ e :: (gap ++ c :: rest)).set done.length
            { e with size := add64 e.size c.size } =
            done ++ { e with size := add64 e.size c.size } :: ((gap ++ [c]) ++ rest) := by
          simp
        have hnext := ih (gap ++ [c]) done { e with size := add64 e.size c.size }
        rw [List.length_append, List.length_singleton, ← Nat.add_assoc] at hnext
        rw [if_pos hjoin, hset, pass_some (if_pos hjoin)]
        exact hnext
      · -- `c` is copied behind `e`, over the first entry of the gap
        obtain ⟨gap', hset, hlength⟩ : ∃ gap', (done ++ e :: (gap ++ c :: rest)).set
            (done.length + 1) c = (done ++ [e]) ++ c :: (gap' ++ rest) ∧
            gap'.length = gap.length := by
          cases gap with
          | nil => exact ⟨[], by simp, rfl⟩
          | cons g gap => exact ⟨gap ++ [c], by simp, by simp⟩
        have hnext := ih gap' (done ++ [e]) c
        rw [List.length_append, List.length_singleton, hlength, Nat.add_right_comm,
          List.append_assoc done [e] (pass _ _ _)] at hnext
        rw [if_neg hjoin, hset, pass_none (if_neg hjoin)]
        exact hnext

theorem updateEntries_eq (l : List E820Entry) : updateEntries l = joined joinEntry l := by
  cases l with
  | nil => rfl
  | cons e rest =>
      rw [updateEntries, if_neg (by simp)]
      exact upTo_updateLoop rest [] [] e

theorem pass_joined {seen done rest : List E820Entry} {e : E820Entry}
    (h : Joined seen (done ++ [e])) (he : e.Fits) (hrest : ∀ c ∈ rest, c.Fits) :
    Joined (seen ++ rest) (done ++ pass joinEntry e rest) := by
  induction rest generalizing seen done e with
  | nil => rwa [List.append_nil]
  | cons c rest ih =>
      obtain ⟨hc, hrest⟩ := List.forall_mem_cons.mp hrest
      rw [List.append_cons seen]
      cases hjoin : joinEntry e c with
      | some e' =>
          obtain ⟨htype, -⟩ := joinEntry_some hjoin
          obtain ⟨hadjacent, rfl, hfits⟩ := joinEntry_fits he hc hjoin
          rw [pass_some hjoin]
          exact ih (h.join htype hadjacent) hfits hrest
      | none =>
          rw [pass_none hjoin, List.append_cons done]
          exact ih (h.keep c) hc hrest

theorem updateEntries_joined (hfits : ∀ e ∈ l, e.Fits) : Joined l (updateEntries l) := by
  cases l with
  | nil => exact .nil
  | cons e rest =>
      obtain ⟨he, hrest⟩ := List.forall_mem_cons.mp hfits
      have hstart : Joined [e] ([] ++ [e]) := Joined.nil.keep e
      rw [updateEntries_eq]
      exact pass_joined hstart he hrest

/-! ## What joining keeps -/

/-- The ranges of the usable entries. -/
def ram (l : List E820Entry) : List Range :=
  l.filterMap fun e => if e.type = .RAM then some ⟨e.start, e.size⟩ else none

theorem ram_concat_of_ram {e : E820Entry} (h : e.type = .RAM) :
    ram (l ++ [e]) = ram l ++ [⟨e.start, e.size⟩] := by
  simp [ram, h]

theorem ram_concat_of_ne {e : E820Entry} (h : e.type ≠ .RAM) : ram (l ++ [e]) = ram l := by
  simp [ram, h]

theorem ram_concat_join (e c : E820Entry) (h : e.type = .RAM) :
    ram (l ++ [⟨e.start, e.size + c.size, e.type⟩]) =
      ram l ++ [⟨e.start, e.size + c.size⟩] :=
  ram_concat_of_ram h

theorem ram_concat_join_of_ne (e c : E820Entry) (h : e.type ≠ .RAM) :
    ram (l ++ [⟨e.start, e.size + c.size, e.type⟩]) = ram l :=
  ram_concat_of_ne h

theorem e820MemblockSetup_eq (behind : Option MemblockRegion) (l : List E820Entry)
    (m : Memblock) : e820MemblockSetup behind l m = addRanges behind (ram l) m := by
  induction l generalizing m with
  | nil => rfl
  | cons e l ih =>
      by_cases h : e.type = .RAM
      · have hram : ram (e :: l) = ⟨e.start, e.size⟩ :: ram l := by
          simp [ram, h]
        rw [hram, e820MemblockSetup, addRanges, List.foldlM_cons, List.foldlM_cons, if_pos h]
        exact bind_congr fun m => ih m
      · have hram : ram (e :: l) = ram l := by
          simp [ram, h]
        rw [hram, e820MemblockSetup, List.foldlM_cons, if_neg h, pure_bind]
        exact ih m

/-- Two neighbours cover what they cover joined. -/
theorem bytes_join (start size size' : ℕ) :
    Range.bytes ⟨start, size + size'⟩ = Range.bytes ⟨start, size⟩ ∪
      Range.bytes ⟨start + size, size'⟩ := by
  ext a
  simp only [Range.bytes, Set.mem_Ico, Set.mem_union]
  omega

theorem Joined.bytesOf_eq (h : Joined l l') : bytesOf (ram l) = bytesOf (ram l') := by
  induction h with
  | nil => rfl
  | @keep l l' c _ ih =>
      by_cases hc : c.type = .RAM
      · rw [ram_concat_of_ram hc, ram_concat_of_ram hc, bytesOf_concat, bytesOf_concat, ih]
      · rw [ram_concat_of_ne hc, ram_concat_of_ne hc, ih]
  | @join l l' e c _ htype hadjacent ih =>
      by_cases hc : c.type = .RAM
      · have he : e.type = .RAM := htype.trans hc
        rw [ram_concat_of_ram he, bytesOf_concat] at ih
        rw [ram_concat_of_ram hc, ram_concat_join e c he, bytesOf_concat, bytesOf_concat, ih,
          bytes_join, hadjacent, Set.union_assoc]
      · have he : e.type ≠ .RAM := fun he => hc (htype.symm.trans he)
        rw [ram_concat_of_ne he] at ih
        rw [ram_concat_of_ne hc, ram_concat_join_of_ne e c he, ih]

/-- A range fills the array together with a neighbour that continues it exactly if one of
the two does when they are added one after the other. -/
theorem fillsArray_join (there : Set ℕ) (start size size' : ℕ) :
    FillsArray there ⟨start, size + size'⟩ ↔ FillsArray there ⟨start, size⟩ ∨
      FillsArray (there ∪ Range.bytes ⟨start, size⟩) ⟨start + size, size'⟩ := by
  by_cases hsize : size = 0
  · subst hsize
    have hempty : Range.bytes ⟨start, 0⟩ = ∅ := Set.Ico_self start
    rw [hempty, Set.union_empty, Nat.zero_add, Nat.add_zero]
    exact ⟨.inr, fun h => h.resolve_left fun h => h.nonempty rfl⟩
  · constructor
    · exact fun h => .inl ⟨hsize, h.runs, h.behind⟩
    · rintro (h | h)
      · exact ⟨fun hzero => hsize (Nat.eq_zero_of_add_eq_zero_right hzero), h.runs, h.behind⟩
      · -- the second part begins right behind a byte of the first
        have hlast : start + size - 1 ∈ Range.bytes ⟨start, size⟩ :=
          Set.mem_Ico.mpr ⟨by simp only; omega, by simp only; omega⟩
        have hroom := h.behind _ (.inr hlast)
        simp only at hroom
        omega

theorem Joined.neverFills_iff (h : Joined l l') :
    NeverFills (ram l) ↔ NeverFills (ram l') := by
  induction h with
  | nil => rfl
  | @keep l l' c hjoined ih =>
      by_cases hc : c.type = .RAM
      · rw [ram_concat_of_ram hc, ram_concat_of_ram hc, neverFills_concat, neverFills_concat, ih,
          hjoined.bytesOf_eq]
      · rw [ram_concat_of_ne hc, ram_concat_of_ne hc, ih]
  | @join l l' e c hjoined htype hadjacent ih =>
      by_cases hc : c.type = .RAM
      · have he : e.type = .RAM := htype.trans hc
        have hbytes := hjoined.bytesOf_eq
        rw [ram_concat_of_ram he, bytesOf_concat] at hbytes
        rw [ram_concat_of_ram he, neverFills_concat] at ih
        rw [ram_concat_of_ram hc, ram_concat_join e c he, neverFills_concat, neverFills_concat, ih,
          hbytes, fillsArray_join, not_or, and_assoc, hadjacent]
      · have he : e.type ≠ .RAM := fun he => hc (htype.symm.trans he)
        rw [ram_concat_of_ne he] at ih
        rw [ram_concat_of_ne hc, ram_concat_join_of_ne e c he, ih]

theorem Joined.fits (h : Joined l l') (hl : ∀ e ∈ l, e.Fits) : ∀ e ∈ l', e.Fits := by
  induction h with
  | nil => exact hl
  | @keep l l' c _ ih =>
      obtain ⟨hl, hc⟩ := List.forall_mem_append.mp hl
      exact List.forall_mem_append.mpr ⟨ih hl, hc⟩
  | @join l l' e c _ htype hadjacent ih =>
      obtain ⟨hl, hc⟩ := List.forall_mem_append.mp hl
      obtain ⟨hl', -⟩ := List.forall_mem_append.mp (ih hl)
      refine List.forall_mem_append.mpr ⟨hl', ?_⟩
      intro e' he'
      obtain rfl := List.mem_singleton.mp he'
      have hlt : c.start + c.size < 2 ^ 64 := hc c (List.mem_singleton_self c)
      show e.start + (e.size + c.size) < 2 ^ 64
      omega

end Cyanea.Efi
