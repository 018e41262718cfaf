/-
# The I/O APICs

The model of `arch/x86/ukernel/apic/io_apic.c`. The registers of a controller are reached
through the page of its slot in the fixmap, at the page offset of the address that the table
`ioapics` has for it. `mp_register_ioapic` reads the version register before it stores the
address, so the offset is 0.
-/

import Cyanea.Errno
import Cyanea.Mm.PermanentMapping

namespace Cyanea.IoApic

open Mm (Fixmap CachemodeToPte PAGE_KERNEL_NOCACHE FIX_IO_APIC_BASE_0 FIX_BITMAP_END fixToVirt
  offsetInPage fixmapPte bytesAt setPermanentFixmap)

/-- The physical memory, as far as these accesses go: the bytes that are written or read. -/
structure Bus (σ : Type) where
  writeb : List ℕ → UInt8 → σ → σ
  readl : List ℕ → σ → UInt32 × σ

inductive Access
  | writeb (bytes : List ℕ) (value : UInt8)
  | readl (bytes : List ℕ) (value : UInt32)
  deriving DecidableEq

/-- The ways a registration goes wrong without returning. -/
inductive Fault
  | fixmap (fault : Mm.Fault)
  /-- An access to an address that is not mapped. -/
  | page (va : ℕ)
  deriving DecidableEq

/-- An entry of `ioapics`. -/
structure Ioapic where
  nr_registers : ℕ
  id : UInt8
  phys_addr : ℕ
  gsi_base : UInt32
  gsi_end : UInt32
  deriving DecidableEq

def Ioapic.zeroed : Ioapic := ⟨0, 0, 0, 0, 0⟩

/-- The static data, the fixmap, the machine, and the accesses that were made. -/
structure State (σ : Type) where
  nr_ioapics : ℕ
  ioapics : ℕ → Ioapic
  fixmap : Fixmap
  machine : σ
  accesses : List Access

/-- No controller is registered. -/
def State.start {σ : Type} (fixmap : Fixmap) (machine : σ) : State σ :=
  ⟨0, fun _ => .zeroed, fixmap, machine, []⟩

section Code

variable {σ : Type} (bus : Bus σ)

def writeb (value : UInt8) (addr : ℕ) (s : State σ) : Except Fault (State σ) :=
  match s.fixmap.physBytes addr 1 with
  | none => .error (.page addr)
  | some bytes =>
    .ok { s with
      machine := bus.writeb bytes value s.machine
      accesses := s.accesses ++ [.writeb bytes value] }

def readl (addr : ℕ) (s : State σ) : Except Fault (UInt32 × State σ) :=
  match s.fixmap.physBytes addr 4 with
  | none => .error (.page addr)
  | some bytes =>
    let (value, machine) := bus.readl bytes s.machine
    .ok (value, { s with machine, accesses := s.accesses ++ [.readl bytes value] })

def ioApicBase (ioapic : ℕ) (s : State σ) : ℕ :=
  let y := offsetInPage (s.ioapics ioapic).phys_addr
  add64 (fixToVirt (FIX_IO_APIC_BASE_0 + ioapic)) y

/-- `index` is at offset 0 of `struct io_apic`, `data` at offset 16. -/
def ioApicRead (ioapic : ℕ) (reg : UInt8) (s : State σ) : Except Fault (UInt32 × State σ) := do
  let base := ioApicBase ioapic s
  let s ← writeb bus reg base s
  readl bus (add64 base 16) s

def IOAPICVER_INDEX : UInt8 := 1

/-- `bits.entries` of `union io_apic_ver`. -/
def verEntries (raw : UInt32) : ℕ := raw.toNat / 2 ^ 16 % 2 ^ 8

def ioApicGetRedirEntries (ioapic : ℕ) (s : State σ) : Except Fault (ℕ × State σ) := do
  let (raw, s) ← ioApicRead bus ioapic IOAPICVER_INDEX s
  pure (verEntries raw + 1, s)

/-- The arguments of `mp_register_ioapic`. -/
structure Call where
  id : UInt8
  address : UInt32
  gsi_base : UInt32
  deriving DecidableEq

/-- The entry that is recorded. -/
def Call.ioapic (call : Call) (entries : ℕ) : Ioapic where
  id := call.id
  phys_addr := call.address.toNat
  gsi_base := call.gsi_base
  gsi_end := call.gsi_base + UInt32.ofNat entries - 1
  nr_registers := entries

def mpRegisterIoapic (NR_IOAPIC : ℕ) (modes : CachemodeToPte) (call : Call) (s : State σ) :
    Except Fault (ℤ × State σ) :=
  if s.nr_ioapics = NR_IOAPIC then .ok (-ENOSPC, s)
  else do
    let fixmap ← (setPermanentFixmap s.fixmap (FIX_IO_APIC_BASE_0 + s.nr_ioapics)
      call.address.toNat (PAGE_KERNEL_NOCACHE modes)).mapError .fixmap
    let (entries, s) ← ioApicGetRedirEntries bus s.nr_ioapics { s with fixmap }
    let s := { s with
      ioapics := Function.update s.ioapics s.nr_ioapics (call.ioapic entries) }
    pure (SUCCESS, { s with nr_ioapics := s.nr_ioapics + 1 })

/-- The calls of a sequence that are made, each with the state it is made in. -/
def made (NR_IOAPIC : ℕ) (modes : CachemodeToPte) : List Call → State σ → List (State σ × Call)
  | [], _ => []
  | call :: calls, s =>
    (s, call) :: match mpRegisterIoapic bus NR_IOAPIC modes call s with
      | .error _ => []
      | .ok (_, s) => made NR_IOAPIC modes calls s

/-! ## What is asked for -/

/-- What the version register of the controller at an address answers. -/
def versionAt (address : ℕ) (machine : σ) : UInt32 :=
  (bus.readl (bytesAt (address + 0x10) 4)
    (bus.writeb (bytesAt address 1) IOAPICVER_INDEX machine)).1

/-- The two registers of the controller are accessed, what its version says is recorded, and
nothing that was recorded before changes. -/
structure Registers (s : State σ) (call : Call) (s' : State σ) : Prop where
  accesses_eq : s'.accesses = s.accesses ++
    [.writeb (bytesAt call.address.toNat 1) IOAPICVER_INDEX,
      .readl (bytesAt (call.address.toNat + 0x10) 4) (versionAt bus call.address.toNat s.machine)]
  nr_eq : s'.nr_ioapics = s.nr_ioapics + 1
  recorded : s'.ioapics s.nr_ioapics =
    call.ioapic (verEntries (versionAt bus call.address.toNat s.machine) + 1)
  earlier : ∀ j < s.nr_ioapics, s'.ioapics j = s.ioapics j

/-- What a call comes to. A controller is dropped if the table is full. The fixmap may have
no slot for it, even if the table has room. -/
def AsPromised (NR_IOAPIC : ℕ) (modes : CachemodeToPte) (s : State σ) (call : Call) : Prop :=
  match mpRegisterIoapic bus NR_IOAPIC modes call s with
  | .error fault => fault = .fixmap (.outOfRange (FIX_IO_APIC_BASE_0 + s.nr_ioapics)) ∧
      FIX_BITMAP_END ≤ FIX_IO_APIC_BASE_0 + s.nr_ioapics
  | .ok (err, s') =>
    if s.nr_ioapics = NR_IOAPIC then err = -ENOSPC ∧ s' = s
    else err = SUCCESS ∧ Registers bus s call s'

/-- The controller that is registered, if there is room for it, is at the beginning of a
page. -/
def AtPage (NR_IOAPIC : ℕ) (s : State σ) (call : Call) : Prop :=
  s.nr_ioapics ≠ NR_IOAPIC → FIX_IO_APIC_BASE_0 + s.nr_ioapics < FIX_BITMAP_END →
    call.address.toNat % 2 ^ 12 = 0

end Code

/-! ## One call -/

section Step

variable {σ : Type} {bus : Bus σ} {NR_IOAPIC : ℕ} {modes : CachemodeToPte} {s : State σ}
  {call : Call}

/-- The entries behind the controllers that are registered are as in the image. -/
def State.Fresh (s : State σ) : Prop := ∀ j, s.nr_ioapics ≤ j → s.ioapics j = .zeroed

theorem writeb_ok {value : UInt8} {addr : ℕ} {bytes : List ℕ}
    (h : s.fixmap.physBytes addr 1 = some bytes) :
    writeb bus value addr s = .ok { s with
      machine := bus.writeb bytes value s.machine
      accesses := s.accesses ++ [.writeb bytes value] } := by
  rw [writeb, h]

theorem readl_ok {addr : ℕ} {bytes : List ℕ} (h : s.fixmap.physBytes addr 4 = some bytes) :
    readl bus addr s = .ok ((bus.readl bytes s.machine).1, { s with
      machine := (bus.readl bytes s.machine).2
      accesses := s.accesses ++ [.readl bytes (bus.readl bytes s.machine).1] }) := by
  rw [readl, h]

/-- What a registration leaves whose accesses go to the registers at `page`. -/
def State.registered (bus : Bus σ) (s : State σ) (fixmap : Fixmap) (page : ℕ) (call : Call) :
    State σ where
  nr_ioapics := s.nr_ioapics + 1
  ioapics := Function.update s.ioapics s.nr_ioapics
    (call.ioapic (verEntries (versionAt bus page s.machine) + 1))
  fixmap := fixmap
  machine := (bus.readl (bytesAt (page + 0x10) 4)
    (bus.writeb (bytesAt page 1) IOAPICVER_INDEX s.machine)).2
  accesses := s.accesses ++ [.writeb (bytesAt page 1) IOAPICVER_INDEX,
    .readl (bytesAt (page + 0x10) 4) (versionAt bus page s.machine)]

/-- The registers are where the window of the controller leads to. -/
theorem ioApicRead_ok {ioapic virt page : ℕ} (hbase : ioApicBase ioapic s = virt)
    (hindex : s.fixmap.physBytes virt 1 = some (bytesAt page 1))
    (hdata : s.fixmap.physBytes (add64 virt 16) 4 = some (bytesAt (page + 0x10) 4)) :
    ioApicRead bus ioapic IOAPICVER_INDEX s = .ok (versionAt bus page s.machine, { s with
      machine := (bus.readl (bytesAt (page + 0x10) 4)
        (bus.writeb (bytesAt page 1) IOAPICVER_INDEX s.machine)).2
      accesses := s.accesses ++ [.writeb (bytesAt page 1) IOAPICVER_INDEX,
        .readl (bytesAt (page + 0x10) 4) (versionAt bus page s.machine)] }) := by
  have hwritten : writeb bus IOAPICVER_INDEX virt s = _ := writeb_ok hindex
  have hread : readl bus (add64 virt 16) { s with
      machine := bus.writeb (bytesAt page 1) IOAPICVER_INDEX s.machine
      accesses := s.accesses ++ [.writeb (bytesAt page 1) IOAPICVER_INDEX] } = _ :=
    readl_ok hdata
  rw [ioApicRead, hbase, hwritten]
  refine hread.trans ?_
  rw [List.append_assoc]
  rfl

/-- The accesses go to the beginning of the page that the address is in. -/
theorem mpRegisterIoapic_eq (bus : Bus σ) (modes : CachemodeToPte) (call : Call)
    (hroom : s.nr_ioapics ≠ NR_IOAPIC)
    (hslot : FIX_IO_APIC_BASE_0 + s.nr_ioapics < FIX_BITMAP_END) (hfresh : s.Fresh) :
    ∃ fixmap, mpRegisterIoapic bus NR_IOAPIC modes call s =
      .ok (SUCCESS,
        s.registered bus fixmap (2 ^ 12 * (call.address.toNat / 2 ^ 12)) call) := by
  have hidx : FIX_IO_APIC_BASE_0 + s.nr_ioapics < 512 := hslot
  have hpos : 0 < FIX_IO_APIC_BASE_0 + s.nr_ioapics := Nat.add_pos_left (by decide) _
  generalize hgen : FIX_IO_APIC_BASE_0 + s.nr_ioapics = idx at hidx hpos
  have hphys : call.address.toNat < 2 ^ 52 :=
    Nat.lt_trans (UInt32.toNat_lt call.address) (by decide)
  have hmaps := Mm.maps_PAGE_KERNEL_NOCACHE modes
  have hset := Mm.setPermanentFixmap_eq s.fixmap call.address.toNat (PAGE_KERNEL_NOCACHE modes)
    hpos hidx
  have hindex := Mm.physBytes_setPte s.fixmap 0 1 hmaps hidx hphys (by decide)
  have hdata := Mm.physBytes_setPte s.fixmap 16 4 hmaps hidx hphys (by decide)
  generalize s.fixmap.setPte 1 (511 - idx)
    (fixmapPte call.address.toNat (PAGE_KERNEL_NOCACHE modes)) = fixmap at hset hindex hdata
  have hvirt := Mm.fixToVirt_permanent hidx
  have hbase : ioApicBase s.nr_ioapics { s with fixmap } = fixToVirt idx + 0 := by
    rw [ioApicBase, hgen, hfresh s.nr_ioapics (Nat.le_refl _)]
    exact add64_eq (show fixToVirt idx + 0 < 2 ^ 64 by omega)
  rw [← add64_eq (show fixToVirt idx + 16 < 2 ^ 64 by omega), ← Nat.add_zero (fixToVirt idx)] at hdata
  have hread : ioApicRead bus s.nr_ioapics IOAPICVER_INDEX { s with fixmap } = _ :=
    ioApicRead_ok hbase hindex hdata
  refine ⟨fixmap, ?_⟩
  rw [mpRegisterIoapic, if_neg hroom, hgen, hset, Except.mapError]
  change (ioApicGetRedirEntries bus s.nr_ioapics { s with fixmap } >>= _) = _
  rw [ioApicGetRedirEntries, hread]
  rfl

theorem mpRegisterIoapic_full (bus : Bus σ) (modes : CachemodeToPte) (call : Call)
    (hfull : s.nr_ioapics = NR_IOAPIC) :
    mpRegisterIoapic bus NR_IOAPIC modes call s = .ok (-ENOSPC, s) :=
  if_pos hfull

theorem mpRegisterIoapic_outOfRange (bus : Bus σ) (modes : CachemodeToPte) (call : Call)
    (hroom : s.nr_ioapics ≠ NR_IOAPIC)
    (hslot : ¬ FIX_IO_APIC_BASE_0 + s.nr_ioapics < FIX_BITMAP_END) :
    mpRegisterIoapic bus NR_IOAPIC modes call s =
      .error (.fixmap (.outOfRange (FIX_IO_APIC_BASE_0 + s.nr_ioapics))) := by
  rw [mpRegisterIoapic, if_neg hroom,
    Mm.setPermanentFixmap_outOfRange s.fixmap call.address.toNat (PAGE_KERNEL_NOCACHE modes) hslot]
  rfl

variable (bus NR_IOAPIC modes) in
/-- What one call can do. -/
theorem mpRegisterIoapic_cases (hfresh : s.Fresh) (call : Call) :
    (s.nr_ioapics = NR_IOAPIC ∧ mpRegisterIoapic bus NR_IOAPIC modes call s = .ok (-ENOSPC, s)) ∨
    (s.nr_ioapics ≠ NR_IOAPIC ∧ ¬ FIX_IO_APIC_BASE_0 + s.nr_ioapics < FIX_BITMAP_END ∧
      mpRegisterIoapic bus NR_IOAPIC modes call s =
        .error (.fixmap (.outOfRange (FIX_IO_APIC_BASE_0 + s.nr_ioapics)))) ∨
    (s.nr_ioapics ≠ NR_IOAPIC ∧ FIX_IO_APIC_BASE_0 + s.nr_ioapics < FIX_BITMAP_END ∧
      ∃ fixmap, mpRegisterIoapic bus NR_IOAPIC modes call s = .ok (SUCCESS,
        s.registered bus fixmap (2 ^ 12 * (call.address.toNat / 2 ^ 12)) call)) := by
  by_cases hroom : s.nr_ioapics = NR_IOAPIC
  · exact .inl ⟨hroom, mpRegisterIoapic_full bus modes call hroom⟩
  · by_cases hslot : FIX_IO_APIC_BASE_0 + s.nr_ioapics < FIX_BITMAP_END
    · exact .inr (.inr ⟨hroom, hslot, mpRegisterIoapic_eq bus modes call hroom hslot hfresh⟩)
    · exact .inr (.inl ⟨hroom, hslot, mpRegisterIoapic_outOfRange bus modes call hroom hslot⟩)

theorem registers_registered (fixmap : Fixmap) :
    Registers bus s call (s.registered bus fixmap call.address.toNat call) where
  accesses_eq := rfl
  nr_eq := rfl
  recorded := Function.update_self _ _ _
  earlier _ hj := Function.update_of_ne (Nat.ne_of_lt hj) _ _

/-- The first access tells where the accesses go. -/
theorem page_eq_of_registers {fixmap : Fixmap} {page : ℕ}
    (h : Registers bus s call (s.registered bus fixmap page call)) :
    page = call.address.toNat := by
  have haccess := (List.cons.inj (List.append_cancel_left h.accesses_eq)).1
  have hbytes := (Access.writeb.inj haccess).1
  exact (List.cons.inj hbytes).1

theorem fresh_registered (hfresh : s.Fresh) (fixmap : Fixmap) (page : ℕ) :
    (s.registered bus fixmap page call).Fresh := by
  intro j hj
  have hlt : s.nr_ioapics < j := hj
  exact (Function.update_of_ne (Nat.ne_of_gt hlt) _ _).trans (hfresh j (Nat.le_of_lt hlt))

theorem fresh_of_ok (hfresh : s.Fresh) {err : ℤ} {s' : State σ}
    (h : mpRegisterIoapic bus NR_IOAPIC modes call s = .ok (err, s')) : s'.Fresh := by
  obtain ⟨-, heq⟩ | ⟨-, -, heq⟩ | ⟨-, -, fixmap, heq⟩ :=
    mpRegisterIoapic_cases bus NR_IOAPIC modes hfresh call
  · rw [heq] at h
    cases h
    exact hfresh
  · rw [heq] at h
    cases h
  · rw [heq] at h
    cases h
    exact fresh_registered hfresh fixmap _

/-- A call does what it should exactly if the controller is at the beginning of a page. -/
theorem asPromised_iff_atPage (hfresh : s.Fresh) :
    AsPromised bus NR_IOAPIC modes s call ↔ AtPage NR_IOAPIC s call := by
  rw [AsPromised, AtPage]
  obtain ⟨hfull, heq⟩ | ⟨-, hslot, heq⟩ | ⟨hroom, hslot, fixmap, heq⟩ :=
    mpRegisterIoapic_cases bus NR_IOAPIC modes hfresh call
  · rw [heq]
    dsimp only
    rw [if_pos hfull]
    exact iff_of_true ⟨rfl, rfl⟩ fun hroom => absurd hfull hroom
  · rw [heq]
    dsimp only
    exact iff_of_true ⟨rfl, Nat.not_lt.mp hslot⟩ fun _ h => absurd h hslot
  · rw [heq]
    dsimp only
    rw [if_neg hroom]
    constructor
    · rintro ⟨-, hregisters⟩ - -
      have hpage := page_eq_of_registers hregisters
      omega
    · intro halign
      have hpage : 2 ^ 12 * (call.address.toNat / 2 ^ 12) = call.address.toNat :=
        Nat.mul_div_cancel' (Nat.dvd_of_mod_eq_zero (halign hroom hslot))
      rw [hpage]
      exact ⟨rfl, registers_registered fixmap⟩

end Step

/-! ## Sequences of calls -/

section Made

variable {σ : Type} {bus : Bus σ} {NR_IOAPIC : ℕ} {modes : CachemodeToPte} {s : State σ}

theorem fresh_start (fixmap : Fixmap) (machine : σ) : (State.start fixmap machine).Fresh :=
  fun _ _ => rfl

theorem fresh_of_mem_made {calls : List Call} (hfresh : s.Fresh) {call : State σ × Call}
    (h : call ∈ made bus NR_IOAPIC modes calls s) : call.1.Fresh := by
  induction calls generalizing s with
  | nil => exact absurd h List.not_mem_nil
  | cons first calls ih =>
      rw [made, List.mem_cons] at h
      obtain rfl | h := h
      · exact hfresh
      · cases hcall : mpRegisterIoapic bus NR_IOAPIC modes first s with
        | error fault =>
            rw [hcall] at h
            exact absurd h List.not_mem_nil
        | ok r =>
            rw [hcall] at h
            exact ih (fresh_of_ok hfresh hcall) h

/-- All calls of a sequence do what they should exactly if all controllers that are registered
are at the beginning of a page. -/
theorem made_asPromised_iff (bus : Bus σ) (NR_IOAPIC : ℕ) (modes : CachemodeToPte)
    (fixmap : Fixmap) (machine : σ) (calls : List Call) :
    (∀ call ∈ made bus NR_IOAPIC modes calls (.start fixmap machine),
        AsPromised bus NR_IOAPIC modes call.1 call.2) ↔
      ∀ call ∈ made bus NR_IOAPIC modes calls (.start fixmap machine),
        AtPage NR_IOAPIC call.1 call.2 :=
  forall₂_congr fun _ h => asPromised_iff_atPage (fresh_of_mem_made (fresh_start fixmap machine) h)

end Made

/-- A controller with 24 entries at 0xfec00100. Nothing else answers. -/
def oneController : Bus Unit where
  writeb _ _ s := s
  readl bytes s := (if bytes = bytesAt 0xfec00110 4 then 0x170011 else 0xffffffff, s)

/-- Its registers begin inside of a page. -/
theorem not_asPromised_inPage :
    ¬ ∀ call ∈ made oneController 16 (fun _ => 0) [⟨0, 0xfec00100, 0⟩] (.start .start ()),
      AsPromised oneController 16 (fun _ => 0) call.1 call.2 := by
  intro h
  have hfresh := fresh_start Fixmap.start ()
  have hat := (asPromised_iff_atPage hfresh).mp (h _ List.mem_cons_self)
  exact absurd (hat (by decide) (by decide)) (by decide)

end Cyanea.IoApic
