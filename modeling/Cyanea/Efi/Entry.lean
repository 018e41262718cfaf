/-
# From the firmware to the kernel

The model of `__x86_efi_entry` in `efi-boot/efi.c`. It allocates the boot parameters and the
room for the kernel, decompresses the kernel image, looks for a screen, leaves the boot
services and jumps to the kernel. The blocks that the firmware hands out are objects of their
own here. What is printed on the console is left out.

Whatever the firmware answers, once the boot services are to be left none of them is used any more
but the memory map and `exit`, and the kernel is entered only at an aligned address, with an image
that passed its check and the memory map that was fetched last. A firmware that grants what it is
asked for enters the kernel of every image that is one member, and gets back every page that is not
used.
-/

import Cyanea.Boot.GzipMember
import Cyanea.Efi.AllocatePages
import Cyanea.Efi.Graphics

namespace Cyanea.Efi

open Boot (EFI_SUCCESS EFI_LOAD_ERROR EFI_INVALID_PARAMETER EFI_BUFFER_TOO_SMALL Memmap
  sizeofMemmap efiExitBootServices efiBsCall ukernelSize decompressGzip)
open Math

def BOOT_PARAMS_SIZE : ℕ := 0x1000

def CONFIG_PHYSICAL_ALIGN : ℕ := 0x400000

def ACPI_20_TABLE_GUID : List ℕ :=
  EFI_GUID 0x8868e871 0xe4f1 0x11d3 [0xbc, 0x22, 0x00, 0x80, 0xc7, 0x3c, 0x88, 0x81]

/-- `struct efi_config_table`. -/
structure ConfigTable where
  guid : List ℕ
  table : ℕ
  deriving DecidableEq, Repr

/-- `struct efi_system_table`: where it is, and the tables it lists. -/
structure SystemTable where
  addr : ℕ
  config_tables : List ConfigTable
  deriving DecidableEq, Repr

/-- `struct boot_params`. -/
structure BootParams where
  ramdisk_image : ℕ
  ramdisk_size : ℕ
  cmd_line_ptr : ℕ
  screen_info : ScreenInfo
  efi_systab : ℕ
  efi_info : EfiInfo
  acpi_rsdp_addr : ℕ
  deriving DecidableEq, Repr

def efiFindConfigTable (systab : SystemTable) (guid : List ℕ) : ℕ :=
  match systab.config_tables.find? fun ct => ct.guid = guid with
  | some ct => ct.table
  | none => 0

def efiGetRsdpAddr (systab : SystemTable) : ℕ := efiFindConfigTable systab ACPI_20_TABLE_GUID

/-- How the entry ends: with `exit`, or with a jump to the kernel, whose bytes are at
`ukernel_addr`, with the address of the boot parameters. -/
inductive Ending
  | exited (status : ℕ)
  | entered (ukernel_addr : ℕ) (ukernel : List UInt8) (boot_params : ℕ) (params : BootParams)
  deriving DecidableEq, Repr

section Code

/-- The number of pages that `efi_allocate_pages` asks for. -/
def askedPages (size align : ℕ) : ℕ :=
  let align := if align < EFI_ALLOC_ALIGN then EFI_ALLOC_ALIGN else align
  let extra := intOfWord (sub64 (align / EFI_PAGE_SIZE) 1)
  let size := Memory.roundUp size EFI_ALLOC_ALIGN
  add64 (size / EFI_PAGE_SIZE) (wordOfInt extra)

variable (firmware : Firmware)

/-- The calls of `free_pages`. -/
def freePages : List (ℕ × ℕ) → StateM Trace Unit
  | [] => return
  | run :: runs => do
      let _ ← ask firmware (.free_pages run.1 run.2)
      freePages runs

/-- `efi_allocate_pages` with the calls it makes. -/
def allocatePages (size align memory_type : ℕ) : StateM Trace (ℕ × Option ℕ) := do
  let answer ← ask firmware (.allocate_pages memory_type (askedPages size align))
  let r := efiAllocatePages (fun _ _ => (answer.status, answer.addr)) size align memory_type
  freePages firmware r.2.2
  return (r.1, r.2.1)

/-- `efi_exit_boot_services` with the calls it makes. -/
def exitBootServices (handle : ℕ) (fresh : Memmap) : StateM Trace (ℕ × Option (ℕ × Memmap)) :=
  embed Call.boot Answer.toAnswer firmware fun env => efiExitBootServices env handle fresh

def efiExit (handle status : ℕ) : StateM Trace (Except Boot.Fault Ending) := do
  let _ ← ask firmware (.exit handle status)
  return .ok (.exited status)

/-- The fresh page of the parameters holds `params`, and a fresh memory map `fresh`. A fault is
one of `decompress_gzip`. -/
def x86EfiEntry (handle : ℕ) (systab : SystemTable) (image : List UInt8) (params : BootParams)
    (fresh : Memmap) : StateM Trace (Except Boot.Fault Ending) := do
  let (status, boot_params) ← allocatePages firmware BOOT_PARAMS_SIZE 0 EFI_LOADER_DATA
  if status ≠ EFI_SUCCESS then
    efiExit firmware handle status
  else
    let params := { params with
      ramdisk_image := 0
      ramdisk_size := 0
      cmd_line_ptr := 0
      acpi_rsdp_addr := efiGetRsdpAddr systab }
    match ukernelSize image with
    | .error fault => return .error fault
    | .ok ukernel_size =>
        let (status, ukernel_addr) ←
          allocatePages firmware ukernel_size CONFIG_PHYSICAL_ALIGN EFI_LOADER_CODE
        if status ≠ EFI_SUCCESS then
          efiExit firmware handle status
        else
          match decompressGzip ukernel_size ukernel_size image with
          | .error fault => return .error fault
          | .ok ukernel =>
              if ukernel.result ≠ 0 then
                efiExit firmware handle EFI_LOAD_ERROR
              else
                -- the status of `setup_graphics` is only printed
                let (_, screen_info) ← setupGraphics firmware params.screen_info
                let (status, memmap) ← exitBootServices firmware handle fresh
                if status ≠ EFI_SUCCESS then
                  efiExit firmware handle status
                else
                  let (addr, m) := memmap.getD (0, fresh)
                  return .ok (.entered (ukernel_addr.getD 0) ukernel.dest (boot_params.getD 0)
                    { params with
                      screen_info := screen_info
                      efi_systab := systab.addr
                      efi_info := ⟨m.desc_size, m.map_size, add64 addr sizeofMemmap⟩ })

end Code

/-! ## Calls -/

/-- A call of `exit_boot_services`. -/
def Call.isLeaving : Call → Bool
  | .boot service => service.isExit
  | _ => false

def Call.isExit : Call → Bool
  | .exit _ _ => true
  | _ => false

def Call.isPages : Call → Bool
  | .allocate_pages _ _ | .free_pages _ _ => true
  | _ => false

/-- A call that may be made behind one of `exit_boot_services`. -/
def Call.isLate : Call → Bool
  | .boot service => service.isExit || service.isMap
  | .exit _ _ => true
  | _ => false

/-- Behind a call of `exit_boot_services` there are only such calls, those of
`get_memory_map` and `exit`. -/
def Quiet (t : Trace) : Prop :=
  t.Pairwise fun c later => c.1.isLeaving = true → later.1.isLate = true

/-- Calls of the time when the boot services are in use. -/
def Early (t : Trace) : Prop := ∀ c ∈ t, c.1.isLeaving = false ∧ c.1.isExit = false

section Calls

variable {front back : Trace}

theorem Early.append (hfront : Early front) (hback : Early back) : Early (front ++ back) :=
  List.forall_mem_append.mpr ⟨hfront, hback⟩

theorem Early.quiet_append (hfront : Early front) (hback : Quiet back) : Quiet (front ++ back) := by
  refine List.pairwise_append.mpr ⟨?_, hback, fun c hc later _ hleaving => ?_⟩
  · refine List.pairwise_of_forall_mem_list fun c hc later _ hleaving => ?_
    rw [(hfront c hc).1] at hleaving
    cases hleaving
  · rw [(hfront c hc).1] at hleaving
    cases hleaving

theorem Early.quiet (hfront : Early front) : Quiet front := by
  rw [← List.append_nil front]
  exact hfront.quiet_append .nil

theorem early_of_isPages (h : ∀ c ∈ front, c.1.isPages = true) : Early front := by
  rintro ⟨call, a⟩ hc
  have hpages := h _ hc
  cases call <;> first | exact ⟨rfl, rfl⟩ | cases hpages

theorem not_isPages_of_isGraphics {call : Call} (h : call.isGraphics = true) :
    call.isPages = false := by
  cases call <;> first | rfl | cases h

theorem early_of_isGraphics (h : ∀ c ∈ front, c.1.isGraphics = true) : Early front := by
  rintro ⟨call, a⟩ hc
  have hgraphics := h _ hc
  cases call with
  | boot service => cases service <;> first | exact ⟨rfl, rfl⟩ | cases hgraphics
  | exit handle status => cases hgraphics
  | _ => exact ⟨rfl, rfl⟩

end Calls

/-! ## Leaving the boot services -/

section Leaving

variable {env : Boot.Firmware} {handle : ℕ} {fresh : Memmap} {α : Type}

/-- The firmware answers as it should: a map is described when there is no room for it and
written where there is, and a key can only be out of date. -/
def BootGrants : Boot.Service × Boot.Answer → Prop
  | (.get_memory_map size, a) =>
      if size = 0 then a.status = EFI_BUFFER_TOO_SMALL ∧ 0 < a.memmap.map_size ∧
        a.memmap.map_size + a.memmap.desc_size * Boot.EFI_MMAP_NR_SLACK_SLOTS < 2 ^ 64
      else a.status = EFI_SUCCESS
  | (.allocate_pool _ _, a) => a.status = EFI_SUCCESS
  | (.exit_boot_services _ _, a) => a.status = EFI_SUCCESS ∨ a.status = EFI_INVALID_PARAMETER
  | (.free_pool _, _) => True

/-- The key that was handed over is out of date. -/
def outdated (c : Boot.Service × Boot.Answer) : Bool :=
  c.1.isExit && c.2.status == EFI_INVALID_PARAMETER

/-- What a try to leave the boot services does and returns. -/
structure Leaves (handle : ℕ) (r : ℕ × Option (ℕ × Memmap)) (t : Boot.Trace) : Prop where
  quiet : t.Pairwise fun c later => c.1.isExit = true →
    later.1.isExit = true ∨ later.1.isMap = true
  left : r.1 = EFI_SUCCESS → ∃ front pool size map exit,
    r.2 = some (pool.addr, map.memmap) ∧ t = front ++ [(.get_memory_map size, map),
      (.exit_boot_services handle map.memmap.map_key, exit)] ∧
    (.allocate_pool Boot.EFI_LOADER_DATA ((sizeofMemmap + size) % 2 ^ 64), pool) ∈ front ∧
    pool.status = EFI_SUCCESS ∧ map.status = EFI_SUCCESS ∧ exit.status ≠ EFI_INVALID_PARAMETER
  granted : (∀ c ∈ t, BootGrants c) → t.countP outdated ≤ 1 → r.1 = EFI_SUCCESS

theorem converses_efiGetMemoryMap {memmap : Memmap} {post : α → Boot.Trace → Prop}
    {f : ℕ × Memmap → StateM Boot.Trace α}
    (h : ∀ a, Converses env (fun b last => post b ((.get_memory_map memmap.map_size, a) :: last))
      (f (a.status, a.memmap))) : Converses env post (Boot.efiGetMemoryMap env memmap >>= f) := by
  have hsame : Boot.efiGetMemoryMap env memmap >>= f =
      ask env (.get_memory_map memmap.map_size) >>= fun a => f (a.status, a.memmap) := rfl
  rw [hsame]
  exact .ask_bind h

theorem converses_efiAllocate {memory_type size : ℕ} {post : α → Boot.Trace → Prop}
    {f : ℕ × ℕ → StateM Boot.Trace α}
    (h : ∀ a, Converses env (fun b last => post b ((.allocate_pool memory_type size, a) :: last))
      (f (a.status, a.addr))) :
    Converses env post (Boot.efiAllocate env memory_type size >>= f) := by
  have hsame : Boot.efiAllocate env memory_type size >>= f =
      ask env (.allocate_pool memory_type size) >>= fun a => f (a.status, a.addr) := rfl
  rw [hsame]
  exact .ask_bind h

theorem converses_efiFree {addr : ℕ} {post : α → Boot.Trace → Prop} {f : ℕ → StateM Boot.Trace α}
    (h : ∀ a, Converses env (fun b last => post b ((.free_pool addr, a) :: last)) (f a.status)) :
    Converses env post (Boot.efiFree env addr >>= f) := by
  have hsame : Boot.efiFree env addr >>= f =
      ask env (.free_pool addr) >>= fun a => f a.status := rfl
  rw [hsame]
  exact .ask_bind h

theorem efiBsCall_eq (service : Boot.Service) : efiBsCall env service = ask env service := rfl

/-- A map for which room was made as the firmware said is written. -/
theorem BootGrants.map_success {a b : Boot.Answer} {size : ℕ}
    (ha : BootGrants (.get_memory_map 0, a)) (hb : BootGrants (.get_memory_map size, b))
    (hsize : (a.memmap.map_size + a.memmap.desc_size * Boot.EFI_MMAP_NR_SLACK_SLOTS) % 2 ^ 64 =
      size) : b.status = EFI_SUCCESS := by
  rw [BootGrants, if_pos rfl] at ha
  rw [BootGrants, if_neg (by omega)] at hb
  exact hb

theorem efiExitBootServices_leaves :
    Converses env (Leaves handle) (efiExitBootServices env handle fresh) := by
  refine converses_efiGetMemoryMap fun a => ?_
  dsimp only
  by_cases h0 : a.status = EFI_BUFFER_TOO_SMALL
  · rw [if_neg (not_not.mpr h0)]
    generalize hsize : (a.memmap.map_size + a.memmap.desc_size * Boot.EFI_MMAP_NR_SLACK_SLOTS) %
      2 ^ 64 = size
    refine converses_efiAllocate fun b => ?_
    dsimp only
    by_cases h1 : b.status = EFI_SUCCESS
    · rw [if_neg (not_not.mpr h1)]
      refine converses_efiGetMemoryMap fun c => ?_
      dsimp only
      by_cases h2 : c.status = EFI_SUCCESS
      · rw [if_neg (not_not.mpr h2), efiBsCall_eq]
        refine .ask_bind fun d => ?_
        by_cases h3 : d.status = EFI_INVALID_PARAMETER
        · rw [if_pos h3]
          refine converses_efiGetMemoryMap fun e => ?_
          dsimp only
          by_cases h4 : e.status = EFI_SUCCESS
          · rw [if_neg (not_not.mpr h4), efiBsCall_eq]
            refine .ask_bind fun g => ?_
            by_cases h5 : g.status = EFI_SUCCESS
            · rw [if_neg (not_not.mpr h5)]
              refine .pure ⟨by simp [Boot.Service.isExit, Boot.Service.isMap], fun _ => ?_,
                fun _ _ => rfl⟩
              exact ⟨[_, _, _, _], b, size, e, g, rfl, rfl, by simp, h1, h4, by rw [h5]; decide⟩
            · rw [if_pos h5]
              refine .pure ⟨by simp [Boot.Service.isExit, Boot.Service.isMap],
                fun h => absurd h h5, fun hall honce => ?_⟩
              -- the second key is not out of date as well
              refine (hall (.exit_boot_services handle e.memmap.map_key, g) (by simp)).resolve_right
                fun h => ?_
              simp [outdated, Boot.Service.isExit, h3, h] at honce
          · rw [if_pos h4]
            refine .pure ⟨by simp [Boot.Service.isExit, Boot.Service.isMap],
              fun h => absurd h h4, fun hall _ => ?_⟩
            exact (hall _ List.mem_cons_self).map_success
              (hall (.get_memory_map size, e) (by simp)) hsize
        · rw [if_neg h3]
          refine .pure ⟨by simp [Boot.Service.isExit], fun _ => ?_, fun _ _ => rfl⟩
          exact ⟨[_, _], b, size, c, d, rfl, rfl, by simp, h1, h2, h3⟩
      · rw [if_pos h2]
        refine converses_efiFree fun d => .pure ⟨by simp [Boot.Service.isExit],
          fun h => absurd h h2, fun hall _ => ?_⟩
        exact (hall _ List.mem_cons_self).map_success
          (hall (.get_memory_map size, c) (by simp)) hsize
    · rw [if_pos h1]
      refine .pure ⟨by simp [Boot.Service.isExit], fun h => absurd h h1, fun hall _ => ?_⟩
      exact hall (.allocate_pool Boot.EFI_LOADER_DATA ((sizeofMemmap + size) % 2 ^ 64), b) (by simp)
  · rw [if_pos h0]
    refine .pure ⟨by simp, fun h => absurd h (by decide : EFI_LOAD_ERROR ≠ EFI_SUCCESS),
      fun hall _ => ?_⟩
    exact absurd (hall _ List.mem_cons_self).1 h0

/-- The firmware answers as it should. The pages it hands out are whole ones and do not wrap
around. -/
def Grants : Call × Answer → Prop
  | (.allocate_pages _ pages, a) => a.status = EFI_SUCCESS ∧ EFI_PAGE_SIZE ∣ a.addr ∧
      a.addr + pages * EFI_PAGE_SIZE ≤ 2 ^ 64
  | (.boot service, a) => BootGrants (service, a.toAnswer)
  | _ => True

/-- All calls are answered as they should be, and the key of the memory map is out of date at
most once. -/
structure Obliges (t : Trace) : Prop where
  grants : ∀ c ∈ t, Grants c
  once : (t.countP fun c => c.1.isLeaving && c.2.status == EFI_INVALID_PARAMETER) ≤ 1

/-- The boot services have been left with the map whose address is returned, as far as the
code can tell. -/
structure LeftBehind (handle : ℕ) (r : ℕ × Option (ℕ × Memmap)) (t : Trace) : Prop where
  quiet : Quiet t
  calls : ∀ c ∈ t, c.1.isExit = false ∧ c.1.isPages = false
  left : r.1 = EFI_SUCCESS → ∃ front pool size map exit,
    r.2 = some (pool.addr, map.memmap) ∧ t = front ++ [(.boot (.get_memory_map size), map),
      (.boot (.exit_boot_services handle map.memmap.map_key), exit)] ∧
    (.boot (.allocate_pool Boot.EFI_LOADER_DATA ((sizeofMemmap + size) % 2 ^ 64)), pool) ∈ front ∧
    pool.status = EFI_SUCCESS ∧ map.status = EFI_SUCCESS ∧ exit.status ≠ EFI_INVALID_PARAMETER
  granted : Obliges t → r.1 = EFI_SUCCESS

section Embedded

variable {t : Trace} {inner : Boot.Trace}
  (hsame : t.map (fun c => (c.1, c.2.toAnswer)) = inner.map fun c => (Call.boot c.1, c.2))

include hsame

/-- A call of the run is one of `efi_exit_boot_services` with the same answer. -/
theorem exists_inner {c : Call × Answer} (hc : c ∈ t) :
    ∃ service, (service, c.2.toAnswer) ∈ inner ∧ c.1 = .boot service := by
  have hmem := List.mem_map_of_mem (f := fun c : Call × Answer => (c.1, c.2.toAnswer)) hc
  rw [hsame, List.mem_map] at hmem
  obtain ⟨⟨service, a⟩, hinner, heq⟩ := hmem
  obtain ⟨hfst, rfl⟩ := Prod.mk.inj heq
  exact ⟨service, hinner, hfst.symm⟩

theorem exists_outer {service : Boot.Service} {a : Boot.Answer} (h : (service, a) ∈ inner) :
    ∃ b, (Call.boot service, b) ∈ t ∧ b.toAnswer = a := by
  have hmem := List.mem_map_of_mem (f := fun c : Boot.Service × Boot.Answer =>
    (Call.boot c.1, c.2)) h
  rw [← hsame, List.mem_map] at hmem
  obtain ⟨⟨call, b⟩, hb, heq⟩ := hmem
  obtain ⟨rfl, hanswer⟩ := Prod.mk.inj heq
  exact ⟨b, hb, hanswer⟩

/-- The last two calls of the one are the last two of the other. -/
theorem exists_outer_last {front : Boot.Trace} {first second : Boot.Service × Boot.Answer}
    (hinner : inner = front ++ [first, second]) : ∃ front' a b,
      t = front' ++ [(.boot first.1, a), (.boot second.1, b)] ∧ a.toAnswer = first.2 ∧
        b.toAnswer = second.2 ∧
        front'.map (fun c => (c.1, c.2.toAnswer)) = front.map fun c => (Call.boot c.1, c.2) := by
  rw [hinner, List.map_append, List.map_eq_append_iff] at hsame
  obtain ⟨front', back', rfl, hfront, hback⟩ := hsame
  rw [List.map_cons, List.map_cons, List.map_nil, List.map_eq_cons_iff] at hback
  obtain ⟨⟨call, a⟩, rest, rfl, hfirst, hrest⟩ := hback
  rw [List.map_eq_cons_iff] at hrest
  obtain ⟨⟨call', b⟩, rest', rfl, hsecond, hnil⟩ := hrest
  obtain rfl := List.map_eq_nil_iff.mp hnil
  obtain ⟨rfl, ha⟩ := Prod.mk.inj hfirst
  obtain ⟨rfl, hb⟩ := Prod.mk.inj hsecond
  exact ⟨front', a, b, rfl, ha, hb, hfront⟩

end Embedded

theorem exitBootServices_leftBehind {firmware : Firmware} :
    Converses firmware (LeftBehind handle) (exitBootServices firmware handle fresh) := by
  refine (Converses.embed fun _ => efiExitBootServices_leaves).mono ?_
  rintro r t ⟨inner, hleaves, hsame⟩
  refine ⟨?_, fun c hc => ?_, fun hsuccess => ?_, fun h => hleaves.granted (fun c hc => ?_) ?_⟩
  · have hquiet : (t.map fun c => (c.1, c.2.toAnswer)).Pairwise fun c later =>
        c.1.isLeaving = true → later.1.isLate = true := by
      rw [hsame]
      refine List.pairwise_map.mpr (hleaves.quiet.imp fun {c later} h hleaving => ?_)
      rw [Call.isLate, Bool.or_eq_true]
      exact h hleaving
    exact List.pairwise_map.mp hquiet
  · obtain ⟨service, -, hboot⟩ := exists_inner hsame hc
    rw [hboot]
    exact ⟨rfl, rfl⟩
  · obtain ⟨front, pool, size, map, exit, hr, hinner, hpool, hgot, hmap, hexit⟩ :=
      hleaves.left hsuccess
    obtain ⟨front', map', exit', rfl, rfl, rfl, hfront⟩ := exists_outer_last hsame hinner
    obtain ⟨pool', hpool', rfl⟩ := exists_outer hfront hpool
    exact ⟨front', pool', size, map', exit', hr, rfl, hpool', hgot, hmap, hexit⟩
  · obtain ⟨service, a⟩ := c
    obtain ⟨b, ht, rfl⟩ := exists_outer hsame hc
    exact h.grants _ ht
  · have hcount := congrArg (List.countP fun c =>
      c.1.isLeaving && c.2.status == EFI_INVALID_PARAMETER) hsame
    rw [List.countP_map, List.countP_map] at hcount
    exact hcount.symm.trans_le h.once

end Leaving

/-! ## Pages -/

/-- The runs of pages that were granted. -/
def granted (t : Trace) : List (ℕ × ℕ) := t.filterMap fun
  | (.allocate_pages _ pages, a) => if a.status = EFI_SUCCESS then some (a.addr, pages) else none
  | _ => none

/-- The runs of pages that were given back. -/
def givenBack (t : Trace) : List (ℕ × ℕ) := t.filterMap fun
  | (.free_pages addr pages, _) => some (addr, pages)
  | _ => none

/-- Of the pages that were granted those of the runs `kept` have not been given back. -/
def Keeps (t : Trace) (kept : List (ℕ × ℕ)) : Prop :=
  ((givenBack t).flatMap pages ++ kept.flatMap pages).Perm ((granted t).flatMap pages)

/-- What an allocation does and returns. -/
def Allocated (size align memory_type : ℕ) (r : ℕ × Option ℕ) (t : Trace) : Prop :=
  ∃ a frees freed, t = (.allocate_pages memory_type (askedPages size align), a) :: frees ∧
    efiAllocatePages (fun _ _ => (a.status, a.addr)) size align memory_type = (r.1, r.2, freed) ∧
    frees.map Prod.fst = freed.map fun run => Call.free_pages run.1 run.2

section Pages

variable {firmware : Firmware} {size align memory_type : ℕ} {r : ℕ × Option ℕ} {t t' : Trace}

theorem Keeps.append {kept kept' : List (ℕ × ℕ)} (h : Keeps t kept) (h' : Keeps t' kept') :
    Keeps (t ++ t') (kept ++ kept') := by
  rw [Keeps, givenBack, granted, List.filterMap_append, List.filterMap_append, List.flatMap_append,
    List.flatMap_append, List.flatMap_append]
  refine List.Perm.trans ?_ (List.Perm.append h h')
  rw [List.append_assoc, List.append_assoc]
  refine List.Perm.append_left _ ?_
  rw [← List.append_assoc, ← List.append_assoc]
  exact List.Perm.append_right _ List.perm_append_comm

/-- Other calls keep and give back nothing. -/
theorem keeps_nil (h : ∀ c ∈ t, c.1.isPages = false) : Keeps t [] := by
  have hgiven : givenBack t = [] := by
    refine List.filterMap_eq_nil_iff.mpr ?_
    rintro ⟨call, a⟩ hc
    have hpages := h _ hc
    cases call <;> first | rfl | cases hpages
  have hgranted : granted t = [] := by
    refine List.filterMap_eq_nil_iff.mpr ?_
    rintro ⟨call, a⟩ hc
    have hpages := h _ hc
    cases call <;> first | rfl | cases hpages
  rw [Keeps, hgiven, hgranted]
  exact List.Perm.refl _

theorem converses_freePages (runs : List (ℕ × ℕ)) :
    Converses firmware (fun _ more => more.map Prod.fst =
      runs.map fun run => Call.free_pages run.1 run.2) (freePages firmware runs) := by
  induction runs with
  | nil => exact .pure rfl
  | cons run runs ih =>
      refine .ask_bind fun a => ih.mono fun _ more hmore => ?_
      rw [List.map_cons, List.map_cons, hmore]

theorem allocatePages_allocated : Converses firmware (Allocated size align memory_type)
    (allocatePages firmware size align memory_type) := by
  refine .ask_bind fun a => (converses_freePages _).bind fun _ frees hfrees => .pure ?_
  rw [List.append_nil]
  exact ⟨a, frees, _, rfl, rfl, hfrees⟩

/-- An alignment of zero is one of a page. -/
theorem Allocated.of_zero (h : Allocated size 0 memory_type r t) :
    Allocated size (2 ^ 12) memory_type r t := h

theorem Allocated.isPages (h : Allocated size align memory_type r t) :
    ∀ c ∈ t, c.1.isPages = true := by
  obtain ⟨a, frees, freed, rfl, -, hfrees⟩ := h
  refine List.forall_mem_cons.mpr ⟨rfl, fun c hc => ?_⟩
  have hmem := List.mem_map_of_mem (f := Prod.fst) hc
  rw [hfrees, List.mem_map] at hmem
  obtain ⟨run, -, hrun⟩ := hmem
  rw [← hrun]
  rfl

/-- Whatever address the firmware answers with, the one that is returned is aligned. -/
theorem Allocated.aligned {k : ℕ} (hk : k < 64) (hpage : 12 ≤ k)
    (h : Allocated size (2 ^ k) memory_type r t) (hr : r.1 = EFI_SUCCESS) :
    ∃ addr, r.2 = some addr ∧ 2 ^ k ∣ addr := by
  obtain ⟨a, frees, freed, -, hrun, -⟩ := h
  have hle : ¬ 2 ^ k < EFI_ALLOC_ALIGN :=
    not_lt.mpr (Nat.pow_le_pow_right (by decide) hpage : 2 ^ 12 ≤ 2 ^ k)
  by_cases hstatus : a.status = EFI_SUCCESS
  · simp only [efiAllocatePages, if_neg hle, ne_eq, hstatus, not_true, if_false] at hrun
    refine ⟨_, (Prod.mk.inj (Prod.mk.inj hrun).2).1.symm, ?_⟩
    have hmask : sub64 (2 ^ k) 1 = 2 ^ k - 1 :=
      sub64_eq (Nat.two_pow_pos k) (Nat.pow_lt_pow_right (by decide) hk)
    rw [Memory.alignKernel, hmask, and_not64_eq (add64_lt _ _) hk.le]
    exact Nat.dvd_mul_right _ _
  · simp only [efiAllocatePages, ne_eq, hstatus, not_false_eq_true, if_true] at hrun
    exact absurd ((Prod.mk.inj hrun).1.trans hr) hstatus

theorem alignment_eq {j a : ℕ} (hpage : 12 ≤ j) (hpow : 2 ^ j = 4096 * a) :
    (if 2 ^ j < EFI_ALLOC_ALIGN then EFI_ALLOC_ALIGN else 2 ^ j) = 4096 * a := by
  have hle : EFI_ALLOC_ALIGN ≤ 2 ^ j := Nat.pow_le_pow_right (n := 2) (by decide) hpage
  rw [if_neg (not_lt.mpr hle), hpow]

theorem granted_cons {a : Answer} {n : ℕ} (ha : a.status = EFI_SUCCESS) :
    granted ((.allocate_pages memory_type n, a) :: t) = (a.addr, n) :: granted t := by
  simp [granted, ha]

theorem givenBack_cons {a : Answer} {n : ℕ} :
    givenBack ((.allocate_pages memory_type n, a) :: t) = givenBack t := rfl

theorem givenBack_of_map {frees : Trace} {freed : List (ℕ × ℕ)}
    (h : frees.map Prod.fst = freed.map fun run => Call.free_pages run.1 run.2) :
    givenBack frees = freed ∧ granted frees = [] := by
  induction freed generalizing frees with
  | nil =>
      obtain rfl := List.map_eq_nil_iff.mp h
      exact ⟨rfl, rfl⟩
  | cons run runs ih =>
      rw [List.map_cons, List.map_eq_cons_iff] at h
      obtain ⟨⟨call, b⟩, rest, rfl, hcall, hrest⟩ := h
      obtain rfl : call = .free_pages run.1 run.2 := hcall
      obtain ⟨hgiven, hgranted⟩ := ih hrest
      exact ⟨congrArg (run :: ·) hgiven, hgranted⟩

section Block

variable {j a : ℕ} (hpage : 12 ≤ j) (hpow : 2 ^ j = 4096 * a)
  (hint : sizePages size + (a - 1) < 2 ^ 31)

include hpage hpow hint

theorem askedPages_eq : askedPages size (2 ^ j) = sizePages size + (a - 1) := by
  have ha : 0 < a := Nat.pos_of_mul_pos_left (hpow ▸ Nat.two_pow_pos j)
  rw [askedPages, alignment_eq hpage hpow,
    roundUp_size (Nat.lt_of_le_of_lt (Nat.le_add_right _ _) hint),
    extra_eq ha (by omega), count_eq hint]

/-- The address and the calls of `free_pages` when the block of pages begins at page `q`. -/
theorem efiAllocatePages_eq {q : ℕ} (hj : j < 64) (hsize : 0 < size)
    (hwrap : 4096 * q + (sizePages size + (a - 1)) * 4096 ≤ 2 ^ 64) :
    efiAllocatePages (fun _ _ => (EFI_SUCCESS, 4096 * q)) size (2 ^ j) memory_type =
      (EFI_SUCCESS, some (4096 * (q + leading a q)), freeRun (4096 * q) (leading a q) ++
        freeRun (4096 * q + 4096 * (leading a q + sizePages size)) (a - 1 - leading a q)) := by
  have ha : 0 < a := Nat.pos_of_mul_pos_left (hpow ▸ Nat.two_pow_pos j)
  have hm := sizePages_pos hsize
  have hround := roundUp_size (Nat.lt_of_le_of_lt (Nat.le_add_right _ _) hint)
  have hanswer : (fun _ _ => (EFI_SUCCESS, 4096 * q) : ℕ → ℕ → ℕ × ℕ) memory_type
      (add64 (4096 * sizePages size / EFI_PAGE_SIZE) (wordOfInt (a - 1 : ℕ))) =
      (EFI_SUCCESS, 4096 * q) := rfl
  rw [efiAllocatePages_success (alignment_eq hpage hpow) hround (extra_eq ha (by omega)) hanswer,
    aligned_eq hj hpow ha (by omega), offset_eq hj hpow ha (by omega),
    freeSurplus_eq ha hm hint hwrap]

/-- Of the block that the firmware grants, the pages for `size` bytes are kept. -/
theorem Allocated.keeps (h : Allocated size (2 ^ j) memory_type r t)
    (hgrants : ∀ c ∈ t, Grants c) (hj : j < 64) (hsize : 0 < size) :
    ∃ addr, r = (EFI_SUCCESS, some addr) ∧ Keeps t [(addr, sizePages size)] := by
  obtain ⟨answer, frees, freed, rfl, hrun, hfrees⟩ := h
  obtain ⟨hstatus, ⟨q, haddr⟩, hwrap⟩ := hgrants _ List.mem_cons_self
  rw [askedPages_eq hpage hpow hint, haddr] at hwrap
  rw [hstatus, haddr] at hrun
  have heq := (efiAllocatePages_eq hpage hpow hint hj hsize hwrap).symm.trans hrun
  have ha : 0 < a := Nat.pos_of_mul_pos_left (hpow ▸ Nat.two_pow_pos j)
  have hlead := leading_lt ha q
  obtain ⟨hr, heq'⟩ := Prod.mk.inj heq
  obtain ⟨haddr', hfreed⟩ := Prod.mk.inj heq'
  refine ⟨4096 * (q + leading a q), Prod.ext hr.symm haddr'.symm, ?_⟩
  -- the pages in front of the aligned part and those behind it are given back
  have hends : freed.flatMap pages = pages (4096 * q, leading a q) ++
      pages (4096 * q + EFI_PAGE_SIZE * (leading a q + sizePages size), a - 1 - leading a q) := by
    rw [← hfreed, List.flatMap_append, flatMap_freeRun, flatMap_freeRun]
    rfl
  have hwhole := (trims_of_ends hends).whole
  obtain ⟨hgiven, hgranted⟩ := givenBack_of_map hfrees
  have hcount : leading a q + sizePages size + (a - 1 - leading a q) =
      sizePages size + (a - 1) := by omega
  have hstart : 4096 * q + EFI_PAGE_SIZE * leading a q = 4096 * (q + leading a q) :=
    (Nat.mul_add _ _ _).symm
  rw [hcount, hstart] at hwhole
  rw [Keeps, granted_cons hstatus, hgranted, askedPages_eq hpage hpow hint, haddr,
    List.flatMap_singleton, List.flatMap_singleton, givenBack_cons, hgiven]
  exact hwhole

end Block

end Pages

/-! ## The entry -/

/-- The image is one member for `data`, which is not empty and fits into 32 bits when its length
is rounded up. -/
structure Packed (image data : List UInt8) : Prop where
  mem : Rfc1952.Member image data
  pos : 0 < data.length
  fits : data.length + (Boot.MIN_KERNEL_ALIGN - 1) < 2 ^ 32

/-- The boot services have been left with the map that the parameters describe, as far as the
code can tell, and that was the last that was asked of the firmware. -/
def Described (handle : ℕ) (systab : SystemTable) (params : BootParams) (t : Trace) : Prop :=
  ∃ front pool size map exit,
    t = front ++ [(.boot (.get_memory_map size), map),
      (.boot (.exit_boot_services handle map.memmap.map_key), exit)] ∧
    (.boot (.allocate_pool Boot.EFI_LOADER_DATA ((sizeofMemmap + size) % 2 ^ 64)), pool) ∈ front ∧
    pool.status = EFI_SUCCESS ∧ map.status = EFI_SUCCESS ∧ exit.status ≠ EFI_INVALID_PARAMETER ∧
    params.efi_info =
      ⟨map.memmap.desc_size, map.memmap.map_size, add64 pool.addr sizeofMemmap⟩ ∧
    params.efi_systab = systab.addr ∧ params.acpi_rsdp_addr = efiGetRsdpAddr systab ∧
    params.ramdisk_image = 0 ∧ params.ramdisk_size = 0 ∧ params.cmd_line_ptr = 0

/-- What a run of the entry may come to, whatever the firmware answers. -/
structure Safe (handle : ℕ) (systab : SystemTable) (image : List UInt8)
    (r : Except Boot.Fault Ending) (t : Trace) : Prop where
  quiet : Quiet t
  exits : ∀ status, r = .ok (.exited status) → status ≠ EFI_SUCCESS ∧
    ∃ front a, t = front ++ [(.exit handle status, a)] ∧ ∀ c ∈ front, c.1.isExit = false
  faults : ∀ fault, r = .error fault → Early t ∧ (ukernelSize image = .error fault ∨
    ∃ cap, ukernelSize image = .ok cap ∧ decompressGzip cap cap image = .error fault)
  enters : ∀ ukernel_addr ukernel boot_params params,
    r = .ok (.entered ukernel_addr ukernel boot_params params) →
      CONFIG_PHYSICAL_ALIGN ∣ ukernel_addr ∧ EFI_PAGE_SIZE ∣ boot_params ∧
      (∃ cap n, ukernelSize image = .ok cap ∧
        decompressGzip cap cap image = .ok ⟨SUCCESS, n, ukernel⟩) ∧
      (∀ c ∈ t, c.1.isExit = false) ∧ Described handle systab params t

/-- The kernel is entered with its data in place, and of the pages that were granted only those
of the parameters and of the kernel are kept. -/
def Enters (data : List UInt8) (r : Except Boot.Fault Ending) (t : Trace) : Prop :=
  ∃ ukernel_addr boot_params params,
    r = .ok (.entered ukernel_addr data boot_params params) ∧
    Keeps t [(boot_params, 1), (ukernel_addr, sizePages (Boot.roundUp data.length))]

/-- What is true of every run. -/
def Outcome (handle : ℕ) (systab : SystemTable) (image : List UInt8)
    (r : Except Boot.Fault Ending) (t : Trace) : Prop :=
  Safe handle systab image r t ∧ ∀ data, Packed image data → Obliges t → Enters data r t

section Entry

variable {firmware : Firmware} {handle : ℕ} {systab : SystemTable} {image data : List UInt8}
  {params : BootParams} {fresh : Memmap} {front back : Trace}

theorem Obliges.left (h : Obliges (front ++ back)) : Obliges front :=
  ⟨fun c hc => h.grants c (List.mem_append_left _ hc), le_trans
    (List.countP_append ▸ Nat.le_add_right _ _) h.once⟩

theorem Obliges.right (h : Obliges (front ++ back)) : Obliges back :=
  ⟨fun c hc => h.grants c (List.mem_append_right _ hc), le_trans
    (List.countP_append ▸ Nat.le_add_left _ _) h.once⟩

namespace Packed

variable (h : Packed image data)

include h

theorem size_eq : ukernelSize image = .ok (Boot.roundUp data.length) :=
  Boot.ukernelSize_of_member h.mem h.fits

theorem size_of_ok {ukernel_size : ℕ} (hsize : ukernelSize image = .ok ukernel_size) :
    Boot.roundUp data.length = ukernel_size :=
  Except.ok.inj (h.size_eq.symm.trans hsize)

theorem size_pos : 0 < Boot.roundUp data.length :=
  Nat.lt_of_lt_of_le h.pos (Boot.le_roundUp h.fits)

theorem size_lt : sizePages (Boot.roundUp data.length) + (2 ^ 10 - 1) < 2 ^ 31 := by
  have hfits := h.fits
  have hle := Nat.mul_div_le (data.length + (Boot.MIN_KERNEL_ALIGN - 1)) (2 ^ 21)
  rw [sizePages_eq, Boot.roundUp_eq h.fits]
  omega

theorem unpacks : decompressGzip (Boot.roundUp data.length) (Boot.roundUp data.length) image =
    .ok ⟨SUCCESS, data.length, data⟩ :=
  Boot.decompressGzip_of_member h.mem (Boot.le_roundUp h.fits) _

end Packed

/-- A run that ends with `exit` is safe. -/
theorem safe_of_exit {status : ℕ} {a : Answer} (hquiet : Quiet front)
    (hcalls : ∀ c ∈ front, c.1.isExit = false) (hstatus : status ≠ EFI_SUCCESS) :
    Safe handle systab image (.ok (.exited status)) (front ++ [(.exit handle status, a)]) where
  quiet := by
    refine List.pairwise_append.mpr ⟨hquiet, List.pairwise_singleton _ _,
      fun c _ later hlater _ => ?_⟩
    rw [List.mem_singleton.mp hlater]
    rfl
  exits status' h := by
    obtain rfl : status = status' := by simpa using h
    exact ⟨hstatus, front, a, rfl, hcalls⟩
  faults fault h := by cases h
  enters _ _ _ _ h := by cases h

/-- A run that ends with a fault of the decompressor is safe. -/
theorem safe_of_fault {fault : Boot.Fault} (hearly : Early front)
    (h : ukernelSize image = .error fault ∨
      ∃ cap, ukernelSize image = .ok cap ∧ decompressGzip cap cap image = .error fault) :
    Safe handle systab image (.error fault) front where
  quiet := hearly.quiet
  exits _ h := by cases h
  faults fault' h' := by
    obtain rfl : fault = fault' := by simpa using h'
    exact ⟨hearly, h⟩
  enters _ _ _ _ h := by cases h

theorem converses_efiExit {status : ℕ} {post : Except Boot.Fault Ending → Trace → Prop}
    (h : ∀ a, post (.ok (.exited status)) [(.exit handle status, a)]) :
    Converses firmware post (efiExit firmware handle status) :=
  .ask_bind fun a => .pure (h a)

/-- Where the parameters are allocated as they should be, the page is kept. -/
theorem Allocated.keeps_params {r : ℕ × Option ℕ} {t : Trace}
    (h : Allocated BOOT_PARAMS_SIZE 0 EFI_LOADER_DATA r t) (hgrants : ∀ c ∈ t, Grants c) :
    ∃ addr, r = (EFI_SUCCESS, some addr) ∧ Keeps t [(addr, 1)] :=
  h.of_zero.keeps (a := 1) (by decide) rfl (by decide) hgrants (by decide) (by decide)

theorem Allocated.keeps_kernel {r : ℕ × Option ℕ} {t : Trace} (himage : Packed image data)
    (h : Allocated (Boot.roundUp data.length) CONFIG_PHYSICAL_ALIGN EFI_LOADER_CODE r t)
    (hgrants : ∀ c ∈ t, Grants c) : ∃ addr, r = (EFI_SUCCESS, some addr) ∧
      Keeps t [(addr, sizePages (Boot.roundUp data.length))] :=
  Allocated.keeps (j := 22) (a := 2 ^ 10) (by decide) rfl himage.size_lt h hgrants (by decide)
    himage.size_pos

theorem Allocated.early {size align memory_type : ℕ} {r : ℕ × Option ℕ} {t : Trace}
    (h : Allocated size align memory_type r t) : Early t :=
  early_of_isPages h.isPages

/-- A run that has left the boot services and jumps to the kernel is safe. -/
theorem safe_of_enter {r : ℕ × Option (ℕ × Memmap)} {ukernel_addr boot_params cap n : ℕ}
    {ukernel : List UInt8} {screen_info : ScreenInfo} (hearly : Early front)
    (hleft : LeftBehind handle r back) (hr : r.1 = EFI_SUCCESS)
    (hkernel : CONFIG_PHYSICAL_ALIGN ∣ ukernel_addr) (hparams : EFI_PAGE_SIZE ∣ boot_params)
    (hsize : ukernelSize image = .ok cap)
    (hrun : decompressGzip cap cap image = .ok ⟨SUCCESS, n, ukernel⟩) :
    Safe handle systab image (.ok (.entered ukernel_addr ukernel boot_params
      { ramdisk_image := 0
        ramdisk_size := 0
        cmd_line_ptr := 0
        screen_info := screen_info
        efi_systab := systab.addr
        efi_info := ⟨(r.2.getD (0, fresh)).2.desc_size, (r.2.getD (0, fresh)).2.map_size,
          add64 (r.2.getD (0, fresh)).1 sizeofMemmap⟩
        acpi_rsdp_addr := efiGetRsdpAddr systab })) (front ++ back) where
  quiet := hearly.quiet_append hleft.quiet
  exits _ h := by cases h
  faults _ h := by cases h
  enters addr ukernel' params_addr params h := by
    obtain ⟨rfl, rfl, rfl, rfl⟩ : ukernel_addr = addr ∧ ukernel = ukernel' ∧
        boot_params = params_addr ∧ _ = params := by simpa using h
    refine ⟨hkernel, hparams, ⟨cap, n, hsize, hrun⟩, List.forall_mem_append.mpr
      ⟨fun c hc => (hearly c hc).2, fun c hc => (hleft.calls c hc).1⟩, ?_⟩
    obtain ⟨behind, pool, size, map, exit, hmap, rfl, hpool, hgot, hstatus, hexit⟩ :=
      hleft.left hr
    rw [hmap]
    exact ⟨front ++ behind, pool, size, map, exit, (List.append_assoc _ _ _).symm,
      List.mem_append_right _ hpool, hgot, hstatus, hexit, rfl, rfl, rfl, rfl, rfl, rfl⟩

/-- Where the firmware obliges, the two blocks are kept, and what is allocated for the screens
and for the memory map counts among no pages. -/
theorem enters_of_granted {r : ℕ × Option (ℕ × Memmap)} {t₁ t₂ t₃ t₄ : Trace}
    {ukernel_size ukernel_addr boot_params n : ℕ} {ukernel : List UInt8} {params' : BootParams}
    (himage : Packed image data) (h : Obliges (t₁ ++ (t₂ ++ (t₃ ++ (t₄ ++ [])))))
    (hparams : Allocated BOOT_PARAMS_SIZE 0 EFI_LOADER_DATA (EFI_SUCCESS, some boot_params) t₁)
    (hkernel : Allocated ukernel_size CONFIG_PHYSICAL_ALIGN EFI_LOADER_CODE
      (EFI_SUCCESS, some ukernel_addr) t₂)
    (hdraws : ∀ c ∈ t₃, c.1.isGraphics = true) (hleft : LeftBehind handle r t₄)
    (hsize : ukernelSize image = .ok ukernel_size)
    (hrun : decompressGzip ukernel_size ukernel_size image = .ok ⟨SUCCESS, n, ukernel⟩) :
    Enters data (.ok (.entered ukernel_addr ukernel boot_params params'))
      (t₁ ++ (t₂ ++ (t₃ ++ (t₄ ++ [])))) := by
  obtain rfl := himage.size_of_ok hsize
  rw [himage.unpacks] at hrun
  obtain ⟨-, -, rfl⟩ := Boot.Decompressed.mk.inj (Except.ok.inj hrun)
  obtain ⟨_, heq₁, hkept₁⟩ := hparams.keeps_params h.left.grants
  obtain ⟨_, heq₂, hkept₂⟩ := hkernel.keeps_kernel himage h.right.left.grants
  obtain rfl := Option.some.inj (Prod.mk.inj heq₁).2
  obtain rfl := Option.some.inj (Prod.mk.inj heq₂).2
  refine ⟨ukernel_addr, boot_params, _, rfl, hkept₁.append (hkept₂.append
    ((keeps_nil fun c hc => ?_).append (keeps_nil fun c hc => ?_)))⟩
  · exact not_isPages_of_isGraphics (hdraws c hc)
  · exact (hleft.calls c (List.append_nil t₄ ▸ hc)).2

/-- Every run is safe, and where the firmware obliges and the image is one member, the kernel is
entered. -/
theorem x86EfiEntry_converses :
    Converses firmware (Outcome handle systab image)
      (x86EfiEntry firmware handle systab image params fresh) := by
  refine allocatePages_allocated.bind ?_
  rintro ⟨status, boot_params⟩ t₁ hparams
  dsimp only
  by_cases h₁ : status = EFI_SUCCESS
  · rw [if_neg (not_not.mpr h₁)]
    cases hsize : ukernelSize image with
    | error fault =>
        refine .pure ⟨?_, fun data himage => ?_⟩
        · rw [List.append_nil]
          exact safe_of_fault hparams.early (.inl hsize)
        · rw [himage.size_eq] at hsize
          cases hsize
    | ok ukernel_size =>
        refine allocatePages_allocated.bind ?_
        rintro ⟨status', ukernel_addr⟩ t₂ hkernel
        dsimp only
        have hfront := hparams.early.append hkernel.early
        by_cases h₂ : status' = EFI_SUCCESS
        · rw [if_neg (not_not.mpr h₂)]
          cases hrun : decompressGzip ukernel_size ukernel_size image with
          | error fault =>
              refine .pure ⟨?_, fun data himage => ?_⟩
              · rw [List.append_nil]
                exact safe_of_fault hfront (.inr ⟨_, hsize, hrun⟩)
              · obtain rfl := himage.size_of_ok hsize
                rw [himage.unpacks] at hrun
                cases hrun
          | ok ukernel =>
              dsimp only
              by_cases h₃ : ukernel.result = 0
              · rw [if_neg (not_not.mpr h₃)]
                refine Converses.bind (draws_setupGraphics _) ?_
                rintro ⟨shown, screen_info⟩ t₃ hdraws
                dsimp only
                refine exitBootServices_leftBehind.bind ?_
                rintro ⟨status'', memmap⟩ t₄ hleft
                dsimp only
                have hscreen := hfront.append (early_of_isGraphics hdraws)
                by_cases h₄ : status'' = EFI_SUCCESS
                · rw [if_neg (not_not.mpr h₄)]
                  obtain ⟨addr, rfl, hdvd⟩ := hkernel.aligned (k := 22) (by decide) (by decide) h₂
                  obtain ⟨page, rfl, hpage⟩ :=
                    hparams.of_zero.aligned (k := 12) (by decide) (by decide) h₁
                  obtain ⟨result, dest_len, dest⟩ := ukernel
                  obtain rfl : result = 0 := h₃
                  refine .pure ⟨?_, fun data himage h => ?_⟩
                  · rw [List.append_nil, ← List.append_assoc, ← List.append_assoc]
                    exact safe_of_enter hscreen hleft h₄ hdvd hpage hsize hrun
                  · obtain rfl : status = EFI_SUCCESS := h₁
                    obtain rfl : status' = EFI_SUCCESS := h₂
                    exact enters_of_granted himage h hparams hkernel hdraws hleft hsize hrun
                · rw [if_pos h₄]
                  refine converses_efiExit fun a => ⟨?_, fun data himage h => ?_⟩
                  · rw [← List.append_assoc, ← List.append_assoc, ← List.append_assoc]
                    refine safe_of_exit (hscreen.quiet_append hleft.quiet)
                      (List.forall_mem_append.mpr ⟨fun c hc => (hscreen c hc).2,
                        fun c hc => (hleft.calls c hc).1⟩) h₄
                  · exact absurd (hleft.granted h.right.right.right.left) h₄
              · rw [if_pos h₃]
                refine converses_efiExit fun a => ⟨?_, fun data himage => ?_⟩
                · rw [← List.append_assoc]
                  exact safe_of_exit hfront.quiet (fun c hc => (hfront c hc).2) (by decide)
                · obtain rfl := himage.size_of_ok hsize
                  rw [himage.unpacks] at hrun
                  obtain rfl := Except.ok.inj hrun
                  exact absurd rfl h₃
        · rw [if_pos h₂]
          refine converses_efiExit fun a => ⟨?_, fun data himage h => ?_⟩
          · rw [← List.append_assoc]
            exact safe_of_exit hfront.quiet (fun c hc => (hfront c hc).2) h₂
          · obtain rfl := himage.size_of_ok hsize
            obtain ⟨addr, heq, -⟩ := hkernel.keeps_kernel himage h.right.left.grants
            exact absurd (Prod.mk.inj heq).1 h₂
  · rw [if_pos h₁]
    refine converses_efiExit fun a => ⟨?_, fun data himage h => ?_⟩
    · exact safe_of_exit hparams.early.quiet (fun c hc => (hparams.early c hc).2) h₁
    · obtain ⟨addr, heq, -⟩ := hparams.keeps_params h.left.grants
      exact absurd (Prod.mk.inj heq).1 h₁

theorem x86EfiEntry_outcome (firmware : Firmware) (handle : ℕ) (systab : SystemTable)
    (image : List UInt8) (params : BootParams) (fresh : Memmap) : Outcome handle systab image
    ((x86EfiEntry firmware handle systab image params fresh).run []).1
    ((x86EfiEntry firmware handle systab image params fresh).run []).2 := by
  have hconverses : Converses firmware (Outcome handle systab image)
      (x86EfiEntry firmware handle systab image params fresh) := x86EfiEntry_converses
  obtain ⟨t, hrun, -, h⟩ := hconverses []
  rw [hrun]
  exact h

end Entry

/-- Whatever the firmware answers and whatever the image holds, the entry ends safely. -/
theorem x86EfiEntry_safe (firmware : Firmware) (handle : ℕ) (systab : SystemTable)
    (image : List UInt8) (params : BootParams) (fresh : Memmap) : Safe handle systab image
    ((x86EfiEntry firmware handle systab image params fresh).run []).1
    ((x86EfiEntry firmware handle systab image params fresh).run []).2 :=
  (x86EfiEntry_outcome firmware handle systab image params fresh).1

/-- Where the firmware obliges, the kernel of every image that is one member is entered. -/
theorem x86EfiEntry_enters {firmware : Firmware} {handle : ℕ} {systab : SystemTable}
    {image data : List UInt8} {params : BootParams} {fresh : Memmap} (himage : Packed image data)
    (h : Obliges ((x86EfiEntry firmware handle systab image params fresh).run []).2) :
    Enters data ((x86EfiEntry firmware handle systab image params fresh).run []).1
      ((x86EfiEntry firmware handle systab image params fresh).run []).2 :=
  (x86EfiEntry_outcome firmware handle systab image params fresh).2 data himage h

/-- A firmware without a screen. -/
def plainAnswers : Firmware := fun n =>
  let answer (status addr : ℕ) : Answer :=
    ⟨⟨status, ⟨96, 48, 1, 7, []⟩, addr⟩, [], ⟨0, 0, ⟨0, 0, 0, 0⟩, 0, 0⟩, ⟨0, 0, 0, 0⟩⟩
  match n with
  | 0 => answer EFI_SUCCESS 0x5000
  | 1 => answer EFI_SUCCESS 0x800000
  | 3 => answer EFI_NOT_FOUND 0
  | 4 => answer EFI_BUFFER_TOO_SMALL 0
  | 5 => answer EFI_SUCCESS 0x9000
  | _ => answer EFI_SUCCESS 0

def plainSystem : SystemTable := ⟨0x7000, [⟨ACPI_20_TABLE_GUID, 0xe0000⟩]⟩

def plainParams : BootParams := ⟨1, 1, 1, ⟨1, 1, 1, 1, 1⟩, 1, ⟨1, 1, 1⟩, 1⟩

theorem x86EfiEntry_enters_plain : Enters [0x41]
    ((x86EfiEntry plainAnswers 3 plainSystem Boot.storedByte plainParams ⟨0, 0, 0, 0, []⟩).run []).1
    ((x86EfiEntry plainAnswers 3 plainSystem Boot.storedByte plainParams
      ⟨0, 0, 0, 0, []⟩).run []).2 := by
  have hcalls : ((x86EfiEntry plainAnswers 3 plainSystem Boot.storedByte plainParams
      ⟨0, 0, 0, 0, []⟩).run []).2 =
      [(.allocate_pages EFI_LOADER_DATA 1, plainAnswers 0),
        (.allocate_pages EFI_LOADER_CODE 1535, plainAnswers 1),
        (.free_pages 0xa00000 1023, plainAnswers 2),
        (.locate_handle_buffer EFI_GRAPHICS_OUTPUT_PROTOCOL_GUID, plainAnswers 3),
        (.boot (.get_memory_map 0), plainAnswers 4),
        (.boot (.allocate_pool Boot.EFI_LOADER_DATA 512), plainAnswers 5),
        (.boot (.get_memory_map 480), plainAnswers 6),
        (.boot (.exit_boot_services 3 7), plainAnswers 7)] := by
    decide +kernel
  refine x86EfiEntry_enters ⟨Boot.member_storedByte, by decide, by decide⟩ ?_
  rw [hcalls]
  refine ⟨?_, by decide⟩
  simp only [List.forall_mem_cons]
  exact ⟨⟨rfl, by decide, by decide⟩, ⟨rfl, by decide, by decide⟩, trivial, trivial,
    ⟨rfl, by decide, by decide⟩, rfl, rfl, .inl rfl, nofun⟩

end Cyanea.Efi
