import BorealOS.Interrupts.IRQRouting
import BorealOS.Interrupts.RedirectionTable
import BorealOS.Memory.AddressMap

/-! The I/O APICs of the machine. `IOAPICManager::Initialize` maps a page for each of
their entries in the table and reaches the device through it, so what the device is
told depends on where the page leads. The owner of an interrupt is the first I/O APIC
that has it. -/
namespace BorealOS.Interrupts

/-- Every entry that the device reports is masked and otherwise zero. -/
def IOAPICDevice.Masked (device : IOAPICDevice) : Prop := ∀ i < device.reportedEntries,
  RedirectionEntry.decode (device.registers (entryRegister i)) (device.registers (entryRegister i + 1#8)) = some .quiet

namespace IOAPIC

variable {device : IOAPICDevice} {gsiBase : BitVec 32} {n : Nat} {ioApic : IOAPIC} {entries : Nat → Option RedirectionEntry}

theorem Drives.reportedEntries (drives : Drives device.registers gsiBase n ioApic entries) :
    ioApic.device.reportedEntries = device.reportedEntries := by
  rw [IOAPICDevice.reportedEntries,drives.shows.kept 1#8 (Or.inl (by decide))]
  rfl

theorem Drives.masked (drives : Drives device.registers gsiBase device.reportedEntries ioApic fun _ => some .quiet) :
    ioApic.device.Masked := by
  intro i inside
  rw [drives.reportedEntries] at inside
  exact drives.shows.shown i inside .quiet rfl

end IOAPIC

namespace IOAPICManager

open ByteObject Firmware.ACPI Memory Memory.Paging

def maxIOAPICs : Nat := 16

inductive Halt where
  | fault (fault : Fault)
  | panic (panic : Panic)
  | pageFault
deriving DecidableEq, Repr

section Halts
variable {α β : Type}

def orFault : Except Fault α → Except Halt α
  | .ok value => .ok value
  | .error fault => .error (.fault fault)

def orPanic : Except Panic α → Except Halt α
  | .ok value => .ok value
  | .error panic => .error (.panic panic)

theorem orFault_ok {result : Except Fault α} {value : α} : orFault result = .ok value ↔ result = .ok value := by
  cases result <;> simp [orFault]

theorem orPanic_ok {result : Except Panic α} {value : α} : orPanic result = .ok value ↔ result = .ok value := by
  cases result <;> simp [orPanic]

theorem halt_bind_ok {first : Except Halt α} {next : α → Except Halt β} {result : β} :
    (first >>= next) = .ok result ↔ ∃ value, first = .ok value ∧ next value = .ok result := by
  cases first with
  | ok value => simp [bind,Except.bind]
  | error halt => simp [bind,Except.bind]

end Halts

/-! The fields of a `MADTIOAPIC` at an offset of the table. -/

def doubleWord (madt : MADT) (offset : Nat) : Except Fault (BitVec 32) := do
  let low := (← madt.read (offset + 1)).toBitVec ++ (← madt.read offset).toBitVec
  let high := (← madt.read (offset + 3)).toBitVec ++ (← madt.read (offset + 2)).toBitVec
  return high ++ low

def ioApicId (madt : MADT) (entry : Nat) : Except Fault (BitVec 8) := do return (← madt.read (entry + 2)).toBitVec

def ioApicAddress (madt : MADT) (entry : Nat) : Except Fault (BitVec 32) := doubleWord madt (entry + 4)

def globalSystemInterruptBase (madt : MADT) (entry : Nat) : Except Fault (BitVec 32) := doubleWord madt (entry + 8)

/-- A member of `_ioApic` with its `_mmioBase`. One that no entry was found for is as it was
constructed, with no interrupts. -/
abbrev Slot := Option (Word × IOAPIC)

/-- The tables, the devices by their physical addresses, and the members of `_ioApic` so far. -/
structure Setup where
  machine : Machine
  devices : Nat → IOAPICDevice
  slots : List Slot

def windowFlags : Word := Flag.union [.present,.readWrite,.cacheDisable]

def findWindow (rounds : Nat) (kernelState : State) (machine : Machine) : Except Halt Word :=
  match findAvailableVirtualAddressRangeKernel rounds machine kernelState 1 with
  | none => .error (.fault .endlessLoop)
  | some (.error panic) => .error (.panic panic)
  | some (.ok range) => .ok range.start

def mapWindow (pageState : State) (ioApicMmio physicalAddress : Word) (machine : Machine) : Except Halt Machine :=
  match mapPage pageState ioApicMmio physicalAddress windowFlags machine with
  | .ok _ machine => .ok machine
  | .error panic _ => .error (.panic panic)

/-- The device behind a window is the one that the processor's translation leads to. -/
def deviceAddress (pageState : State) (ioApicMmio : Word) (machine : Machine) : Except Halt Nat :=
  match machine.translate pageState ioApicMmio with
  | some (physicalAddress,_) => .ok physicalAddress
  | none => .error .pageFault

/-- The loop body of `Initialize` for a header that was found. -/
def setUp (rounds : Nat) (kernelState pageState : State) (madt : MADT) (setup : Setup) (entry : Nat) :
    Except Halt Setup := do
  let ioApicMmio ← findWindow rounds kernelState setup.machine
  let machine ← mapWindow pageState ioApicMmio ((← orFault (ioApicAddress madt entry)).setWidth 64) setup.machine
  let gsiBase ← orFault (globalSystemInterruptBase madt entry)
  let id ← orFault (ioApicId madt entry)
  let device ← deviceAddress pageState ioApicMmio machine
  let ioApic ← orPanic (IOAPIC.initializeAt (setup.devices device) ioApicMmio gsiBase id)
  return ⟨machine,Function.update setup.devices device ioApic.device,setup.slots ++ [some (ioApicMmio,ioApic)]⟩

/-- The loop over the I/O APICs. A walk of the table has at most `rounds` steps, and a
search for a free page at most `searchRounds`. -/
def ioApicLoop (rounds searchRounds : Nat) (kernelState pageState : State) (madt : MADT) :
    (remaining i : Nat) → Setup → Except Halt Setup
  | 0, _, setup => return setup
  | remaining + 1, i, setup => do
    match ← orFault (findMADTEntry rounds madt .ioAPIC i) with
    | none =>
      ioApicLoop rounds searchRounds kernelState pageState madt remaining (i + 1) { setup with slots := setup.slots ++ [none] }
    | some entry =>
      let setup ← setUp searchRounds kernelState pageState madt setup entry
      ioApicLoop rounds searchRounds kernelState pageState madt remaining (i + 1) setup

/-- The part of `Initialize` that fills `_ioApic`. -/
def setUpIOAPICs (rounds searchRounds : Nat) (kernelState pageState : State) (madt : MADT) (machine : Machine)
    (devices : Nat → IOAPICDevice) : Except Halt Setup := do
  let ioApicCount ← orFault (findMADTEntryCount rounds madt .ioAPIC)
  let ioApicCount := if maxIOAPICs < ioApicCount then maxIOAPICs else ioApicCount
  ioApicLoop rounds searchRounds kernelState pageState madt ioApicCount 0 ⟨machine,devices,[]⟩

/-- The index of the I/O APIC in `_ioApic`. -/
def getOwningApic (slots : List Slot) (gsi : BitVec 32) : Option Nat :=
  slots.findIdx? fun slot => slot.any fun member => member.2.hasGSI gsi

/-! The same fields of an entry of the list. -/

def doubleWordOf (entry : Entry) (i : Nat) : BitVec 32 :=
  let byte (i : Nat) := (entry.body.getD i 0).toBitVec
  (byte (i + 3) ++ byte (i + 2)) ++ (byte (i + 1) ++ byte i)

def addressOf (entry : Entry) : BitVec 32 := doubleWordOf entry 2

def gsiBaseOf (entry : Entry) : BitVec 32 := doubleWordOf entry 6

def IsIOAPIC (entry : Entry) : Prop := entry.type = MADTEntryType.ioAPIC.value

instance : DecidablePred IsIOAPIC := fun entry => inferInstanceAs (Decidable (entry.type = _))

def sizeofMADTIOAPIC : Nat := 2 + 1 + 1 + 4 + 4

def ioApicEntries (entries : List Entry) : List Entry := (entries.filter IsIOAPIC).take maxIOAPICs

def windows (slots : List Slot) : List Word := slots.filterMap fun slot => slot.map Prod.fst

theorem findAvailableFrom_inside {machine : Machine} {state : State} {stop : Word} (room : stop.toNat + 4096 ≤ 2^64)
    {rounds : Nat} {current : Word} {range : AvailableVirtualAddressRange}
    (ok : findAvailableFrom machine state stop 1 rounds current 0 = some (.ok range)) : current.toNat ≤ range.start.toNat := by
  induction rounds generalizing current with
  | zero => cases ok
  | succ rounds ih =>
    rw [findAvailableFrom] at ok
    by_cases inside : current < stop
    · rw [if_pos inside] at ok
      by_cases free : (!isMapped machine state current) = true
      · rw [if_pos free] at ok
        cases ok
        simp
      · rw [if_neg free] at ok
        have below := BitVec.lt_def.mp inside
        have next := ih ok
        rw [BitVec.toNat_add,Architecture.pageSize_toNat] at next
        omega
    · rw [if_neg inside] at ok
      cases ok

theorem findWindow_upper {rounds : Nat} {kernelState : State} {machine : Machine} {window : Word}
    (ok : findWindow rounds kernelState machine = .ok window) : 0xFFFFFFFF80000000 ≤ window.toNat := by
  rw [findWindow] at ok
  cases found : findAvailableVirtualAddressRangeKernel rounds machine kernelState 1 with
  | none =>
    rw [found] at ok
    cases ok
  | some result =>
    cases result with
    | error panic =>
      rw [found] at ok
      cases ok
    | ok range =>
      rw [found] at ok
      cases ok
      exact findAvailableFrom_inside (by decide) found

abbrev windowRequest (window : Word) (address : BitVec 32) : Request :=
  .map window (address.setWidth 64) [.present,.readWrite,.cacheDisable]

theorem mapWindow_ok {pageState : State} {window : Word} {address : BitVec 32} {machine final : Machine}
    (ok : mapWindow pageState window (address.setWidth 64) machine = .ok final) :
    (windowRequest window address).perform pageState machine = .ok () final := by
  rw [mapWindow] at ok
  change mapPage pageState window (address.setWidth 64) windowFlags machine = _
  cases mapped : mapPage pageState window (address.setWidth 64) windowFlags machine with
  | ok _ after =>
    rw [mapped] at ok
    cases ok
    rfl
  | error panic after =>
    rw [mapped] at ok
    cases ok

section Fields
variable {madt : MADT} {place : Nat × Entry} (stands : (madt.image.drop place.1).take place.2.size = place.2.bytes)
include stands

theorem doubleWord_entry (i : Nat) (inside : i + 3 < place.2.body.length) :
    doubleWord madt (place.1 + (i + 2)) = .ok (doubleWordOf place.2 i) := by
  have field := read_body stands
  have first := field i (by omega)
  have second := field (i + 1) (by omega)
  have third := field (i + 2) (by omega)
  have fourth := field (i + 3) (by omega)
  have shift : ∀ k, place.1 + (i + 2) + k = place.1 + (i + k + 2) := by
    intro k
    omega
  rw [doubleWord,shift,shift,shift,first,second,third,fourth]
  rfl

end Fields

/-- The window of an entry leads to its device, all of whose interrupts are masked. -/
structure Serves (pageState : State) (setup : Setup) (entry : Entry) (window : Word) (ioApic : IOAPIC) : Prop where
  upper : 0xFFFFFFFF80000000 ≤ window.toNat
  aligned : window.toNat % 4096 = 0 ∧ (addressOf entry).toNat % 4096 = 0
  mapped : setup.machine.leafEntry pageState window = some (leafWord ((addressOf entry).setWidth 64) windowFlags)
  base : ioApic.gsiBase = gsiBaseOf entry
  size : ioApic.maxRedirectionEntries.toNat = (setup.devices (addressOf entry).toNat).reportedEntries
  masked : (setup.devices (addressOf entry).toNat).Masked

/-- What has become of the tables and devices when the I/O APICs of these entries are set up. -/
structure SetUp (machine : Machine) (devices : Nat → IOAPICDevice) (pageState : State) (apics : List Entry) (setup : Setup) :
    Prop where
  regular : setup.machine.Regular pageState
  serves : List.Forall₂ (fun entry slot => ∃ window ioApic, slot = some (window,ioApic) ∧
    Serves pageState setup entry window ioApic) apics setup.slots
  fresh : ∀ window ∈ windows setup.slots, machine.leafEntry pageState window = none
  distinct : ((windows setup.slots).map pageOf).Nodup
  others : ∀ vaddr, pageOf vaddr ∉ (windows setup.slots).map pageOf →
    setup.machine.leafEntry pageState vaddr = machine.leafEntry pageState vaddr
  reported : ∀ address, (setup.devices address).reportedEntries = (devices address).reportedEntries
  untouched : ∀ address, (∀ entry ∈ apics, (addressOf entry).toNat ≠ address) → setup.devices address = devices address

theorem translate_window {machine : Machine} {pageState : State} (flat : machine.Flat pageState) {window : Word}
    {address : BitVec 32} (windowAligned : window.toNat % 4096 = 0) (aligned : address.toNat % 4096 = 0)
    (mapped : machine.leafEntry pageState window = some (leafWord (address.setWidth 64) windowFlags)) :
    (machine.translate pageState window).map Prod.fst = some address.toNat := by
  have bound := address.isLt
  have wide : (address.setWidth 64).toNat = address.toNat := BitVec.toNat_setWidth_of_le (by decide)
  have pointer : leafWord (address.setWidth 64) windowFlags &&& pointerMask = address.setWidth 64 :=
    leafWord_and_pointerMask (by omega) (by omega) (union_apart _)
  rw [Machine.translate,(flat.smooth window).walk_eq,mapped]
  simp only [Option.map_some,Hardware.Leaf.address,Hardware.Leaf.size,pointer,wide,Option.some.injEq]
  omega

/-- What a call of `MapPage` for a window has done when it returns. -/
theorem windowRequest_ok {machine final : Machine} {pageState : State} (regular : machine.Regular pageState) {window : Word}
    {address : BitVec 32} (ok : (windowRequest window address).perform pageState machine = .ok () final) :
    (window.toNat % 4096 = 0 ∧ address.toNat % 4096 = 0) ∧ machine.leafEntry pageState window = none ∧
    (∀ other, final.leafEntry pageState other = if pageOf other = pageOf window
      then some (leafWord (address.setWidth 64) windowFlags) else machine.leafEntry pageState other) ∧
    final.Regular pageState ∧ (final.translate pageState window).map Prod.fst = some address.toNat := by
  have smooth := regular.flat.smooth window
  obtain ⟨windowAligned,aligned,_⟩ := mapPage_ok regular.wellFormed smooth ok
  obtain ⟨free,leaves⟩ := Machine.leafEntry_mapPage regular.wellFormed smooth ok
  have wide : (address.setWidth 64).toNat = address.toNat := BitVec.toNat_setWidth_of_le (by decide)
  rw [wide] at aligned
  have next := regular.edited ((windowRequest window address).edited regular.wellFormed smooth ok)
  have leaf := leaves window
  rw [if_pos rfl] at leaf
  exact ⟨⟨windowAligned,aligned⟩,free,leaves,next,translate_window next.flat windowAligned aligned leaf⟩

theorem deviceAddress_window {machine : Machine} {pageState : State} {window : Word} {address device : Nat}
    (translated : (machine.translate pageState window).map Prod.fst = some address)
    (leads : deviceAddress pageState window machine = .ok device) : device = address := by
  rw [deviceAddress] at leads
  cases reached : machine.translate pageState window with
  | none =>
    rw [reached] at leads
    cases leads
  | some place =>
    rw [reached] at leads translated
    cases leads
    cases translated
    rfl

section Related
variable {α β : Type} {R : α → β → Prop} {first : List α} {second : List β}

theorem exists_of_related (related : List.Forall₂ R first second) {b : β} (member : b ∈ second) : ∃ a, R a b := by
  induction related with
  | nil => cases member
  | cons here _ ih =>
    rcases List.mem_cons.mp member with rfl | later
    · exact ⟨_,here⟩
    · exact ih later

theorem related_concat (related : List.Forall₂ R first second) {a : α} {b : β} (last : R a b) :
    List.Forall₂ R (first ++ [a]) (second ++ [b]) :=
  List.rel_append related (.cons last .nil)

theorem findIdx_of_related (related : List.Forall₂ R first second) {p : α → Bool} {q : β → Bool}
    (agree : ∀ a ∈ first, ∀ b, R a b → p a = q b) : second.findIdx? q = first.findIdx? p := by
  induction related with
  | nil => rfl
  | @cons a b first second here _ ih =>
    rw [List.findIdx?_cons,List.findIdx?_cons,agree a List.mem_cons_self b here,
      ih fun other member => agree other (List.mem_cons_of_mem _ member)]

end Related

section Pages
variable {pageState : State} {setup : Setup} {entry : Entry} {window : Word} {ioApic : IOAPIC}

theorem windows_concat (slots : List Slot) (window : Word) (ioApic : IOAPIC) :
    windows (slots ++ [some (window,ioApic)]) = windows slots ++ [window] := by
  rw [windows,List.filterMap_append]
  rfl

theorem Serves.keep {after : Setup} (serves : Serves pageState setup entry window ioApic)
    (leaf : after.machine.leafEntry pageState window = setup.machine.leafEntry pageState window)
    (reported : (after.devices (addressOf entry).toNat).reportedEntries =
      (setup.devices (addressOf entry).toNat).reportedEntries)
    (masked : (after.devices (addressOf entry).toNat).Masked) : Serves pageState after entry window ioApic :=
  ⟨serves.upper,serves.aligned,leaf.trans serves.mapped,serves.base,serves.size.trans reported.symm,masked⟩

/-- A window is mapped, so it is not a page that is free. -/
theorem Serves.page_ne (serves : Serves pageState setup entry window ioApic) {page : Word}
    (free : setup.machine.leafEntry pageState page = none) : pageOf window ≠ pageOf page := by
  intro same
  have mapped := serves.mapped
  rw [Machine.leafEntry_congr same,free] at mapped
  cases mapped

theorem SetUp.page_elsewhere {machine : Machine} {devices : Nat → IOAPICDevice} {apics : List Entry}
    (so : SetUp machine devices pageState apics setup) {page : Word} (free : setup.machine.leafEntry pageState page = none) :
    pageOf page ∉ (windows setup.slots).map pageOf := by
  intro inside
  obtain ⟨earlier,member,same⟩ := List.mem_map.mp inside
  obtain ⟨slot,slotMember,shown⟩ := List.mem_filterMap.mp member
  obtain ⟨entry,_,_,rfl,serves⟩ := exists_of_related so.serves slotMember
  cases shown
  exact serves.page_ne free same

end Pages

section SettingUp
variable {rounds : Nat} {kernelState pageState : State} {madt : MADT} {setup after : Setup} {place : Nat × Entry}
  (stands : (madt.image.drop place.1).take place.2.size = place.2.bytes) (long : sizeofMADTIOAPIC ≤ place.2.size)
include stands long

/-- What a round of the loop has done when it returns. -/
theorem setUp_ok (regular : setup.machine.Regular pageState)
    (few : (setup.devices (addressOf place.2).toNat).reportedEntries ≤ 120)
    (ok : setUp rounds kernelState pageState madt setup place.1 = .ok after) :
    ∃ window machine ioApic, 0xFFFFFFFF80000000 ≤ window.toNat ∧
      (windowRequest window (addressOf place.2)).perform pageState setup.machine = .ok () machine ∧
      (IOAPIC.Drives (setup.devices (addressOf place.2).toNat).registers (gsiBaseOf place.2)
        (setup.devices (addressOf place.2).toNat).reportedEntries ioApic fun _ => some .quiet) ∧
      after = ⟨machine,Function.update setup.devices (addressOf place.2).toNat ioApic.device,
        setup.slots ++ [some (window,ioApic)]⟩ := by
  have size : 10 ≤ place.2.body.length := by
    unfold sizeofMADTIOAPIC Entry.size at long
    omega
  rw [setUp] at ok
  obtain ⟨window,found,ok⟩ := halt_bind_ok.mp ok
  obtain ⟨address,read,ok⟩ := halt_bind_ok.mp ok
  have addressRead : ioApicAddress madt place.1 = .ok (addressOf place.2) := doubleWord_entry stands 2 (by omega)
  have baseRead : globalSystemInterruptBase madt place.1 = .ok (gsiBaseOf place.2) := doubleWord_entry stands 6 (by omega)
  rw [orFault_ok,addressRead] at read
  cases read
  obtain ⟨machine,mapped,ok⟩ := halt_bind_ok.mp ok
  obtain ⟨gsiBase,read,ok⟩ := halt_bind_ok.mp ok
  rw [orFault_ok,baseRead] at read
  cases read
  obtain ⟨id,_,ok⟩ := halt_bind_ok.mp ok
  obtain ⟨device,leads,ok⟩ := halt_bind_ok.mp ok
  obtain ⟨ioApic,made,ok⟩ := halt_bind_ok.mp ok
  cases ok
  have performed := mapWindow_ok mapped
  obtain ⟨_,_,_,_,translated⟩ := windowRequest_ok regular performed
  cases deviceAddress_window translated leads
  have upper := findWindow_upper found
  have nonzero : window ≠ 0#64 := by
    rintro rfl
    simp at upper
  obtain ⟨other,same,drives⟩ := IOAPIC.initializeAt_drives nonzero (gsiBaseOf place.2) id few
  have made := (orPanic_ok.mp made).symm.trans same
  cases made
  exact ⟨window,machine,ioApic,upper,performed,drives,rfl⟩

/-- Setting up one more I/O APIC changes no window before it. -/
theorem SetUp.step {machine : Machine} {devices : Nat → IOAPICDevice} {apics : List Entry}
    (so : SetUp machine devices pageState apics setup) (few : (devices (addressOf place.2).toNat).reportedEntries ≤ 120)
    (ok : setUp rounds kernelState pageState madt setup place.1 = .ok after) :
    SetUp machine devices pageState (apics ++ [place.2]) after := by
  rw [← so.reported] at few
  obtain ⟨window,next,ioApic,upper,performed,drives,rfl⟩ := setUp_ok stands long so.regular few ok
  obtain ⟨aligned,free,leaves,regular,_⟩ := windowRequest_ok so.regular performed
  have elsewhere := so.page_elsewhere free
  have reports : ∀ address, (Function.update setup.devices (addressOf place.2).toNat ioApic.device address).reportedEntries =
      (setup.devices address).reportedEntries := by
    intro address
    rw [Function.update_apply]
    split
    · rename_i same
      rw [drives.reportedEntries,same]
    · rfl
  refine ⟨regular,?_,?_,?_,?_,?_,?_⟩
  · refine related_concat ?_ ⟨window,ioApic,rfl,?_⟩
    · refine so.serves.imp ?_
      rintro entry _ ⟨earlier,member,rfl,serves⟩
      refine ⟨earlier,member,rfl,serves.keep ?_ (reports (addressOf entry).toNat) ?_⟩
      · exact (leaves earlier).trans (if_neg (serves.page_ne free))
      · dsimp only
        rw [Function.update_apply]
        split
        · exact drives.masked
        · exact serves.masked
    · refine ⟨upper,aligned,(leaves window).trans (if_pos rfl),drives.base,?_,?_⟩
      · rw [drives.size,reports]
      · dsimp only
        rw [Function.update_self]
        exact drives.masked
  · intro other member
    rw [windows_concat] at member
    rcases List.mem_append.mp member with earlier | last
    · exact so.fresh other earlier
    · rw [List.mem_singleton.mp last,← so.others window elsewhere,free]
  · rw [windows_concat,List.map_append]
    refine List.nodup_append.mpr ⟨so.distinct,List.nodup_singleton _,?_⟩
    rintro _ inside _ last rfl
    rw [List.map_singleton,List.mem_singleton] at last
    exact elsewhere (last ▸ inside)
  · intro vaddr outside
    rw [windows_concat,List.map_append,List.mem_append,not_or,List.map_singleton,List.mem_singleton] at outside
    rw [leaves,if_neg outside.2,so.others vaddr outside.1]
  · intro address
    rw [reports,so.reported]
  · intro address other
    have before := so.untouched address fun entry member => other entry (List.mem_append_left _ member)
    dsimp only
    rw [Function.update_of_ne (other place.2 (by simp)).symm,before]

end SettingUp

section Loop
variable {rounds searchRounds : Nat} {kernelState pageState : State} {madt : MADT} {machine : Machine}
  {devices : Nat → IOAPICDevice}

theorem ioApicLoop_setUp {places : List (Nat × Entry)}
    (found : ∀ index, findMADTEntry rounds madt .ioAPIC index = .ok (places[index]?.map Prod.fst))
    (stand : ∀ place ∈ places, (madt.image.drop place.1).take place.2.size = place.2.bytes)
    (long : ∀ place ∈ places, sizeofMADTIOAPIC ≤ place.2.size)
    (few : ∀ place ∈ places, (devices (addressOf place.2).toNat).reportedEntries ≤ 120) (remaining i : Nat)
    {setup final : Setup} (whole : i + remaining ≤ places.length)
    (so : SetUp machine devices pageState ((places.take i).map Prod.snd) setup)
    (ok : ioApicLoop rounds searchRounds kernelState pageState madt remaining i setup = .ok final) :
    SetUp machine devices pageState ((places.take (i + remaining)).map Prod.snd) final := by
  induction remaining generalizing i setup with
  | zero =>
    cases ok
    exact so
  | succ remaining ih =>
    have inside : i < places.length := by omega
    have member := List.getElem_mem inside
    obtain ⟨entry,searched,rest⟩ := halt_bind_ok.mp ok
    rw [orFault_ok,found,List.getElem?_eq_getElem inside] at searched
    cases searched
    obtain ⟨next,made,rest⟩ := halt_bind_ok.mp rest
    have step := so.step (stand _ member) (long _ member) (few _ member) made
    rw [← List.map_singleton (f := Prod.snd),← List.map_append,List.take_append_getElem inside] at step
    have later := ih (i + 1) (by omega) step rest
    rwa [Nat.add_right_comm] at later

theorem SetUp.initial (regular : machine.Regular pageState) (devices : Nat → IOAPICDevice) :
    SetUp machine devices pageState [] ⟨machine,devices,[]⟩ where
  regular := regular
  serves := .nil
  fresh := fun _ inside => absurd inside List.not_mem_nil
  distinct := List.nodup_nil
  others := fun _ _ => rfl
  reported := fun _ => rfl
  untouched := fun _ _ => rfl

theorem mem_placed {entries : List Entry} {place : Nat × Entry} (member : place ∈ placedOf .ioAPIC sizeofMADT entries) :
    place.2 ∈ entries ∧ IsIOAPIC place.2 := by
  have inside := List.mem_map_of_mem (f := Prod.snd) member
  rw [map_snd_placedOf] at inside
  obtain ⟨known,right⟩ := List.mem_filter.mp inside
  exact ⟨known,of_decide_eq_true right⟩

theorem limit_eq (ioApicCount : Nat) :
    (if maxIOAPICs < ioApicCount then maxIOAPICs else ioApicCount) = min maxIOAPICs ioApicCount := by
  split <;> omega

theorem ioApicEntries_eq (entries : List Entry) : ioApicEntries entries =
    ((placedOf .ioAPIC sizeofMADT entries).take (min maxIOAPICs (placedOf .ioAPIC sizeofMADT entries).length)).map Prod.snd := by
  rw [← List.take_eq_take_min,List.map_take,map_snd_placedOf]
  rfl

theorem setUpIOAPICs_setUp {entries : List Entry} (holds : madt.Holds entries) (enough : entries.length < rounds)
    (long : ∀ entry ∈ entries, IsIOAPIC entry → sizeofMADTIOAPIC ≤ entry.size)
    (few : ∀ entry ∈ entries, IsIOAPIC entry → (devices (addressOf entry).toNat).reportedEntries ≤ 120)
    (regular : machine.Regular pageState) {setup : Setup}
    (ok : setUpIOAPICs rounds searchRounds kernelState pageState madt machine devices = .ok setup) :
    SetUp machine devices pageState (ioApicEntries entries) setup := by
  rw [setUpIOAPICs] at ok
  obtain ⟨count,counted,ok⟩ := halt_bind_ok.mp ok
  rw [orFault_ok,findMADTEntryCount_holds _ holds enough] at counted
  cases counted
  dsimp only at ok
  rw [limit_eq] at ok
  have made := ioApicLoop_setUp (findMADTEntry_holds _ holds enough) (fun place => bytes_placedOf _ holds)
    (fun place member => long _ (mem_placed member).1 (mem_placed member).2)
    (fun place member => few _ (mem_placed member).1 (mem_placed member).2) _ 0 (by omega) (.initial regular devices) ok
  rwa [Nat.zero_add,← ioApicEntries_eq] at made

end Loop

/-- Every entry, up to the limit, has a page of its own that leads to its device, and the
device has all its interrupts masked. No other page and no other device has changed. The
owner of an interrupt is the first entry that has it. -/
theorem io_apics_set_up (madt : MADT) (entries : List Entry) (holds : madt.Holds entries) (rounds searchRounds : Nat)
    (enough : entries.length < rounds) (kernelState pageState : State) (machine : Machine) (devices : Nat → IOAPICDevice)
    (long : ∀ entry ∈ entries, IsIOAPIC entry → sizeofMADTIOAPIC ≤ entry.size)
    (few : ∀ entry ∈ entries, IsIOAPIC entry → (devices (addressOf entry).toNat).reportedEntries ≤ 120)
    (regular : machine.Regular pageState) (setup : Setup)
    (ok : setUpIOAPICs rounds searchRounds kernelState pageState madt machine devices = .ok setup) :
    let apics := ioApicEntries entries
    setup.slots.length = apics.length ∧
    (∀ (i : Nat) entry, apics[i]? = some entry → ∃ window ioApic, setup.slots[i]? = some (some (window,ioApic)) ∧
      0xFFFFFFFF80000000 ≤ window.toNat ∧ machine.leafEntry pageState window = none ∧
      setup.machine.walk pageState window = some ⟨1,leafWord ((addressOf entry).setWidth 64) windowFlags⟩ ∧
      (setup.machine.translate pageState window).map Prod.fst = some (addressOf entry).toNat ∧
      (setup.devices (addressOf entry).toNat).reportedEntries = (devices (addressOf entry).toNat).reportedEntries ∧
      (setup.devices (addressOf entry).toNat).Masked) ∧
    ((windows setup.slots).map pageOf).Nodup ∧
    (∀ vaddr, pageOf vaddr ∉ (windows setup.slots).map pageOf →
      setup.machine.leafEntry pageState vaddr = machine.leafEntry pageState vaddr) ∧
    (∀ address, (∀ entry ∈ apics, (addressOf entry).toNat ≠ address) → setup.devices address = devices address) ∧
    ((∀ entry ∈ apics, (gsiBaseOf entry).toNat + (devices (addressOf entry).toNat).reportedEntries < 2^32) →
      ∀ gsi, getOwningApic setup.slots gsi = apics.findIdx? fun entry => (gsiBaseOf entry).toNat ≤ gsi.toNat ∧
        gsi.toNat < (gsiBaseOf entry).toNat + (devices (addressOf entry).toNat).reportedEntries) := by
  intro apics
  have so := setUpIOAPICs_setUp holds enough long few regular ok
  refine ⟨so.serves.length_eq.symm,?_,so.distinct,so.others,so.untouched,?_⟩
  · intro i entry listed
    obtain ⟨inside,rfl⟩ := List.getElem?_eq_some_iff.mp listed
    have inSlots := inside
    rw [so.serves.length_eq] at inSlots
    obtain ⟨window,ioApic,slot,serves⟩ := so.serves.get inside inSlots
    have member : window ∈ windows setup.slots := List.mem_filterMap.mpr ⟨_,List.get_mem _ ⟨i,inSlots⟩,by rw [slot]; rfl⟩
    refine ⟨window,ioApic,List.getElem?_eq_some_iff.mpr ⟨inSlots,slot⟩,serves.upper,so.fresh window member,?_,
      translate_window so.regular.flat serves.aligned.1 serves.aligned.2 serves.mapped,so.reported _,serves.masked⟩
    rw [(so.regular.flat.smooth window).walk_eq,serves.mapped]
    rfl
  · intro fits gsi
    apply findIdx_of_related so.serves
    rintro entry member _ ⟨window,ioApic,rfl,serves⟩
    have size := serves.size.trans (so.reported _)
    have owned : ioApic.hasGSI gsi = true ↔ _ := IOAPIC.hasGSI_iff (by rw [serves.base,size]; exact fits entry member) gsi
    rw [serves.base,size] at owned
    rw [Option.any_some,Bool.eq_iff_iff,owned,decide_eq_true_iff]

/-- One I/O APIC with 24 interrupts from 0 on, whose registers are at the physical address
`0xFEC00000`. -/
theorem io_apics_set_up_single : ∃ setup window ioApic,
    setUpIOAPICs 4 1 topAtFrameOne topAtFrameOne overrideTable emptyMachine (fun _ => IOAPIC.twentyFourEntries) = .ok setup ∧
    setup.slots[0]? = some (some (window,ioApic)) ∧
    (setup.machine.translate topAtFrameOne window).map Prod.fst = some 0xFEC00000 ∧
    getOwningApic setup.slots 9 = some 0 ∧ getOwningApic setup.slots 24 = none := by
  have holds : overrideTable.Holds overrideEntries := by decide
  have returns : (setUpIOAPICs 4 1 topAtFrameOne topAtFrameOne overrideTable emptyMachine
      fun _ => IOAPIC.twentyFourEntries).toBool = true := by decide +kernel
  cases made : setUpIOAPICs 4 1 topAtFrameOne topAtFrameOne overrideTable emptyMachine (fun _ => IOAPIC.twentyFourEntries) with
  | error halt =>
    rw [made] at returns
    cases returns
  | ok setup =>
    obtain ⟨_,members,_,_,_,owners⟩ := io_apics_set_up overrideTable overrideEntries holds 4 1 (by decide) topAtFrameOne
      topAtFrameOne emptyMachine (fun _ => IOAPIC.twentyFourEntries) (by decide) (by decide) emptyMachine_regular setup made
    obtain ⟨window,ioApic,slot,_,_,_,leads,_⟩ := members 0 _ rfl
    have owner := owners (by decide)
    exact ⟨setup,window,ioApic,rfl,slot,leads,(owner 9).trans (by decide),(owner 24).trans (by decide)⟩

end IOAPICManager

end BorealOS.Interrupts
