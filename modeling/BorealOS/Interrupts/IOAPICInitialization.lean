import BorealOS.Interrupts.IOAPICManager
import BorealOS.Memory.VirtualRanges

/-! When `IOAPICManager::Initialize` returns. It needs page-aligned addresses in the table,
a free page for each window and frames for the tables on the way to it. -/
namespace BorealOS

open Memory Memory.Paging Memory.Machine

theorem Memory.Machine.Descended.card_freeFrames {machine reached : Machine} {state : State} {path : List (Fin 512)}
    (down : Descended state machine path reached) :
    machine.pmm.freeFrames.card ≤ reached.pmm.freeFrames.card + path.length := by
  induction down with
  | start => simp
  | existing _ _ ih =>
    rw [List.length_append]
    omega
  | @link path reached index table fresh _ _ _ _ free _ ih =>
    have one := Finset.card_erase_add_one free
    rw [freeFrames_linked,List.length_append,List.length_singleton]
    omega

theorem Memory.Paging.card_mapPage {machine final : Machine} {state : State} (wf : machine.WellFormed state)
    {vaddr physicalAddress flags : Word} (smooth : machine.Smooth state vaddr)
    (ok : mapPage state vaddr physicalAddress flags machine = .ok () final) :
    machine.pmm.freeFrames.card ≤ final.pmm.freeFrames.card + 3 := by
  obtain ⟨_,_,reached,table,down,_,_,rfl⟩ := mapPage_ok wf smooth ok
  exact down.card_freeFrames

end BorealOS

namespace BorealOS.Interrupts.IOAPICManager

open ByteObject Firmware.ACPI Memory Memory.Paging

def upperStart : Word := 0xFFFFFFFF80000000

def upperStop : Word := 0xFFFFFFFFFFFFF000

def searchRounds : Nat := pagesBelow upperStart upperStop + 1

/-- The free pages among those that `FindAvailableVirtualAddressRangeKernel` looks at. -/
def freePages (machine : Machine) (state : State) : Finset Nat :=
  (Finset.range (pagesBelow upperStart upperStop)).filter fun k => machine.leafEntry state (cursor upperStart k) = none

theorem pageOf_cursor {first second : Nat} (firstInside : first < pagesBelow upperStart upperStop)
    (secondInside : second < pagesBelow upperStart upperStop)
    (same : pageOf (cursor upperStart first) = pageOf (cursor upperStart second)) : first = second := by
  have low : upperStart.toNat = 0xFFFFFFFF80000000 := by decide
  have high : upperStop.toNat = 0xFFFFFFFFFFFFF000 := by decide
  have a := cursor_toNat_of_le (Nat.le_of_lt firstInside)
  have b := cursor_toNat_of_le (Nat.le_of_lt secondInside)
  unfold pagesBelow at firstInside secondInside
  have half : upperStop.toNat ≤ 2^47 ∨ 2^64 - 2^47 ≤ upperStart.toNat := Or.inr (by decide)
  have equal := pageOf_inj_of_half half (by omega) (by omega) (by omega) (by omega) same
  have numbers := congrArg BitVec.toNat equal
  omega

section Progress
variable {state : State} {setup : Setup} {machine : Machine} {devices : Nat → IOAPICDevice} {apics : List Entry}

/-- Fewer windows than free pages leave one of them free. -/
theorem SetUp.exists_free (so : SetUp machine devices state apics setup)
    (room : (windows setup.slots).length < (freePages machine state).card) :
    ∃ k < pagesBelow upperStart upperStop, setup.machine.leafEntry state (cursor upperStart k) = none := by
  have injective : Set.InjOn (fun k => pageOf (cursor upperStart k)) (freePages machine state : Set Nat) := by
    intro first inside second within same
    have a := Finset.mem_range.mp (Finset.mem_filter.mp inside).1
    have b := Finset.mem_range.mp (Finset.mem_filter.mp within).1
    exact pageOf_cursor a b same
  have more : ((windows setup.slots).map pageOf).toFinset.card <
      ((freePages machine state).image fun k => pageOf (cursor upperStart k)).card := by
    rw [Finset.card_image_of_injOn injective]
    refine Nat.lt_of_le_of_lt (List.toFinset_card_le _) ?_
    rwa [List.length_map]
  obtain ⟨page,inside,outside⟩ := Finset.exists_mem_notMem_of_card_lt_card more
  obtain ⟨k,member,rfl⟩ := Finset.mem_image.mp inside
  obtain ⟨bound,free⟩ := Finset.mem_filter.mp member
  refine ⟨k,Finset.mem_range.mp bound,?_⟩
  rw [so.others _ (fun listed => outside (List.mem_toFinset.mpr listed))]
  exact free

theorem length_windows {slots : List Slot} (related : List.Forall₂ (fun entry slot => ∃ window ioApic,
    slot = some (window,ioApic) ∧ Serves state setup entry window ioApic) apics slots) : (windows slots).length = apics.length := by
  induction related with
  | nil => rfl
  | cons here _ ih =>
    obtain ⟨window,ioApic,rfl,_⟩ := here
    rw [List.length_cons,← ih]
    rfl

theorem findWindow_returns (flat : machine.Flat state) (nonzero : NoZeroFrame machine state)
    (free : ∃ k < pagesBelow upperStart upperStop, machine.leafEntry state (cursor upperStart k) = none) :
    ∃ window, findWindow searchRounds state machine = .ok window ∧ window.toNat % 4096 = 0 ∧
      machine.leafEntry state window = none := by
  have startAligned : upperStart.toNat % 4096 = 0 := by decide
  have stopAligned : upperStop.toNat % 4096 = 0 := by decide
  have positive : 0 < (1 : Word).toNat := by decide
  rcases findAvailableVirtualAddressRange_outcome flat nonzero startAligned stopAligned positive with
    ⟨range,found,first⟩ | ⟨_,none⟩
  · refine ⟨range.start,?_,?_,?_⟩
    · rw [findWindow,show findAvailableVirtualAddressRangeKernel searchRounds machine state 1 = _ from found]
    · obtain ⟨k,place⟩ := first.fits.aligned
      rw [place]
      omega
    · have page := first.fits.free 0 positive
      simpa using page
  · obtain ⟨k,inside,free⟩ := free
    refine absurd ((fitsAt_iff flat nonzero startAligned stopAligned positive k).mpr ⟨?_,?_⟩) (none _)
    · exact inside
    · intro place low high
      have here : place = k := by
        have one : (1 : Word).toNat = 1 := by decide
        omega
      rw [here]
      exact (unmapped_iff flat nonzero upperStart k).mpr free

section Rounds
variable {madt : MADT} {place : Nat × Entry}
  (stands : (madt.image.drop place.1).take place.2.size = place.2.bytes) (long : sizeofMADTIOAPIC ≤ place.2.size)
include stands long

theorem setUp_returns (regular : setup.machine.Regular state) (nonzero : NoZeroFrame setup.machine state)
    (free : ∃ k < pagesBelow upperStart upperStop, setup.machine.leafEntry state (cursor upperStart k) = none)
    (few : (setup.devices (addressOf place.2).toNat).reportedEntries ≤ 120) (aligned : (addressOf place.2).toNat % 4096 = 0)
    (frames : 3 ≤ setup.machine.pmm.freeFrames.card) :
    ∃ after, setUp searchRounds state state madt setup place.1 = .ok after := by
  have size : 10 ≤ place.2.body.length := by
    unfold sizeofMADTIOAPIC Entry.size at long
    omega
  have addressRead : ioApicAddress madt place.1 = .ok (addressOf place.2) := doubleWord_entry stands 2 (by omega)
  have baseRead : globalSystemInterruptBase madt place.1 = .ok (gsiBaseOf place.2) := doubleWord_entry stands 6 (by omega)
  have idRead : ioApicId madt place.1 = .ok (place.2.body.getD 0 0).toBitVec := by
    rw [ioApicId,read_body stands 0 (by omega)]
    rfl
  obtain ⟨window,found,windowAligned,unmapped⟩ := findWindow_returns regular.flat nonzero free
  have wide : ((addressOf place.2).setWidth 64).toNat = (addressOf place.2).toNat := BitVec.toNat_setWidth_of_le (by decide)
  have returns := regular.maps windowFlags windowAligned (wide.symm ▸ aligned) unmapped frames
  obtain ⟨_,next,mapped⟩ := (Execution.not_stops_iff _).mp returns
  have mapping : mapWindow state window ((addressOf place.2).setWidth 64) setup.machine = .ok next := by
    rw [mapWindow,mapped]
  obtain ⟨_,_,_,_,translated⟩ := windowRequest_ok regular (mapWindow_ok mapping)
  have leads : deviceAddress state window next = .ok (addressOf place.2).toNat := by
    rw [deviceAddress]
    obtain ⟨reached,there,same⟩ := Option.map_eq_some_iff.mp translated
    rw [there,← same]
  have upper := findWindow_upper found
  have nonnull : window ≠ 0#64 := by
    rintro rfl
    simp at upper
  obtain ⟨ioApic,made,_⟩ := IOAPIC.initializeAt_drives nonnull (gsiBaseOf place.2) (place.2.body.getD 0 0).toBitVec few
  refine ⟨⟨next,Function.update setup.devices (addressOf place.2).toNat ioApic.device,
    setup.slots ++ [some (window,ioApic)]⟩,?_⟩
  rw [setUp]
  refine halt_bind_ok.mpr ⟨window,found,halt_bind_ok.mpr ⟨_,orFault_ok.mpr addressRead,halt_bind_ok.mpr ⟨next,mapping,?_⟩⟩⟩
  refine halt_bind_ok.mpr ⟨_,orFault_ok.mpr baseRead,halt_bind_ok.mpr ⟨_,orFault_ok.mpr idRead,?_⟩⟩
  exact halt_bind_ok.mpr ⟨_,leads,halt_bind_ok.mpr ⟨ioApic,orPanic_ok.mpr made,rfl⟩⟩

end Rounds

theorem noZeroFrame_window {final : Machine} (regular : machine.Regular state) (nonzero : NoZeroFrame machine state)
    {window : Word} {address : BitVec 32} (set : address ≠ 0#32)
    (ok : (windowRequest window address).perform state machine = .ok () final) : NoZeroFrame final state := by
  obtain ⟨⟨_,aligned⟩,_,leaves,_,_⟩ := windowRequest_ok regular ok
  have bound := address.isLt
  have wide : (address.setWidth 64).toNat = address.toNat := BitVec.toNat_setWidth_of_le (by decide)
  intro vaddr entry found
  rw [leaves] at found
  split at found
  · cases found
    rw [windowFlags,leafWord_and_pointerMask (by omega) (by omega) (union_apart _)]
    intro zero
    apply set
    have numbers := congrArg BitVec.toNat zero
    rw [wide] at numbers
    exact BitVec.eq_of_toNat_eq numbers
  · exact nonzero vaddr entry found

theorem ioApicLoop_returns {rounds : Nat} {madt : MADT} {places : List (Nat × Entry)}
    (found : ∀ index, findMADTEntry rounds madt .ioAPIC index = .ok (places[index]?.map Prod.fst))
    (stand : ∀ place ∈ places, (madt.image.drop place.1).take place.2.size = place.2.bytes)
    (long : ∀ place ∈ places, sizeofMADTIOAPIC ≤ place.2.size)
    (few : ∀ place ∈ places, (devices (addressOf place.2).toNat).reportedEntries ≤ 120)
    (aligned : ∀ place ∈ places, (addressOf place.2).toNat % 4096 = 0 ∧ addressOf place.2 ≠ 0#32) (remaining i : Nat)
    (whole : i + remaining ≤ places.length) (so : SetUp machine devices state ((places.take i).map Prod.snd) setup)
    (nonzero : NoZeroFrame setup.machine state) (room : i + remaining ≤ (freePages machine state).card)
    (frames : 3 * remaining ≤ setup.machine.pmm.freeFrames.card) :
    ∃ final, ioApicLoop rounds searchRounds state state madt remaining i setup = .ok final := by
  induction remaining generalizing i setup with
  | zero => exact ⟨setup,rfl⟩
  | succ remaining ih =>
    have inside : i < places.length := by omega
    have member := List.getElem_mem inside
    have count : (windows setup.slots).length = i := by
      rw [length_windows so.serves,List.length_map,List.length_take_of_le (by omega)]
    have limit := few _ member
    rw [← so.reported] at limit
    obtain ⟨after,made⟩ := setUp_returns (stand _ member) (long _ member) so.regular nonzero (so.exists_free (by omega))
      limit (aligned _ member).1 (by omega)
    have step := so.step (stand _ member) (long _ member) (few _ member) made
    rw [← List.map_singleton (f := Prod.snd),← List.map_append,List.take_append_getElem inside] at step
    obtain ⟨window,next,ioApic,_,performed,_,rfl⟩ := setUp_ok (stand _ member) (long _ member) so.regular limit made
    have used := card_mapPage so.regular.wellFormed (so.regular.flat.smooth window) performed
    have visible := noZeroFrame_window so.regular nonzero (aligned _ member).2 performed
    obtain ⟨final,rest⟩ := ih (i + 1) (by omega) step visible (by omega) (by dsimp only; omega)
    refine ⟨final,halt_bind_ok.mpr ⟨_,orFault_ok.mpr (found i),?_⟩⟩
    rw [List.getElem?_eq_getElem inside]
    exact halt_bind_ok.mpr ⟨_,made,rest⟩

end Progress

/-- `Initialize` returns when the addresses in the table are page-aligned and not 0, and there
are a free page and three free frames for each I/O APIC. -/
theorem io_apics_return (madt : MADT) (entries : List Entry) (holds : madt.Holds entries) (rounds : Nat)
    (enough : entries.length < rounds) (state : State) (machine : Machine) (devices : Nat → IOAPICDevice)
    (long : ∀ entry ∈ entries, IsIOAPIC entry → sizeofMADTIOAPIC ≤ entry.size)
    (few : ∀ entry ∈ entries, IsIOAPIC entry → (devices (addressOf entry).toNat).reportedEntries ≤ 120)
    (aligned : ∀ entry ∈ entries, IsIOAPIC entry → (addressOf entry).toNat % 4096 = 0 ∧ addressOf entry ≠ 0#32)
    (regular : machine.Regular state) (nonzero : NoZeroFrame machine state)
    (room : (ioApicEntries entries).length ≤ (freePages machine state).card)
    (frames : 3 * (ioApicEntries entries).length ≤ machine.pmm.freeFrames.card) :
    ∃ setup, setUpIOAPICs rounds searchRounds state state madt machine devices = .ok setup := by
  rw [ioApicEntries_eq,List.length_map,List.length_take_of_le (Nat.min_le_right _ _)] at room frames
  obtain ⟨setup,loop⟩ := ioApicLoop_returns (findMADTEntry_holds _ holds enough) (fun place => bytes_placedOf _ holds)
    (fun place member => long _ (mem_placed member).1 (mem_placed member).2)
    (fun place member => few _ (mem_placed member).1 (mem_placed member).2)
    (fun place member => aligned _ (mem_placed member).1 (mem_placed member).2) _ 0 (by omega) (.initial regular devices)
    nonzero (by omega) frames
  refine ⟨setup,halt_bind_ok.mpr ⟨_,orFault_ok.mpr (findMADTEntryCount_holds _ holds enough),?_⟩⟩
  dsimp only
  rw [limit_eq]
  exact loop

theorem io_apics_return_single : ∃ setup, setUpIOAPICs 4 searchRounds topAtFrameOne topAtFrameOne overrideTable emptyMachine
    (fun _ => IOAPIC.twentyFourEntries) = .ok setup := by
  have nonzero : NoZeroFrame emptyMachine topAtFrameOne := by
    intro vaddr entry found
    rw [emptyMachine_leafEntry] at found
    cases found
  have room : 0 < (freePages emptyMachine topAtFrameOne).card := by
    refine Finset.card_pos.mpr ⟨0,Finset.mem_filter.mpr ⟨Finset.mem_range.mpr (by decide),emptyMachine_leafEntry _⟩⟩
  exact io_apics_return overrideTable overrideEntries (by decide) 4 (by decide) topAtFrameOne emptyMachine _ (by decide)
    (by decide) (by decide) emptyMachine_regular nonzero room (by decide)

end BorealOS.Interrupts.IOAPICManager
