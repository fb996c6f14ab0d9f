import BorealOS.Memory.AddressMap
import BorealOS.Utility.Math

/-! Which pages `IsMapped` and `MapPage` take for mapped. `MapPage` tests the Present bit
of the leaf; `IsMapped` asks for a translation that is not 0, which the page that is mapped
to address 0 has for all of its bytes but the first. -/
namespace BorealOS.Memory

open Execution Paging Machine Utility.Math

section Panics
variable {machine stopped : Machine} {state : State} {panic : Panic} {vaddr physicalAddress flags : Word}

theorem ensureTable_error {failure : Panic} {table : Word} {index : Fin 512}
    (error : ensureTable failure table index machine = .error panic stopped) : panic = failure := by
  simp only [ensureTable] at error
  rw [bind_of_ok readEntry_apply] at error
  split at error
  · obtain ⟨fresh,_,_,taken⟩ | ⟨_,taken⟩ := allocatePage_cases machine
    · rw [bind_of_ok taken] at error
      split at error
      · cases error
        rfl
      · rw [bind_of_ok clearTable_apply,bind_of_ok writeEntry_apply,bind_of_ok readEntry_apply] at error
        cases error
    · rw [bind_of_ok taken,if_pos rfl] at error
      cases error
      rfl
  · cases error

theorem descend_error {rest : List (Panic × Fin 512)} {table : Word}
    (error : descend rest table machine = .error panic stopped) : panic ∈ rest.map Prod.fst := by
  induction rest generalizing table machine with
  | nil => cases error
  | cons step rest ih =>
    rw [descend] at error
    cases made : ensureTable step.1 table step.2 machine with
    | ok next reached =>
      rw [bind_of_ok made] at error
      exact List.mem_cons_of_mem _ (ih error)
    | error other reached =>
      rw [bind_of_error made] at error
      cases error
      rw [ensureTable_error made]
      exact List.mem_cons_self

theorem mapPage_of_mapped (smooth : machine.Smooth state vaddr) (virtual : vaddr.toNat % 4096 = 0)
    (physical : physicalAddress.toNat % 4096 = 0) (mapped : machine.leafEntry state vaddr ≠ none) :
    mapPage state vaddr physicalAddress flags machine = .error .alreadyMapped machine := by
  obtain ⟨pml4,pdp,pd,pt⟩ := smooth.leafEntry_words.mp mapped
  have first : ensureTable .pdpAllocationFailed state.pml4 (tableIndex vaddr 39) machine =
      .ok (machine.pml4Word state vaddr &&& pointerMask) machine :=
    ensureTable_existing (ne_zero_of_present pml4)
  have second : ensureTable .pdAllocationFailed (machine.pml4Word state vaddr &&& pointerMask) (tableIndex vaddr 30) machine =
      .ok (machine.pdpWord state vaddr &&& pointerMask) machine :=
    ensureTable_existing (ne_zero_of_present pdp)
  have third : ensureTable .ptAllocationFailed (machine.pdpWord state vaddr &&& pointerMask) (tableIndex vaddr 21) machine =
      .ok (machine.pdWord state vaddr &&& pointerMask) machine :=
    ensureTable_existing (ne_zero_of_present pd)
  have leaf : present (machine.memory (frameNumber (machine.pdWord state vaddr &&& pointerMask)) (tableIndex vaddr 12)) =
    true := pt
  have down : descend (mapSteps vaddr) state.pml4 machine = .ok (machine.pdWord state vaddr &&& pointerMask) machine := by
    rw [mapSteps,descend,bind_of_ok first,descend,bind_of_ok second,descend,bind_of_ok third]
    rfl
  rw [mapPage_aligned state flags virtual physical,bind_of_ok down,writeLeaf_apply,leaf]
  rfl

theorem mapped_of_alreadyMapped (wf : machine.WellFormed state) (smooth : machine.Smooth state vaddr)
    (error : mapPage state vaddr physicalAddress flags machine = .error .alreadyMapped stopped) :
    machine.leafEntry state vaddr ≠ none := by
  by_cases misaligned : vaddr.toNat % 4096 ≠ 0 ∨ physicalAddress.toNat % 4096 ≠ 0
  · obtain ⟨other,failed,different⟩ := mapPage_misaligned state flags misaligned machine
    rw [failed] at error
    cases error
    exact absurd rfl different
  rw [mapPage_aligned state flags (by omega) (by omega)] at error
  -- the way down stops only where a table cannot be allocated, with panics of its own
  cases ended : descend (mapSteps vaddr) state.pml4 machine with
  | ok pt reached =>
    obtain ⟨other,last,ok,down,here,_⟩ | ⟨halted,_⟩ :=
      descend_outcome wf smooth (mapSteps vaddr) .start state.pml4 tables_nil (by simp [mapSteps_path])
    · cases ended.symm.trans ok
      rw [bind_of_ok ok,writeLeaf_apply] at error
      split at error
      · rename_i set
        rw [← down.leafEntry wf,leafEntry,entryAt_of_table here]
        simp [Option.filter,set]
      · cases error
    · simp [ended] at halted
  | error other reached =>
    rw [bind_of_error ended] at error
    cases error
    have failure := descend_error ended
    simp [mapSteps] at failure

theorem alreadyMapped_iff (wf : machine.WellFormed state) (smooth : machine.Smooth state vaddr)
    (virtual : vaddr.toNat % 4096 = 0) (physical : physicalAddress.toNat % 4096 = 0) :
    (∃ stopped, mapPage state vaddr physicalAddress flags machine = .error .alreadyMapped stopped) ↔
      machine.leafEntry state vaddr ≠ none := by
  constructor
  · rintro ⟨stopped,error⟩
    exact mapped_of_alreadyMapped wf smooth error
  · intro mapped
    exact ⟨machine,mapPage_of_mapped smooth virtual physical mapped⟩

end Panics

theorem Paging.leafWord_pointer (physicalAddress : Word) {flags : Word} (apart : flags &&& pointerMask = 0#64) :
    leafWord physicalAddress flags &&& pointerMask = physicalAddress &&& pointerMask := by
  have bit : Flag.present.bit &&& pointerMask = 0#64 := by decide
  rw [leafWord,BitVec.and_or_distrib_right,BitVec.and_or_distrib_right,apart,bit,BitVec.and_assoc,BitVec.and_self,
    BitVec.or_zero,BitVec.or_zero]

structure Machine.Tracks (machine : Machine) (state : State) (pages : PageMap) : Prop where
  wellFormed : machine.WellFormed state
  flat : machine.Flat state
  leaves : ∀ vaddr, machine.leafEntry state vaddr = (pages (pageOf vaddr)).map fun mapping => leafWord mapping.1 mapping.2
  apart : ∀ page mapping, pages page = some mapping → mapping.2 &&& pointerMask = 0#64

section Tracking
variable {machine final : Machine} {state : State} {pages : PageMap}

theorem Machine.Tracks.start (wf : machine.WellFormed state) (flat : machine.Flat state) :
    machine.Tracks state (machine.pageMap state) where
  wellFormed := wf
  flat := flat
  leaves := (machine.represents_pageMap state).leaves
  apart := by
    intro page mapping found
    obtain ⟨entry,_,same⟩ := Option.map_eq_some_iff.mp found
    have masks : flagsMask &&& pointerMask = 0#64 := by decide
    rw [← same,BitVec.and_assoc,masks,BitVec.and_zero]

theorem Machine.Tracks.step (tracks : machine.Tracks state pages) {request : Request}
    (ok : request.perform state machine = .ok () final) : final.Tracks state (pages.apply request) := by
  have edited := request.edited tracks.wellFormed (tracks.flat.smooth _) ok
  refine ⟨Edited.wellFormed tracks.wellFormed edited,?_,leaves_step tracks.wellFormed tracks.flat tracks.leaves ok,?_⟩
  · exact Edited.preserves tracks.wellFormed (fun _ _ wf edit => edit.flat wf) edited tracks.flat
  · intro page mapping found
    cases request with
    | map virtualAddress physicalAddress flags =>
      rw [PageMap.apply,Function.update_apply] at found
      split at found
      · cases found
        exact union_apart flags
      · exact tracks.apart page mapping found
    | unmap virtualAddress =>
      rw [PageMap.apply,Function.update_apply] at found
      split at found
      · cases found
      · exact tracks.apart page mapping found

theorem Machine.Tracks.run (tracks : machine.Tracks state pages) {requests : List Request}
    (ok : runAll (Request.perform state) requests machine = .ok () final) :
    final.Tracks state (requests.foldl PageMap.apply pages) := by
  induction requests generalizing machine pages with
  | nil =>
    cases ok
    exact tracks
  | cons request requests ih =>
    obtain ⟨middle,first,rest⟩ := (runAll_cons_ok _ request requests machine final).mp ok
    exact ih (tracks.step first) rest

/-- `IsMapped` misses the first byte of a page whose pointer is 0. -/
theorem isMapped_iff (flat : machine.Flat state) (vaddr : Word) :
    isMapped machine state vaddr = true ↔
      ∃ entry, machine.leafEntry state vaddr = some entry ∧ (entry &&& pointerMask ≠ 0#64 ∨ vaddr.toNat % 4096 ≠ 0) := by
  have value := getPhysicalAddress_eq machine state vaddr
  rw [(flat.smooth vaddr).walk_eq] at value
  unfold isMapped
  rw [value,bne_iff_ne]
  cases read : machine.leafEntry state vaddr with
  | none => simp
  | some entry =>
    have sum := or_pageOffset_toNat entry vaddr
    simp only [Option.map_some,Option.bind_some,Nat.sub_self,Hardware.readOn,Option.some.injEq,exists_eq_left']
    rw [ne_eq,← BitVec.toNat_inj,sum,ne_eq,← BitVec.toNat_inj]
    simp only [BitVec.toNat_ofNat,Nat.zero_mod]
    omega

theorem Machine.Tracks.isMapped_iff (tracks : machine.Tracks state pages) (vaddr : Word) :
    isMapped machine state vaddr = true ↔ ∃ physicalAddress flags, pages (pageOf vaddr) = some (physicalAddress,flags) ∧
      (physicalAddress &&& pointerMask ≠ 0#64 ∨ vaddr.toNat % 4096 ≠ 0) := by
  rw [Memory.isMapped_iff tracks.flat,tracks.leaves]
  cases found : pages (pageOf vaddr) with
  | none => simp
  | some mapping =>
    obtain ⟨physicalAddress,flags⟩ := mapping
    have pointer := leafWord_pointer physicalAddress (tracks.apart _ _ found)
    simp only [Option.map_some,Option.some.injEq,exists_eq_left',Prod.mk.injEq,pointer]
    constructor
    · intro visible
      exact ⟨physicalAddress,flags,⟨rfl,rfl⟩,visible⟩
    · rintro ⟨_,_,⟨rfl,rfl⟩,visible⟩
      exact visible

/-- What `IsMapped` is for, at an address and for a map of the pages that are mapped:
it says whether the page is in the map, says the same for the whole page, and says when
`MapPage` finds the page mapped. -/
structure MappedExactly (machine : Machine) (state : State) (pages : PageMap) (vaddr : Word) : Prop where
  mapped : isMapped machine state vaddr = true ↔ (pages (pageOf vaddr)).isSome
  wholePage : ∀ other : Word, other.toNat / 4096 = vaddr.toNat / 4096 →
    isMapped machine state other = isMapped machine state vaddr
  mapPage : ∀ physicalAddress flags : Word, physicalAddress.toNat % 4096 = 0 →
    ((∃ stopped, mapPage state (alignDown vaddr Architecture.pageSize) physicalAddress flags machine =
      .error .alreadyMapped stopped) ↔ isMapped machine state vaddr = true)

theorem pageOf_eq_of_page {first second : Word} (same : first.toNat / 4096 = second.toNat / 4096) :
    pageOf first = pageOf second := by
  apply BitVec.eq_of_toNat_eq
  rw [pageOf_toNat,pageOf_toNat,same]

theorem alignDown_samePage (vaddr : Word) :
    (alignDown vaddr Architecture.pageSize).toNat / 4096 = vaddr.toNat / 4096 := by
  rw [alignDown_page]
  omega

theorem Machine.Tracks.mappedExactly (tracks : machine.Tracks state pages) {vaddr : Word}
    (nonzero : ∀ physicalAddress flags, pages (pageOf vaddr) = some (physicalAddress,flags) →
      physicalAddress &&& pointerMask ≠ 0#64) : MappedExactly machine state pages vaddr := by
  have decides : ∀ other : Word, other.toNat / 4096 = vaddr.toNat / 4096 →
      (isMapped machine state other = true ↔ (pages (pageOf vaddr)).isSome) := by
    intro other same
    rw [tracks.isMapped_iff,pageOf_eq_of_page same,Option.isSome_iff_exists]
    constructor
    · rintro ⟨physicalAddress,flags,found,_⟩
      exact ⟨_,found⟩
    · rintro ⟨⟨physicalAddress,flags⟩,found⟩
      exact ⟨physicalAddress,flags,found,Or.inl (nonzero _ _ found)⟩
  refine ⟨decides vaddr rfl,?_,?_⟩
  · intro other same
    rw [Bool.eq_iff_iff,decides other same,decides vaddr rfl]
  · intro physicalAddress flags aligned
    have base : (alignDown vaddr Architecture.pageSize).toNat % 4096 = 0 := by
      rw [alignDown_page]
      omega
    rw [alreadyMapped_iff tracks.wellFormed (tracks.flat.smooth _) base aligned,decides vaddr rfl,tracks.leaves,
      pageOf_eq_of_page (alignDown_samePage vaddr),ne_eq,Option.map_eq_none_iff,Option.isSome_iff_ne_none]

theorem Machine.Tracks.pointer_ne_zero (tracks : machine.Tracks state pages) {vaddr : Word}
    (exactly : MappedExactly machine state pages vaddr) (physicalAddress flags : Word)
    (found : pages (pageOf vaddr) = some (physicalAddress,flags)) : physicalAddress &&& pointerMask ≠ 0#64 := by
  have same := alignDown_samePage vaddr
  have mapped : isMapped machine state (alignDown vaddr Architecture.pageSize) = true := by
    rw [exactly.wholePage _ same,exactly.mapped,found]
    rfl
  obtain ⟨other,_,again,pointer | offset⟩ := (tracks.isMapped_iff _).mp mapped
  · rw [pageOf_eq_of_page same,found] at again
    cases again
    exact pointer
  · rw [alignDown_page] at offset
    omega

/-- After every run of calls, `IsMapped` is exact at an address if and only if the page is
not mapped to physical address 0. -/
theorem isMapped_exact_iff (wf : machine.WellFormed state) (flat : machine.Flat state) {requests : List Request}
    (ok : runAll (Request.perform state) requests machine = .ok () final) (vaddr : Word) :
    let pages := requests.foldl PageMap.apply (machine.pageMap state)
    MappedExactly final state pages vaddr ↔ ∀ physicalAddress flags, pages (pageOf vaddr) = some (physicalAddress,flags) →
      physicalAddress &&& pointerMask ≠ 0#64 := by
  have tracks := (Machine.Tracks.start wf flat).run ok
  exact ⟨tracks.pointer_ne_zero,tracks.mappedExactly⟩

end Tracking

private theorem emptyMachine_maps (physicalAddress : Word) (aligned : physicalAddress.toNat % 4096 = 0) : ∃ final,
    runAll (Request.perform topAtFrameOne) [.map 0x400000 physicalAddress [.readWrite]] emptyMachine = .ok () final := by
  have smooth := emptyMachine_regular.flat.smooth 0x400000
  have returns : ¬ Stops (mapPage topAtFrameOne 0x400000 physicalAddress (Flag.union [.readWrite]) emptyMachine) := by
    rw [mapPage_stops_iff emptyMachine_regular.wellFormed smooth emptyMachine_regular.zero_not_free]
    simp only [aligned]
    decide
  obtain ⟨_,final,ok⟩ := (not_stops_iff _).mp returns
  exact ⟨final,(runAll_cons_ok _ _ _ _ _).mpr ⟨final,ok,rfl⟩⟩

theorem isMapped_exact_onePage : ∃ final,
    runAll (Request.perform topAtFrameOne) [.map 0x400000 0x7000 [.readWrite]] emptyMachine = .ok () final ∧
    MappedExactly final topAtFrameOne
      ([Request.map 0x400000 0x7000 [.readWrite]].foldl PageMap.apply (emptyMachine.pageMap topAtFrameOne)) 0x400123 := by
  obtain ⟨final,ok⟩ := emptyMachine_maps 0x7000 (by decide)
  refine ⟨final,ok,(isMapped_exact_iff emptyMachine_regular.wellFormed emptyMachine_regular.flat ok 0x400123).mpr ?_⟩
  intro physicalAddress flags found
  cases found
  decide

/-- A page that is mapped to physical address 0 is not mapped, says `IsMapped`. -/
theorem isMapped_misses_zero :
    ¬ ∀ (machine final : Machine) (state : State) (requests : List Request), machine.WellFormed state →
      machine.Flat state → runAll (Request.perform state) requests machine = .ok () final → ∀ vaddr,
      MappedExactly final state (requests.foldl PageMap.apply (machine.pageMap state)) vaddr := by
  intro always
  obtain ⟨final,ok⟩ := emptyMachine_maps 0 (by decide)
  have tracks := (Machine.Tracks.start emptyMachine_regular.wellFormed emptyMachine_regular.flat).run ok
  have exactly := always _ final _ _ emptyMachine_regular.wellFormed emptyMachine_regular.flat ok 0x400000
  exact tracks.pointer_ne_zero exactly 0 (Flag.union [.readWrite]) rfl (by decide)

end BorealOS.Memory
