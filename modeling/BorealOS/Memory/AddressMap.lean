import BorealOS.Memory.AllocatorRuns
import BorealOS.Memory.SoftwareWalk
import BorealOS.Memory.Unmapping

/-! Paging as a finite map from pages to physical addresses and flags. Each call
changes the leaf of one page and no other, so a run of calls is the same run of
insertions and deletions on the map. -/
namespace BorealOS.Memory

open Execution Paging

namespace Machine

variable {machine reached : Machine} {state : State} {path : List (Fin 512)} {vaddr : Word}

/-- What the paging code relies on: the manager holds every table, no entry above
the tables of pages is huge, and frame 0 is reserved. -/
structure Regular (machine : Machine) (state : State) : Prop where
  wellFormed : machine.WellFormed state
  owned : machine.Owned state
  flat : machine.Flat state
  zeroReserved : machine.pmm.reserved 0 = true

theorem Regular.zero_not_free (regular : machine.Regular state) : 0 ∉ machine.pmm.freeFrames := by
  intro free
  have unreserved := ((machine.pmm.mem_freeFrames 0).mp free).2.1
  rw [regular.zeroReserved] at unreserved
  cases unreserved

theorem Regular.edited (regular : machine.Regular state) (edited : Edited state machine reached) :
    reached.Regular state where
  wellFormed := Edited.wellFormed regular.wellFormed edited
  owned := Edited.preserves regular.wellFormed (fun _ _ wf edit => edit.owned wf) edited regular.owned
  flat := Edited.preserves regular.wellFormed (fun _ _ wf edit => edit.flat wf) edited regular.flat
  zeroReserved := by
    have same := Edited.reservedBitmap edited
    rw [PhysicalMemoryManager.reserved,same]
    exact regular.zeroReserved

/-- `MapPage` takes three frames at most. -/
theorem Regular.maps (regular : machine.Regular state) {physicalAddress : Word} (flags : Word)
    (virtual : vaddr.toNat % 4096 = 0) (physical : physicalAddress.toNat % 4096 = 0)
    (unmapped : machine.leafEntry state vaddr = none) (room : 3 ≤ machine.pmm.freeFrames.card) :
    ¬ Stops (mapPage state vaddr physicalAddress flags machine) := by
  rw [mapPage_stops_iff regular.wellFormed (regular.flat.smooth vaddr) regular.zero_not_free]
  have few := machine.missing_le state [] (directoryPath vaddr)
  have length : (directoryPath vaddr).length = 3 := rfl
  rintro (odd | odd | mapped | full)
  · exact odd virtual
  · exact odd physical
  · rw [unmapped] at mapped
    cases mapped
  · omega

theorem leafEntry_withEntry (wf : machine.WellFormed state) {table : Nat}
    (here : machine.tables state (directoryPath vaddr) = some table) (entry other : Word) :
    (machine.withEntry table (tableIndex vaddr 12) entry).leafEntry state other =
      if pageOf other = pageOf vaddr then (some entry).filter present else machine.leafEntry state other := by
  rw [leafEntry,entryAt_withEntry wf here rfl]
  by_cases same : pageOf other = pageOf vaddr
  · rw [if_pos same,if_pos ((path_eq_iff other vaddr).mpr same)]
  · rw [if_neg same,if_neg (fun both => same ((path_eq_iff other vaddr).mp both))]
    rfl

/-- Freeing tables changes no leaf: they are empty when they are freed. -/
theorem Pruned.leafEntry (wf : machine.WellFormed state) (pruned : Pruned state machine vaddr path reached)
    (other : Word) : reached.leafEntry state other =
      if pageOf other = pageOf vaddr then none else machine.leafEntry state other := by
  induction pruned with
  | start here _ =>
    rw [leafEntry_withEntry wf here]
    rfl
  | @unlink path reached index table address pruned here below empty held lower ih =>
    have kept := Edited.wellFormed wf pruned.edited
    have short : path.length < 3 := by
      have := pruned.onPath.length_le
      simp [directoryPath] at this
      omega
    rw [← ih,Machine.leafEntry,Machine.leafEntry,entryAt_unlinked kept here below empty]
    have shorter : ¬ (directoryPath other = path ∧ tableIndex other 12 = index) := by
      rintro ⟨same,_⟩
      simp [← same,directoryPath] at short
    rw [if_neg shorter]
    split
    · rename_i gone
      rw [gone,entryAt_of_table below]
      simp [Option.filter,empty]
    · rfl

theorem leafEntry_mapPage {final : Machine} (wf : machine.WellFormed state) (smooth : machine.Smooth state vaddr)
    {physicalAddress flags : Word} (ok : mapPage state vaddr physicalAddress flags machine = .ok () final) :
    machine.leafEntry state vaddr = none ∧ ∀ other, final.leafEntry state other =
      if pageOf other = pageOf vaddr then some (leafWord physicalAddress flags) else machine.leafEntry state other := by
  obtain ⟨_,_,reached,table,down,here,unset,rfl⟩ := mapPage_ok wf smooth ok
  constructor
  · rw [← down.leafEntry wf,leafEntry,entryAt_of_table here]
    simp [Option.filter,unset]
  · intro other
    rw [leafEntry_withEntry (Edited.wellFormed wf down.edited) here,down.leafEntry wf,
      Option.filter_eq_some_iff.mpr ⟨rfl,present_leafWord physicalAddress flags⟩]

theorem leafEntry_unmapPage {final : Machine} (wf : machine.WellFormed state) (smooth : machine.Smooth state vaddr)
    (ok : unmapPage state vaddr machine = .ok () final) (other : Word) :
    final.leafEntry state other = if pageOf other = pageOf vaddr then none else machine.leafEntry state other := by
  obtain ⟨path,pruned,_⟩ := unmapPage_ok wf smooth ok
  exact pruned.leafEntry wf other

theorem leafEntry_congr {first second : Word} (same : pageOf first = pageOf second) :
    machine.leafEntry state first = machine.leafEntry state second := by
  obtain ⟨path,index⟩ := (path_eq_iff first second).mpr same
  rw [leafEntry,leafEntry,path,index]

end Machine

def Request.Bounded : Request → Prop
  | .map _ physicalAddress _ => physicalAddress.toNat < 2^52
  | .unmap _ => True

/-- A physical address and flags for some of the pages, which are numbered by
bits 12 to 47 of their addresses. -/
abbrev PageMap := BitVec 36 → Option (Word × Word)

namespace PageMap

def apply (pages : PageMap) : Request → PageMap
  | .map virtualAddress physicalAddress flags =>
    Function.update pages (pageOf virtualAddress) (some (physicalAddress,Flag.union flags))
  | .unmap virtualAddress => Function.update pages (pageOf virtualAddress) none

def lookup (pages : PageMap) (vaddr : Word) : Nat :=
  match pages (pageOf vaddr) with
  | some (physicalAddress,_) => physicalAddress.toNat + vaddr.toNat % 4096
  | none => 0

end PageMap

def Paging.pageAddress (page : BitVec 36) : Word := page.setWidth 64 <<< 12

theorem Paging.pageOf_pageAddress (page : BitVec 36) : pageOf (pageAddress page) = page := by
  apply BitVec.eq_of_toNat_eq
  have small := page.isLt
  rw [pageOf_toNat,pageAddress,BitVec.toNat_shiftLeft,BitVec.toNat_setWidth,Nat.shiftLeft_eq]
  omega

namespace Machine

variable {machine final : Machine} {state : State} {pages : PageMap}

def pageMap (machine : Machine) (state : State) : PageMap := fun page =>
  (machine.leafEntry state (pageAddress page)).map fun entry => (entry &&& pointerMask,entry &&& flagsMask)

/-- A hierarchy has a present leaf for each page of the map, with the address and
flags of the map, and no other present leaf. -/
structure Represents (machine : Machine) (state : State) (pages : PageMap) : Prop where
  leaves : ∀ vaddr, machine.leafEntry state vaddr =
    (pages (pageOf vaddr)).map fun mapping => leafWord mapping.1 mapping.2
  pointers : ∀ page physicalAddress flags, pages page = some (physicalAddress,flags) →
    leafWord physicalAddress flags &&& pointerMask = physicalAddress

private theorem leafWord_of_present {entry : Word} (set : present entry = true) :
    leafWord (entry &&& pointerMask) (entry &&& flagsMask) = entry := by
  rw [present_eq] at set
  apply BitVec.eq_of_getLsbD_eq
  intro i inside
  have masks : pointerMask.getLsbD i = !flagsMask.getLsbD i := by
    revert i
    decide
  have one : Flag.present.bit.getLsbD i = decide (i = 0) := by
    revert i
    decide
  simp only [leafWord,BitVec.getLsbD_or,BitVec.getLsbD_and,masks,one]
  by_cases low : i = 0
  · subst low
    simp [set]
  · cases entry.getLsbD i <;> cases flagsMask.getLsbD i <;> simp [low]

theorem represents_pageMap (machine : Machine) (state : State) :
    machine.Represents state (machine.pageMap state) := by
  constructor
  · intro vaddr
    rw [pageMap,leafEntry_congr (pageOf_pageAddress (pageOf vaddr))]
    cases read : machine.leafEntry state vaddr with
    | none => rfl
    | some entry =>
      have set : present entry = true := (Option.filter_eq_some_iff.mp read).2
      simp [leafWord_of_present set]
  · intro page physicalAddress flags found
    obtain ⟨entry,read,same⟩ := Option.map_eq_some_iff.mp found
    have set : present entry = true := (Option.filter_eq_some_iff.mp read).2
    obtain ⟨rfl,rfl⟩ := Prod.mk.injEq _ _ _ _ ▸ same
    rw [leafWord_of_present set]

theorem Represents.getPhysicalAddress (represents : machine.Represents state pages) (flat : machine.Flat state)
    (vaddr : Word) : (getPhysicalAddress machine state vaddr).toNat = pages.lookup vaddr := by
  rw [getPhysicalAddress_eq,(flat.smooth vaddr).walk_eq,represents.leaves,PageMap.lookup]
  cases found : pages (pageOf vaddr) with
  | none => rfl
  | some mapping =>
    obtain ⟨physicalAddress,flags⟩ := mapping
    simp only [Option.map_some,Option.bind_some,Nat.sub_self,Hardware.readOn]
    rw [or_pageOffset_toNat,represents.pointers _ _ _ found]

theorem leaves_step (wf : machine.WellFormed state) (flat : machine.Flat state)
    (leaves : ∀ vaddr, machine.leafEntry state vaddr = (pages (pageOf vaddr)).map fun mapping => leafWord mapping.1 mapping.2)
    {request : Request} (ok : request.perform state machine = .ok () final) (vaddr : Word) :
    final.leafEntry state vaddr =
      (pages.apply request (pageOf vaddr)).map fun mapping => leafWord mapping.1 mapping.2 := by
  cases request with
  | map virtualAddress physicalAddress flags =>
    rw [(leafEntry_mapPage wf (flat.smooth virtualAddress) ok).2,leaves,PageMap.apply,Function.update_apply]
    split <;> rfl
  | unmap virtualAddress =>
    rw [leafEntry_unmapPage wf (flat.smooth virtualAddress) ok,leaves,PageMap.apply,Function.update_apply]
    split <;> rfl

theorem Represents.step (represents : machine.Represents state pages) (regular : machine.Regular state)
    {request : Request} (bounded : request.Bounded) (ok : request.perform state machine = .ok () final) :
    final.Represents state (pages.apply request) ∧ final.Regular state := by
  refine ⟨⟨leaves_step regular.wellFormed regular.flat represents.leaves ok,?_⟩,
    regular.edited (request.edited regular.wellFormed (regular.flat.smooth _) ok)⟩
  intro page address word found
  cases request with
  | map virtualAddress physicalAddress flags =>
    have aligned := (mapPage_ok regular.wellFormed (regular.flat.smooth virtualAddress) ok).2.1
    rw [PageMap.apply,Function.update_apply] at found
    split at found
    · cases found
      exact leafWord_and_pointerMask aligned bounded (union_apart flags)
    · exact represents.pointers page address word found
  | unmap virtualAddress =>
    rw [PageMap.apply,Function.update_apply] at found
    split at found
    · cases found
    · exact represents.pointers page address word found

theorem Represents.run (represents : machine.Represents state pages) (regular : machine.Regular state)
    {requests : List Request} (bounded : ∀ request ∈ requests, request.Bounded)
    (ok : runAll (Request.perform state) requests machine = .ok () final) :
    final.Represents state (requests.foldl PageMap.apply pages) ∧ final.Regular state := by
  induction requests generalizing machine pages with
  | nil =>
    cases ok
    exact ⟨represents,regular⟩
  | cons request requests ih =>
    obtain ⟨middle,first,rest⟩ := (runAll_cons_ok _ request requests machine final).mp ok
    obtain ⟨represents',regular'⟩ := represents.step regular (bounded request List.mem_cons_self) first
    exact ih represents' regular' (fun other member => bounded other (List.mem_cons_of_mem _ member)) rest

end Machine

/-- Paging refines a finite map. After every run of calls that return, every
address is translated as the map says, the next call panics exactly when the map
or the free frames say so, and the hierarchy is again one to start from. -/
theorem paging_refines_pageMap (machine final : Machine) (state : State) (requests : List Request)
    (regular : machine.Regular state) (bounded : ∀ request ∈ requests, request.Bounded)
    (run : runAll (Request.perform state) requests machine = .ok () final) :
    let pages := requests.foldl PageMap.apply (machine.pageMap state)
    (∀ vaddr, (getPhysicalAddress final state vaddr).toNat = pages.lookup vaddr) ∧
    (∀ vaddr, final.leafEntry state vaddr =
      (pages (pageOf vaddr)).map fun mapping => leafWord mapping.1 mapping.2) ∧
    (∀ virtualAddress physicalAddress flags,
      Stops (mapPage state virtualAddress physicalAddress (Flag.union flags) final) ↔
        virtualAddress.toNat % 4096 ≠ 0 ∨ physicalAddress.toNat % 4096 ≠ 0 ∨
        (pages (pageOf virtualAddress)).isSome ∨
        final.pmm.freeFrames.card < final.missing state [] (directoryPath virtualAddress)) ∧
    (∀ virtualAddress, Stops (unmapPage state virtualAddress final) ↔
      pages (pageOf virtualAddress) = none) ∧
    final.Regular state := by
  intro pages
  obtain ⟨represents,regular'⟩ := (machine.represents_pageMap state).run regular bounded run
  refine ⟨represents.getPhysicalAddress regular'.flat,represents.leaves,?_,?_,regular'⟩
  · intro virtualAddress physicalAddress flags
    rw [mapPage_stops_iff regular'.wellFormed (regular'.flat.smooth virtualAddress) regular'.zero_not_free,
      represents.leaves,Option.isSome_map]
  · intro virtualAddress
    rw [unmapPage_stops_iff regular'.wellFormed (regular'.flat.smooth virtualAddress) regular'.owned,
      represents.leaves,Option.map_eq_none_iff]

/-! A single top-level table without entries. -/

def emptyMachine : Machine where
  memory := fun _ _ => 0
  pmm := PhysicalMemoryManager.eightFrames.take 1 1
  freed := []

theorem emptyMachine_tables {path : List (Fin 512)} {table : Nat}
    (here : emptyMachine.tables topAtFrameOne path = some table) : path = [] ∧ table = 1 := by
  cases path with
  | nil =>
    cases here
    exact ⟨rfl,by decide⟩
  | cons index path =>
    obtain ⟨next,down,_⟩ := Option.bind_eq_some_iff.mp here
    have set : present 0#64 = true := (child_some down).1
    simp at set

theorem emptyMachine_leafEntry (vaddr : Word) : emptyMachine.leafEntry topAtFrameOne vaddr = none := by
  have nowhere : emptyMachine.tables topAtFrameOne (directoryPath vaddr) = none := by
    cases there : emptyMachine.tables topAtFrameOne (directoryPath vaddr) with
    | none => rfl
    | some table => exact absurd (emptyMachine_tables there).1 (by simp [directoryPath])
  rw [Machine.leafEntry,Machine.entryAt,nowhere]
  rfl

theorem emptyMachine_regular : emptyMachine.Regular topAtFrameOne where
  wellFormed := {
    distinct := by
      intro first second table left right
      rw [(emptyMachine_tables left).1,(emptyMachine_tables right).1]
    allocated := by
      intro path table here
      obtain ⟨_,rfl⟩ := emptyMachine_tables here
      decide
    clean := by
      intro path index entry read
      obtain ⟨table,here,rfl⟩ := Option.map_eq_some_iff.mp read
      exact Or.inl rfl
    bounded := by decide }
  owned := by
    intro path table here
    obtain ⟨_,rfl⟩ := emptyMachine_tables here
    exact ⟨by decide,by decide,by decide⟩
  flat := by
    intro path index entry _ read
    obtain ⟨table,here,rfl⟩ := Option.map_eq_some_iff.mp read
    exact (by decide : huge 0#64 = false)
  zeroReserved := by decide

/-- A page is mapped, and then the translation of an address in it is found. -/
theorem paging_refines_pageMap_onePage : ∃ final,
    runAll (Request.perform topAtFrameOne) [.map 0x400000 0x7000 [.readWrite]] emptyMachine = .ok () final ∧
    (getPhysicalAddress final topAtFrameOne 0x400123).toNat = 0x7123 ∧
    Stops (unmapPage topAtFrameOne 0x401000 final) := by
  have smooth := emptyMachine_regular.flat.smooth 0x400000
  have returns : ¬ Stops (mapPage topAtFrameOne 0x400000 0x7000 (Flag.union [.readWrite]) emptyMachine) := by
    rw [mapPage_stops_iff emptyMachine_regular.wellFormed smooth emptyMachine_regular.zero_not_free]
    decide
  obtain ⟨_,final,ok⟩ := (not_stops_iff _).mp returns
  have run : runAll (Request.perform topAtFrameOne) [.map 0x400000 0x7000 [.readWrite]] emptyMachine = .ok () final :=
    (runAll_cons_ok _ _ _ _ _).mpr ⟨final,ok,rfl⟩
  obtain ⟨translated,_,_,unmaps,_⟩ := paging_refines_pageMap emptyMachine final topAtFrameOne _ emptyMachine_regular
    (by simp [Request.Bounded]) run
  refine ⟨final,run,?_,?_⟩
  · rw [translated]
    decide
  · rw [unmaps]
    decide

end BorealOS.Memory
