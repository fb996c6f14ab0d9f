import BorealOS.Memory.BootTables
import BorealOS.Memory.KernelHalf

/-! `Paging::Initialize`. The kernel clears a top-level table of its own, copies the
boot loader's hierarchy below it, fills the upper half and loads it. Where the free
frames hold nothing at the absent entries of the loader's tables of level 3, the
kernel's hierarchy is well formed, owned and translates every address as before, so
the runs of `MapPage` and `UnmapPage` start from it. -/
namespace BorealOS.Memory

open TableTree Execution Paging

/-- The state whose top-level table stands in the page of an address, which for the
addresses that the manager hands out is the address itself. -/
def State.ofPage (address : Word) : State where
  pml4 := frameAddress (frameNumber address)
  aligned := frameAddress_aligned _

theorem State.ofPage_pml4 {address : Word} (aligned : address.toNat % 4096 = 0) : (State.ofPage address).pml4 = address := by
  apply BitVec.eq_of_toNat_eq
  simp only [State.ofPage,frameAddress,frameNumber,BitVec.toNat_mul,BitVec.toNat_ofNat,Architecture.pageSize_toNat]
  omega

/-- The kernel's own state and the tables that the processor runs on: its register CR3
and `CpuData::pageState`. -/
structure KernelPaging where
  kernelState : State
  cr3 : Word
  pageState : State

namespace Paging

def switchToPageTable (kernelState state : State) : KernelPaging := ⟨kernelState,state.pml4,state⟩

def switchToKernelPageTable (kernelState : State) : KernelPaging := switchToPageTable kernelState kernelState

def initializePaging (cr3 : Word) : KernelM KernelPaging := do
  let pml4Phys ← allocatePage
  if pml4Phys = 0 then throw .kernelPml4AllocationFailed
  clearTable pml4Phys
  let kernelState := State.ofPage pml4Phys
  copyExistingPageTableToNew kernelState cr3
  reserveHigherHalfPML4Slots kernelState
  return switchToKernelPageTable kernelState

end Paging

/-- What the boot loader leaves to `Initialize`: its tables are not free, the frames are
enough for a top-level table, for the copies and for the upper half, and the free ones
hold nothing where a table of level 3 has an absent entry. -/
structure Handover (machine : Machine) (loader : State) : Prop where
  allocated : ∀ path table, machine.tables loader path = some table → table ∉ machine.pmm.freeFrames
  zeroReserved : machine.pmm.reserved 0 = true
  bounded : machine.pmm.frameCount.toNat ≤ 2^40
  enough : tablesBelow machine.memory 4 (frameNumber loader.pml4) + 257 ≤ machine.pmm.freeFrames.card
  blank : ∀ index pdp i frame, machine.tables loader [index] = some pdp → present (machine.memory pdp i) = false →
    frame ∈ machine.pmm.freeFrames → machine.memory frame i = 0

/-! The top-level table. -/

def Machine.cleared (machine : Machine) (fresh : Nat) : Machine :=
  { machine with memory := fill machine.memory fresh 0, pmm := machine.pmm.take fresh 1 }

section Top
variable {machine : Machine} {loader : State} (handover : Handover machine loader) {fresh : Nat}
  (free : fresh ∈ machine.pmm.freeFrames)

theorem Machine.freeFrames_cleared (machine : Machine) (fresh : Nat) :
    (machine.cleared fresh).pmm.freeFrames = machine.pmm.freeFrames.erase fresh := machine.pmm.freeFrames_take_one fresh

include handover

theorem Handover.zero_not_free : 0 ∉ machine.pmm.freeFrames := by
  intro member
  have unreserved := ((machine.pmm.mem_freeFrames 0).mp member).2.1
  rw [handover.zeroReserved] at unreserved
  cases unreserved

include free

theorem Handover.small : fresh < 2^40 :=
  Nat.lt_of_lt_of_le ((machine.pmm.mem_freeFrames fresh).mp free).1 handover.bounded

theorem Handover.unused (path : List (Fin 512)) : machine.tables loader path ≠ some fresh :=
  fun here => handover.allocated path fresh here free

theorem Handover.tables : (machine.cleared fresh).tables loader = machine.tables loader :=
  funext (tableAt_fill (handover.unused free) 0)

theorem Handover.words {path : List (Fin 512)} {table : Nat} (here : machine.tables loader path = some table) (i : Fin 512) :
    (machine.cleared fresh).memory table i = machine.memory table i :=
  fill_frame machine.memory (fun same : table = fresh => handover.unused free path (same ▸ here)) i 0

theorem Handover.entryAt (path : List (Fin 512)) (index : Fin 512) :
    (machine.cleared fresh).entryAt loader path index = machine.entryAt loader path index := by
  rw [Machine.entryAt,Machine.entryAt,handover.tables free]
  cases here : machine.tables loader path with
  | none => rfl
  | some table => exact congrArg some (handover.words free here index)

theorem Handover.walk (vaddr : Word) : (machine.cleared fresh).walk loader vaddr = machine.walk loader vaddr :=
  Machine.walk_congr fun _ _ index here _ => handover.words free here index

theorem Handover.flat (flat : machine.Flat loader) : (machine.cleared fresh).Flat loader := by
  intro path index entry short read
  rw [handover.entryAt free] at read
  exact flat path index entry short read

theorem Handover.compact (compact : machine.Compact loader) : (machine.cleared fresh).Compact loader := by
  intro path table here freeable
  rw [handover.tables free] at here
  obtain ⟨index,entry,read,set⟩ := compact path table here freeable
  exact ⟨index,entry,(handover.entryAt free path index).trans read,set⟩

theorem Handover.blank_cleared (index : Fin 512) (pdp : Nat) (i : Fin 512) (frame : Nat)
    (here : (machine.cleared fresh).tables loader [index] = some pdp)
    (unset : present ((machine.cleared fresh).memory pdp i) = false)
    (member : frame ∈ (machine.cleared fresh).pmm.freeFrames) : (machine.cleared fresh).memory frame i = 0 := by
  rw [handover.tables free] at here
  rw [handover.words free here] at unset
  rw [machine.freeFrames_cleared] at member
  obtain ⟨other,member⟩ := Finset.mem_erase.mp member
  exact (fill_frame machine.memory other i 0).trans (handover.blank index pdp i frame here unset member)

theorem Handover.tablesBelow : tablesBelow (machine.cleared fresh).memory 4 (frameNumber loader.pml4) =
    tablesBelow machine.memory 4 (frameNumber loader.pml4) :=
  tablesBelow_congr (machine.tableOf_closed loader) (fun _ _ ⟨_,_,here⟩ i => handover.words free here i)
    (machine.top_tableOf loader)

theorem Handover.root : frameNumber (State.ofPage (frameAddress fresh)).pml4 = fresh := by
  rw [State.ofPage_pml4 (frameAddress_aligned fresh),frameNumber_frameAddress (handover.small free)]

theorem Handover.bootTree : BootTree (machine.cleared fresh) (State.ofPage (frameAddress fresh)) loader := by
  have root := handover.root free
  have erased := machine.freeFrames_cleared fresh
  constructor
  · intro path table here member
    rw [handover.tables free] at here
    rw [erased] at member
    exact handover.allocated path table here (Finset.mem_of_mem_erase member)
  · intro path
    rw [handover.tables free,root]
    exact handover.unused free path
  · rw [root,erased]
    exact Finset.notMem_erase fresh _
  · intro i
    rw [root]
    exact fill_here _ _ _ _
  · rw [erased]
    exact fun member => handover.zero_not_free (Finset.mem_of_mem_erase member)
  · exact handover.bounded

end Top

/-! What the allocations leave alone: the number of frames and which are reserved. -/

def SameFrames (machine after : Machine) : Prop :=
  after.pmm.frameCount = machine.pmm.frameCount ∧ after.pmm.reservedBitmap = machine.pmm.reservedBitmap

section Frames
variable {machine after : Machine}

theorem SameFrames.held {frame : Nat} (same : SameFrames machine after) (inside : frame < machine.pmm.frameCount.toNat)
    (unreserved : machine.pmm.reserved frame = false) (used : frame ∉ after.pmm.freeFrames) : after.pmm.Held frame := by
  have inside' : frame < after.pmm.frameCount.toNat := by rw [same.1]; exact inside
  have unreserved' : after.pmm.reserved frame = false := by
    rw [PhysicalMemoryManager.reserved,same.2]
    exact unreserved
  refine ⟨inside',unreserved',?_⟩
  by_contra untaken
  exact used ((after.pmm.mem_freeFrames frame).mpr ⟨inside',unreserved',by simpa using untaken⟩)

theorem allocatePage_sameFrames : Maintains (SameFrames machine) allocatePage := by
  intro before same
  rcases allocatePage_cases before with ⟨fresh,_,_,taken⟩ | ⟨_,nothing⟩
  · rw [taken]
    exact same
  · rw [nothing]
    exact same

theorem readEntry_sameFrames (table : Word) (index : Fin 512) : Maintains (SameFrames machine) (readEntry table index) :=
  fun _ same => same

theorem writeEntry_sameFrames (table : Word) (index : Fin 512) (entry : Word) :
    Maintains (SameFrames machine) (writeEntry table index entry) := fun _ same => same

theorem copyEntry_sameFrames {below : Nat} (deeper : ∀ srcPhys dstPhys,
      Maintains (SameFrames machine) (deepCopyPageTables below srcPhys dstPhys)) (srcPhys dstPhys : Word) (i : Fin 512) :
    Maintains (SameFrames machine) (copyEntry below srcPhys dstPhys i) := by
  have read := @readEntry_sameFrames machine
  have leaf : Maintains (SameFrames machine) (do writeEntry dstPhys i (← readEntry srcPhys i)) :=
    (read _ _).bind fun _ => writeEntry_sameFrames _ _ _
  have clear (table : Word) : Maintains (SameFrames machine) (clearTable table) := fun _ same => same
  refine (read _ _).bind fun _ => Maintains.ite ?_ (maintains_pure ())
  refine (read _ _).bind fun _ => Maintains.ite leaf (Maintains.ite leaf ?_)
  refine allocatePage_sameFrames.bind fun newTable => (clear newTable).bind fun _ => (read _ _).bind fun _ => ?_
  exact (writeEntry_sameFrames _ _ _).bind fun _ => (read _ _).bind fun _ => deeper _ _

theorem deepCopyPageTables_sameFrames (level : Nat) (srcPhys dstPhys : Word) :
    Maintains (SameFrames machine) (deepCopyPageTables level srcPhys dstPhys) := by
  induction level generalizing srcPhys dstPhys with
  | zero => exact maintains_pure ()
  | succ below ih =>
    rw [deepCopyPageTables_eq]
    exact maintains_runAll _ _ (copyEntry_sameFrames ih srcPhys dstPhys)

theorem copyExistingPageTableToNew_sameFrames (state : State) (cr3 : Word) :
    Maintains (SameFrames machine) (copyExistingPageTableToNew state cr3) := by
  have read := @readEntry_sameFrames machine
  rw [copyExistingPageTableToNew,forM_eq_runAll]
  apply maintains_runAll
  intro index
  refine (read _ _).bind fun _ => Maintains.ite ?_ (maintains_pure ())
  refine (read _ _).bind fun _ => allocatePage_sameFrames.bind fun dstPhys => Maintains.ite (fun _ same => same) ?_
  exact (deepCopyPageTables_sameFrames 3 _ _).bind fun _ => (read _ _).bind fun _ => writeEntry_sameFrames _ _ _

end Frames

/-! The copied hierarchy. -/

/-- The copy of an entry has its Present bit, is zero without it, and is a huge leaf
only where the entry is. -/
theorem copy_word {source store : PhysicalMemory} {own : Nat → Prop} {level : Nat} {entry copy : Word}
    (mirror : Mirror child ExactLeaf SameFlags source store own level entry copy) :
    present copy = present entry ∧ (copy = 0 ∨ present copy = true) ∧ (huge entry = false → huge copy = false) := by
  cases level with
  | zero => exact mirror.elim
  | succ level =>
    rcases mirror with ⟨_,_,exactly⟩ | ⟨next,fresh,down,copied,flags,_⟩
    · cases set : present entry with
      | true =>
        rw [show copy = entry from exactly.trans (if_pos set)]
        exact ⟨set,Or.inr set,id⟩
      | false =>
        rw [show copy = 0 from exactly.trans (if_neg (by simp [set]))]
        exact ⟨present_zero,Or.inl rfl,fun _ => by decide⟩
    · have set := (child_some copied).1
      refine ⟨set.trans (child_some down).1.symm,Or.inr set,fun flat => ?_⟩
      rw [← huge_flags,show copy &&& flagsMask = _ from flags,huge_flags]
      exact flat

section Copy
variable {machine : Machine} {state loader : State} (boot : BootTree machine state loader)
  (blank : ∀ index pdp i frame, machine.tables loader [index] = some pdp → present (machine.memory pdp i) = false →
    frame ∈ machine.pmm.freeFrames → machine.memory frame i = 0) {copied : Machine} {spare : Nat}
  (copying : Copying machine.memory (machine.TableOf loader) machine.memory machine 3 (frameNumber loader.pml4)
    (frameNumber state.pml4) spare (List.finRange 512) [] copied)
include boot blank copying

theorem copied_mirror (i : Fin 512) : Mirror child ExactLeaf SameFlags machine.memory copied.memory
    (fun frame => frame ∈ machine.pmm.freeFrames ∧ frame ∉ copied.pmm.freeFrames) 4
    (machine.memory (frameNumber loader.pml4) i) (copied.memory (frameNumber state.pml4) i) := by
  refine copying.mirror boot (fun _ _ exactly => exactly) (fun index pdp fresh j down free unset => ?_) i
  rw [blank index pdp j fresh ((machine.tables_first loader index).trans down) unset free,ExactLeaf,if_neg (by simp [unset])]
  exact ⟨present_zero,rfl⟩

theorem copied_table {path : List (Fin 512)} {table : Nat} (here : copied.tables state path = some table) :
    (path ≠ [] → table ∈ machine.pmm.freeFrames ∧ table ∉ copied.pmm.freeFrames) ∧
    ∃ found, machine.tables loader path = some found ∧ ∀ i, present (copied.memory table i) = present (machine.memory found i) ∧
      (copied.memory table i = 0 ∨ present (copied.memory table i) = true) ∧
      (huge (machine.memory found i) = false → huge (copied.memory table i) = false) := by
  obtain ⟨own,found,there,entries⟩ := Mirror.tableAt_source (copied_mirror boot blank copying) here
  exact ⟨own,found,there,fun i => copy_word (entries i)⟩

theorem copied_walk (vaddr : Word) : copied.walk state vaddr = machine.walk loader vaddr :=
  Hardware.walk_mirror vaddr (Nat.le_refl 4) fun i => (copied_mirror boot blank copying i).mono ExactLeaf.sameLeaf

theorem copied_flat (flat : machine.Flat loader) : copied.Flat state := by
  intro path index entry short read
  obtain ⟨table,here,rfl⟩ := Machine.tables_of_entryAt read
  obtain ⟨_,found,there,words⟩ := copied_table boot blank copying here
  exact (words index).2.2 (flat path index _ short (Machine.entryAt_of_table there index))

theorem copied_compact (compact : machine.Compact loader) : copied.Compact state := by
  intro path table here freeable
  obtain ⟨_,found,there,words⟩ := copied_table boot blank copying here
  obtain ⟨index,entry,read,set⟩ := compact path found there freeable
  rw [Machine.entryAt_of_table there] at read
  refine ⟨index,_,Machine.entryAt_of_table here index,?_⟩
  rw [(words index).1,Option.some.inj read,set]

variable (same : SameFrames machine copied) (inside : frameNumber state.pml4 < machine.pmm.frameCount.toNat)
  (unreserved : machine.pmm.reserved (frameNumber state.pml4) = false)
include same inside unreserved

theorem copied_owned : copied.Owned state := by
  intro path table here
  obtain ⟨own,_⟩ := copied_table boot blank copying here
  by_cases top : path = []
  · subst top
    cases here
    exact same.held inside unreserved fun free => boot.taken (copying.free free)
  · obtain ⟨free,used⟩ := own top
    obtain ⟨low,open',_⟩ := (machine.pmm.mem_freeFrames table).mp free
    exact same.held low open' used

theorem copied_wellFormed (replicated : Replicated machine.memory machine 3 (frameNumber loader.pml4)
    (frameNumber state.pml4) (List.finRange 512) copied) : copied.WellFormed state where
  distinct := by
    have below : ∀ path table, path ≠ [] → copied.tables state path = some table →
        Below child machine.memory 4 (frameNumber loader.pml4) (· ∈ List.finRange 512) path := by
      intro path table nonempty here
      obtain ⟨_,found,there,_⟩ := copied_table boot blank copying here
      cases path with
      | nil => exact absurd rfl nonempty
      | cons index path => exact ⟨List.mem_finRange index,Option.isSome_iff_exists.mpr ⟨found,there⟩⟩
    -- the root is no copy: it was not free
    have root : ∀ path table, copied.tables state path = some table → table = frameNumber state.pml4 → path = [] := by
      intro path table here top
      by_contra nonempty
      exact boot.taken (top ▸ ((copied_table boot blank copying here).1 nonempty).1)
    intro first second table left right
    by_cases top : first = []
    · subst top
      cases left
      exact (root second _ right rfl).symm
    · by_cases top' : second = []
      · subst top'
        cases right
        exact root first _ left rfl
      · exact replicated.distinct first second table (below first table top left) (below second table top' right) left right
  allocated := by
    intro path table here
    have held := copied_owned boot blank copying same inside unreserved path table here
    exact ⟨held.inside,held.taken⟩
  clean := by
    intro path index entry read
    obtain ⟨table,here,rfl⟩ := Machine.tables_of_entryAt read
    obtain ⟨_,_,_,words⟩ := copied_table boot blank copying here
    exact (words index).2.1
  bounded := copying.ready.bounded

end Copy

/-- The processor runs on the kernel's tables. They are well formed and held by the
manager, fill the upper half and translate like the boot loader's, which are as they
were; and where those have no huge leaf or no empty table, they have none either. -/
structure PagingInitialized (machine : Machine) (loader : State) (paging : KernelPaging) (final : Machine) : Prop where
  runs : paging.cr3 = paging.kernelState.pml4 ∧ paging.pageState = paging.kernelState
  wellFormed : final.WellFormed paging.kernelState
  owned : final.Owned paging.kernelState
  upper : final.UpperHalfPresent paging.kernelState
  translates : ∀ vaddr, final.translate paging.kernelState vaddr = machine.translate loader vaddr
  kept : ∀ path table, machine.tables loader path = some table → ∀ i, final.memory table i = machine.memory table i
  zeroReserved : final.pmm.reserved 0 = true
  flat : machine.Flat loader → final.Flat paging.kernelState
  compact : machine.Compact loader → final.Compact paging.kernelState

theorem initializePaging_eq {machine copied reserved : Machine} {fresh : Nat} {cr3 : Word} (small : fresh < 2^40)
    (nonzero : fresh ≠ 0)
    (taken : allocatePage machine = .ok (frameAddress fresh) { machine with pmm := machine.pmm.take fresh 1 })
    (copies : copyExistingPageTableToNew (State.ofPage (frameAddress fresh)) cr3 (machine.cleared fresh) = .ok () copied)
    (filled : reserveHigherHalfPML4Slots (State.ofPage (frameAddress fresh)) copied = .ok () reserved) :
    initializePaging cr3 machine = .ok (switchToKernelPageTable (State.ofPage (frameAddress fresh))) reserved := by
  have clear : clearTable (frameAddress fresh) { machine with pmm := machine.pmm.take fresh 1 } =
      .ok () (machine.cleared fresh) := by
    rw [clearTable_apply,frameNumber_frameAddress small]
    rfl
  simp only [initializePaging]
  rw [bind_of_ok taken,if_neg fun zero => nonzero ((frameAddress_eq_zero small).mp zero),bind_of_ok clear,
    bind_of_ok copies,bind_of_ok filled]
  rfl

section Returns
variable {machine : Machine} {loader : State} (handover : Handover machine loader)
include handover

theorem Handover.initialized {fresh spare : Nat} (free : fresh ∈ machine.pmm.freeFrames) {copied reserved : Machine}
    (copying : Copying (machine.cleared fresh).memory ((machine.cleared fresh).TableOf loader) (machine.cleared fresh).memory
      (machine.cleared fresh) 3 (frameNumber loader.pml4) (frameNumber (State.ofPage (frameAddress fresh)).pml4) spare
      (List.finRange 512) [] copied)
    (same : SameFrames (machine.cleared fresh) copied) (wf : copied.WellFormed (State.ofPage (frameAddress fresh)))
    (owned : copied.Owned (State.ofPage (frameAddress fresh)))
    (filled : reserveHigherHalfPML4Slots (State.ofPage (frameAddress fresh)) copied = .ok () reserved) :
    PagingInitialized machine loader (switchToKernelPageTable (State.ofPage (frameAddress fresh))) reserved := by
  have boot := handover.bootTree free
  have blank := handover.blank_cleared free
  have reserving := Machine.reserving_of_ok wf filled
  refine ⟨⟨rfl,rfl⟩,reserving.wellFormed,owned.reserved wf filled,reserving.upperHalf wf,?_,?_,?_,?_,?_⟩
  · intro vaddr
    change (reserved.walk (State.ofPage (frameAddress fresh)) vaddr).map _ = (machine.walk loader vaddr).map _
    rw [reserving.walks,copied_walk boot blank copying,handover.walk free]
  · intro path table here i
    have here' : (machine.cleared fresh).tables loader path = some table := by
      rw [handover.tables free]
      exact here
    have depth := Machine.length_le_of_table here
    obtain ⟨used,words⟩ := copying.ready.tables (4 - path.length) table ⟨path,by omega,here'⟩
    rw [reserving.elsewhere table used fun top => boot.apart path (top ▸ here')]
    exact (words i).trans (handover.words free here i)
  · have zero : copied.pmm.reserved 0 = true := by
      rw [PhysicalMemoryManager.reserved,same.2]
      exact handover.zeroReserved
    exact wf.reserved (fun machine => machine.pmm.reserved 0 = true) (fun _ _ _ _ _ _ _ zero => zero) filled zero
  · exact fun flat => (copied_flat boot blank copying (handover.flat free flat)).reserved wf filled
  · exact fun compact => (copied_compact boot blank copying (handover.compact free compact)).reserved wf filled

/-- No allocation fails, so `Initialize` returns, and the processor runs on such tables. -/
theorem initializePaging_returns :
    ∃ paging final, initializePaging loader.pml4 machine = .ok paging final ∧ PagingInitialized machine loader paging final := by
  have enough := handover.enough
  rcases allocatePage_cases machine with ⟨fresh,free,_,taken⟩ | ⟨none,_⟩
  · obtain ⟨low,unreserved,_⟩ := (machine.pmm.mem_freeFrames fresh).mp free
    have one := Finset.card_erase_add_one free
    have boot := handover.bootTree free
    obtain ⟨spare,count⟩ : ∃ spare, (machine.cleared fresh).pmm.freeFrames.card =
        tablesBelow (machine.cleared fresh).memory 4 (frameNumber loader.pml4) + (256 + spare) := by
      rw [handover.tablesBelow free,machine.freeFrames_cleared]
      exact ⟨machine.pmm.freeFrames.card - tablesBelow machine.memory 4 (frameNumber loader.pml4) - 257,by omega⟩
    obtain ⟨copied,copies,copying,replicated⟩ := boot.copies count
    have same := copyExistingPageTableToNew_sameFrames (State.ofPage (frameAddress fresh)) loader.pml4
      (machine.cleared fresh) (show SameFrames (machine.cleared fresh) _ from ⟨rfl,rfl⟩)
    rw [copies,finalState_ok] at same
    rw [← handover.root free] at low unreserved
    have blank := handover.blank_cleared free
    have wf := copied_wellFormed boot blank copying same low unreserved replicated
    have left : copied.pmm.freeFrames.card = 256 + spare := by simpa using copying.enough
    obtain ⟨reserved,filled,_⟩ := reserveHigherHalfPML4Slots_returns (State.ofPage (frameAddress fresh)) wf.bounded
      copying.ready.zero left.ge
    have nonzero : fresh ≠ 0 := fun zero => handover.zero_not_free (zero ▸ free)
    exact ⟨_,reserved,initializePaging_eq (handover.small free) nonzero taken copies filled,
      handover.initialized free copying same wf (copied_owned boot blank copying same low unreserved) filled⟩
  · rw [none,Finset.card_empty] at enough
    omega

end Returns

section Runs
variable {machine started : Machine} {loader : State} {paging : KernelPaging}
  (initialized : PagingInitialized machine loader paging started) (flat : machine.Flat loader)
include initialized flat

theorem PagingInitialized.regular : started.Regular paging.kernelState where
  wellFormed := initialized.wellFormed
  owned := initialized.owned
  flat := initialized.flat flat
  zeroReserved := initialized.zeroReserved

theorem PagingInitialized.balanced (compact : machine.Compact loader) : started.Balanced paging.kernelState fun frame =>
    started.pmm.allocated frame = true ∧ ¬ started.IsTable paging.kernelState frame where
  wellFormed := initialized.wellFormed
  flat := initialized.flat flat
  compact := initialized.compact compact
  accounted := initialized.wellFormed.accounted

end Runs

/-- From a boot loader's tables without huge leaves and without empty tables, the kernel
comes to tables that translate as before, and every later run of calls leaves them
regular and their frames accounted for. -/
theorem initializePaging_then_runs {machine : Machine} {loader : State} (handover : Handover machine loader)
    (flat : machine.Flat loader) (compact : machine.Compact loader) :
    ∃ paging started, initializePaging loader.pml4 machine = .ok paging started ∧
      (∀ vaddr, started.translate paging.kernelState vaddr = machine.translate loader vaddr) ∧
      ∀ requests final, runAll (Request.perform paging.kernelState) requests started = .ok () final →
        final.Regular paging.kernelState ∧ final.Balanced paging.kernelState fun frame =>
          started.pmm.allocated frame = true ∧ ¬ started.IsTable paging.kernelState frame := by
  obtain ⟨paging,started,run,initialized⟩ := initializePaging_returns handover
  refine ⟨paging,started,run,initialized.translates,fun requests final ran => ?_⟩
  have balanced := initialized.balanced flat compact
  exact ⟨(initialized.regular flat).edited (balanced.run_edited ran),balanced.run ran⟩

private theorem kernelHalf_below {table : Nat} (other : table ≠ 1) : tablesBelow kernelHalfMachine.memory 3 table = 0 := by
  have none : tablesFor kernelHalfMachine.memory 2 table = fun _ => 0 := by
    funext i
    simp [tablesFor,kernelHalfMachine,other]
  rw [tablesBelow_succ,none,List.map_const',List.sum_replicate,smul_zero]

private theorem kernelHalf_slot (i : Fin 512) :
    tablesFor kernelHalfMachine.memory 3 1 i ≤ if 256 ≤ i.val then 1 else 0 := by
  rw [tablesFor]
  cases down : child 4 (kernelHalfMachine.memory 1 i) with
  | none => exact Nat.zero_le _
  | some next =>
    have here : kernelHalfMachine.tables topAtFrameOne [i] = some next := (Machine.tables_first _ _ i).trans down
    rcases kernelHalf_tables here with ⟨top,_⟩ | ⟨index,path,high,rfl⟩
    · cases top
    · cases path
      rw [Option.elim_some,kernelHalf_below (by omega),if_pos high]

/-- A loader whose top-level table links an empty table at each entry of the upper half. -/
theorem kernelHalf_handover : Handover kernelHalfMachine topAtFrameOne where
  allocated := fun path table here free => kernelHalf_regular.wellFormed.not_free free path here
  zeroReserved := kernelHalf_regular.zeroReserved
  bounded := kernelHalf_regular.wellFormed.bounded
  enough := by
    have top : frameNumber topAtFrameOne.pml4 = 1 := by decide
    have half : ((List.finRange 512).map fun i => if 256 ≤ i.val then 1 else 0).sum = 256 := by decide +kernel
    have upper : tablesBelow kernelHalfMachine.memory 4 1 ≤ 256 := by
      rw [tablesBelow_succ,← half]
      exact List.sum_le_sum fun i _ => kernelHalf_slot i
    have count : 513 ≤ kernelHalfMachine.pmm.freeFrames.card := by decide +kernel
    rw [top]
    exact (Nat.add_le_add_right upper 257).trans count
  blank := by
    intro index pdp i frame _ _ free
    have top : kernelHalfMachine.tables topAtFrameOne [] = some 1 := by
      rw [Machine.tables_nil,show frameNumber topAtFrameOne.pml4 = 1 by decide]
    have other : frame ≠ 1 := by
      rintro rfl
      exact kernelHalf_regular.wellFormed.not_free free [] top
    simp [kernelHalfMachine,other]

example : ∃ paging final, initializePaging topAtFrameOne.pml4 kernelHalfMachine = .ok paging final ∧
    PagingInitialized kernelHalfMachine topAtFrameOne paging final := initializePaging_returns kernelHalf_handover

end BorealOS.Memory
