import BorealOS.Memory.WrittenFrames

/-! `MapPage` and `UnmapPage` on hierarchies with huge leaves and stale words. Neither
function looks at the HugePage bit, and `MapPage` takes every word other than zero for an
entry: this module says for exactly which memory that does no harm. -/
namespace BorealOS.Memory

open TableTree Execution Paging Hardware

namespace Machine

variable {machine reached final : Machine} {state : State} {vaddr : Word}

theorem walk_words (machine : Machine) (state : State) (vaddr : Word) : machine.walk state vaddr =
    if !present (machine.pml4Word state vaddr) then none
    else if !present (machine.pdpWord state vaddr) then none
    else if huge (machine.pdpWord state vaddr) then some ⟨3,machine.pdpWord state vaddr⟩
    else if !present (machine.pdWord state vaddr) then none
    else if huge (machine.pdWord state vaddr) then some ⟨2,machine.pdWord state vaddr⟩
    else if !present (machine.ptWord state vaddr) then none
    else some ⟨1,machine.ptWord state vaddr⟩ := by
  simp [Machine.walk,Hardware.walk,pml4Word,pdpWord,pdWord,ptWord]

theorem words_of_translate (translated : (machine.translate state vaddr).isSome) :
    present (machine.pml4Word state vaddr) = true ∧ present (machine.pdpWord state vaddr) = true := by
  rw [Machine.translate,Option.isSome_map,walk_words] at translated
  cases pml4 : present (machine.pml4Word state vaddr)
  · simp [pml4] at translated
  cases pdp : present (machine.pdpWord state vaddr)
  · simp [pml4,pdp] at translated
  exact ⟨rfl,rfl⟩

/-- A word that is not present leads to no table, whatever it is. -/
theorem tables_absent (wf : machine.WellFormed state) {path : List (Fin 512)} {table : Nat} {index : Fin 512} {entry : Word}
    (here : machine.tables state path = some table) (before : present (machine.memory table index) = false)
    (absent : present entry = false) : (machine.withEntry table index entry).tables state = machine.tables state := by
  have none : machine.tables state (path ++ [index]) = none := by rw [tables_snoc here,child_of_absent before]
  have written := tableAt_write wf.distinct here index entry
    (fun old down => by simp [child_of_absent before] at down) (fun new down => by simp [child_of_absent absent] at down)
  rw [child_of_absent absent,← none] at written
  exact written.trans (Function.update_eq_self _ _)

/-- What decides whether `MapPage` does harm. From the first zero word on it allocates
tables, so the frame of that word is a table, or one that the call takes itself on the way
down, or there is no frame to begin with. Without a zero word the page is mapped already,
or the frame of the last word is a table. An address that the processor translates leaves
only the cases in which the call stops at once. -/
def MapStaysInside (machine : Machine) (state : State) (vaddr : Word) : Prop :=
  machine.pml4Word state vaddr ≠ 0 →
    if machine.pdpWord state vaddr = 0 then
      machine.pmm.freeFrames = ∅ ∨ machine.IsTable state (frameOf (machine.pml4Word state vaddr)) ∨
        machine.pmm.AmongNext 2 (frameOf (machine.pml4Word state vaddr))
    else if machine.pdWord state vaddr = 0 then
      machine.pmm.freeFrames = ∅ ∨ (machine.translate state vaddr = none ∧
        (machine.IsTable state (frameOf (machine.pdpWord state vaddr)) ∨
          machine.pmm.AmongNext 1 (frameOf (machine.pdpWord state vaddr))))
    else present (machine.ptWord state vaddr) = true ∨
      (machine.translate state vaddr = none ∧ machine.IsTable state (frameOf (machine.pdWord state vaddr)))

end Machine

namespace Paging

open Machine

variable {machine : Machine} {state : State} {vaddr physicalAddress flags : Word}

section Chain
variable (virtual : vaddr.toNat % 4096 = 0) (physical : physicalAddress.toNat % 4096 = 0)
  (pml4 : machine.pml4Word state vaddr ≠ 0)
include virtual physical pml4

private theorem mapPage_second : mapPage state vaddr physicalAddress flags machine = (do
    let pt ← descend [(.pdAllocationFailed,tableIndex vaddr 30),(.ptAllocationFailed,tableIndex vaddr 21)]
      (machine.pml4Word state vaddr &&& pointerMask)
    writeLeaf vaddr (leafWord physicalAddress flags) pt) machine := by
  have first : ensureTable .pdpAllocationFailed state.pml4 (tableIndex vaddr 39) machine =
      .ok (machine.pml4Word state vaddr &&& pointerMask) machine := ensureTable_existing pml4
  rw [mapPage_aligned state flags virtual physical,mapSteps,descend,bind_assoc,bind_of_ok first]

variable (pdp : machine.pdpWord state vaddr ≠ 0)
include pdp

private theorem mapPage_third : mapPage state vaddr physicalAddress flags machine = (do
    let pt ← descend [(.ptAllocationFailed,tableIndex vaddr 21)] (machine.pdpWord state vaddr &&& pointerMask)
    writeLeaf vaddr (leafWord physicalAddress flags) pt) machine := by
  have second : ensureTable .pdAllocationFailed (machine.pml4Word state vaddr &&& pointerMask)
      (tableIndex vaddr 30) machine = .ok (machine.pdpWord state vaddr &&& pointerMask) machine :=
    ensureTable_existing pdp
  rw [mapPage_second virtual physical pml4,descend,bind_assoc,bind_of_ok second]

theorem mapPage_words (pd : machine.pdWord state vaddr ≠ 0) :
    mapPage state vaddr physicalAddress flags machine =
      if present (machine.ptWord state vaddr) then .error .alreadyMapped machine
      else .ok () (machine.withEntry (frameOf (machine.pdWord state vaddr)) (tableIndex vaddr 12)
        (leafWord physicalAddress flags)) := by
  have third : ensureTable .ptAllocationFailed (machine.pdpWord state vaddr &&& pointerMask)
      (tableIndex vaddr 21) machine = .ok (machine.pdWord state vaddr &&& pointerMask) machine :=
    ensureTable_existing pd
  rw [mapPage_third virtual physical pml4 pdp,descend,bind_assoc,bind_of_ok third,descend,pure_bind,writeLeaf_apply]
  rfl

/-- With a zero as third word `MapPage` takes a frame, so it stops without a change
only when there is none. -/
theorem mapPage_zeroWord (pd : machine.pdWord state vaddr = 0) (bounded : machine.pmm.frameCount.toNat ≤ 2^40)
    (unused : 0 ∉ machine.pmm.freeFrames) :
    (∃ panic, mapPage state vaddr physicalAddress flags machine = .error panic machine) ↔
      machine.pmm.freeFrames = ∅ := by
  rw [mapPage_third virtual physical pml4 pdp,descend,bind_assoc]
  have empty : machine.memory (frameNumber (machine.pdpWord state vaddr &&& pointerMask)) (tableIndex vaddr 21) = 0 := pd
  rcases ensureTable_empty .ptAllocationFailed empty bounded with ⟨fresh,free,_,_,made⟩ | ⟨_,full⟩
  · rw [bind_of_ok made,descend,pure_bind,writeLeaf_apply]
    refine iff_of_false ?_ (Finset.ne_empty_of_mem free)
    rintro ⟨panic,same⟩
    have frames := machine.freeFrames_linked (frameNumber (machine.pdpWord state vaddr &&& pointerMask))
      (tableIndex vaddr 21) fresh directoryFlags
    split at same
    · have equal : machine.linked (frameNumber (machine.pdpWord state vaddr &&& pointerMask)) (tableIndex vaddr 21)
          fresh directoryFlags = machine := by
        injection same
      rw [equal] at frames
      exact Finset.notMem_erase fresh _ (frames ▸ free)
    · cases same
  · obtain ⟨none,stopped⟩ := full unused
    rw [bind_of_error stopped]
    exact iff_of_true ⟨_,rfl⟩ none

end Chain

section Words
variable (bounded : machine.pmm.frameCount.toNat ≤ 2^40) (unused : 0 ∉ machine.pmm.freeFrames)
  (virtual : vaddr.toNat % 4096 = 0) (physical : physicalAddress.toNat % 4096 = 0)
include bounded unused virtual physical

/-- The frames alone, whatever the processor makes of the address. -/
theorem mapPage_contained_iff :
    machine.Contained state (finalState (mapPage state vaddr physicalAddress flags machine)) ↔
    (machine.pml4Word state vaddr ≠ 0 →
      if machine.pdpWord state vaddr = 0 then
        machine.pmm.freeFrames = ∅ ∨ machine.IsTable state (frameOf (machine.pml4Word state vaddr)) ∨
          machine.pmm.AmongNext 2 (frameOf (machine.pml4Word state vaddr))
      else if machine.pdWord state vaddr = 0 then
        machine.pmm.freeFrames = ∅ ∨ machine.IsTable state (frameOf (machine.pdpWord state vaddr)) ∨
          machine.pmm.AmongNext 1 (frameOf (machine.pdpWord state vaddr))
      else present (machine.ptWord state vaddr) = true ∨ machine.IsTable state (frameOf (machine.pdWord state vaddr))) := by
  by_cases pml4 : machine.pml4Word state vaddr = 0
  · refine iff_of_true ?_ (absurd pml4)
    rw [mapPage_aligned state flags virtual physical]
    exact (link_contained_iff bounded unused _ _ _ pml4).mpr (Or.inr (Or.inl ⟨[],rfl⟩))
  rw [imp_iff_right pml4]
  by_cases pdp : machine.pdpWord state vaddr = 0
  · rw [if_pos pdp,mapPage_second virtual physical pml4]
    exact link_contained_iff bounded unused _ _ _ pdp
  rw [if_neg pdp]
  by_cases pd : machine.pdWord state vaddr = 0
  · rw [if_pos pd,mapPage_third virtual physical pml4 pdp]
    exact link_contained_iff bounded unused _ _ _ pd
  rw [if_neg pd,mapPage_words virtual physical pml4 pdp pd]
  cases pt : present (machine.ptWord state vaddr) with
  | true => exact iff_of_true (.refl machine state) (Or.inl rfl)
  | false =>
    simp only [Bool.false_eq_true,if_false,false_or,finalState_ok]
    constructor
    · intro contained
      refine (contained.written _ (tableIndex vaddr 12) ?_).resolve_right (not_taken_start _)
      change write _ _ _ _ _ _ ≠ machine.ptWord state vaddr
      rw [write_here]
      intro same
      rw [← same,present_leafWord] at pt
      cases pt
    · intro inside
      exact (Contained.refl machine state).withEntry (Or.inl inside)

/-- With a word that the processor finds present at the two upper levels, `MapPage` stops at
once for want of a frame or because the page seems mapped. -/
theorem mapPage_unchanged_iff (pml4 : machine.pml4Word state vaddr ≠ 0) (pdp : machine.pdpWord state vaddr ≠ 0) :
    (∃ panic, mapPage state vaddr physicalAddress flags machine = .error panic machine) ↔
      if machine.pdWord state vaddr = 0 then machine.pmm.freeFrames = ∅ else present (machine.ptWord state vaddr) = true := by
  by_cases pd : machine.pdWord state vaddr = 0
  · rw [if_pos pd,mapPage_zeroWord virtual physical pml4 pdp pd bounded unused]
  · rw [if_neg pd,mapPage_words virtual physical pml4 pdp pd]
    cases pt : present (machine.ptWord state vaddr) <;> simp

end Words

/-- For which words `MapPage` does no harm. -/
theorem mapPage_safe_iff (bounded : machine.pmm.frameCount.toNat ≤ 2^40) (unused : 0 ∉ machine.pmm.freeFrames) :
    (machine.Contained state (finalState (mapPage state vaddr physicalAddress flags machine)) ∧
      ((machine.translate state vaddr).isSome →
        ∃ panic, mapPage state vaddr physicalAddress flags machine = .error panic machine)) ↔
    vaddr.toNat % 4096 ≠ 0 ∨ physicalAddress.toNat % 4096 ≠ 0 ∨ machine.MapStaysInside state vaddr := by
  by_cases misaligned : vaddr.toNat % 4096 ≠ 0 ∨ physicalAddress.toNat % 4096 ≠ 0
  · obtain ⟨panic,stopped,_⟩ := mapPage_misaligned state flags misaligned machine
    rw [stopped]
    exact iff_of_true ⟨.refl machine state,fun _ => ⟨panic,rfl⟩⟩ (misaligned.imp_right Or.inl)
  have virtual : vaddr.toNat % 4096 = 0 := by omega
  have physical : physicalAddress.toNat % 4096 = 0 := by omega
  simp only [virtual,physical,ne_eq,not_true_eq_false,false_or]
  rw [mapPage_contained_iff bounded unused virtual physical,MapStaysInside]
  cases translated : machine.translate state vaddr with
  | none => simp
  | some leads =>
    have some : (machine.translate state vaddr).isSome := by rw [translated]; rfl
    obtain ⟨first,second⟩ := words_of_translate some
    have pml4 := ne_zero_of_present first
    have pdp := ne_zero_of_present second
    rw [mapPage_unchanged_iff bounded unused virtual physical pml4 pdp]
    simp only [pml4,pdp,ne_eq,not_false_eq_true,forall_const,if_false,Option.isSome_some,reduceCtorEq,false_and,or_false]
    by_cases pd : machine.pdWord state vaddr = 0
    · simp only [pd,if_true]
      exact and_iff_right_of_imp Or.inl
    · simp only [pd,if_false]
      exact and_iff_right_of_imp Or.inl

end Paging

namespace Machine

variable {machine final : Machine} {state : State} {vaddr : Word}

/-- Only some frames were written, and only their addresses were handed to `FreePages`. -/
structure Touches (frames : Nat → Prop) (machine final : Machine) : Prop where
  written : ∀ frame index, final.memory frame index ≠ machine.memory frame index → frames frame
  freed : ∃ later, final.freed = machine.freed ++ later ∧ ∀ address ∈ later, frames (frameNumber address)

/-- Words that were zero stay zero, and no frame is allocated. -/
structure Empties (machine final : Machine) : Prop where
  zero : ∀ frame index, machine.memory frame index = 0 → final.memory frame index = 0
  allocated : ∀ frame, final.pmm.allocated frame = true → machine.pmm.allocated frame = true

end Machine

namespace Paging

open Machine

variable {machine : Machine} {state : State} {vaddr : Word} {frames : Nat → Prop}

theorem isTableEmpty_maintains {property : Machine → Prop} (table : Word) : Maintains property (isTableEmpty table) :=
  fun _ holds => holds

theorem writeEntry_touches {table : Word} (inside : frames (frameNumber table)) (index : Fin 512) (entry : Word) :
    Maintains (Touches frames machine) (writeEntry table index entry) := by
  intro reached touches
  refine ⟨?_,touches.freed⟩
  intro frame i changed
  by_cases written : frame = frameNumber table ∧ i = index
  · rw [written.1]
    exact inside
  · apply touches.written frame i
    change write reached.memory (frameNumber table) index entry frame i ≠ _ at changed
    rwa [write,if_neg written] at changed

theorem freePage_touches {address : Word} (aligned : address.toNat % 4096 = 0)
    (inside : frames (frameNumber address)) : Maintains (Touches frames machine) (freePage address) := by
  intro reached touches
  obtain ⟨later,history,within⟩ := touches.freed
  have longer : ∃ later, reached.freed ++ [address] = machine.freed ++ later ∧
      ∀ other ∈ later, frames (frameNumber other) := by
    refine ⟨later ++ [address],by rw [history,List.append_assoc],?_⟩
    intro other member
    rcases List.mem_append.mp member with before | last
    · exact within other before
    · rw [List.mem_singleton.mp last]
      exact inside
  by_cases held : reached.pmm.Held (frameNumber address)
  · rw [freePage_held aligned held]
    exact ⟨touches.written,longer⟩
  · obtain ⟨panic,stopped⟩ := freePage_unheld aligned held
    rw [stopped]
    exact ⟨touches.written,longer⟩

theorem writeZero_empties (table : Word) (index : Fin 512) : Maintains (Empties machine) (writeEntry table index 0) := by
  intro reached empties
  refine ⟨?_,empties.allocated⟩
  intro frame i zero
  change write reached.memory (frameNumber table) index 0 frame i = 0
  rw [write]
  split
  · rfl
  · exact empties.zero frame i zero

theorem freePage_empties {address : Word} (aligned : address.toNat % 4096 = 0) :
    Maintains (Empties machine) (freePage address) := by
  intro reached empties
  by_cases held : reached.pmm.Held (frameNumber address)
  · rw [freePage_held aligned held]
    refine ⟨empties.zero,?_⟩
    intro frame taken
    simp only [finalState,PhysicalMemoryManager.release_allocated,Bool.and_eq_true] at taken
    exact empties.allocated frame taken.2
  · obtain ⟨panic,stopped⟩ := freePage_unheld aligned held
    rw [stopped]
    exact ⟨empties.zero,empties.allocated⟩

/-- A word that was present and is zero at the end lies in a table: no frame was
allocated on the way. -/
private theorem isTable_of_cleared {start final : Machine} (contained : machine.Contained state final)
    (empties : start.Empties final) (fewer : ∀ frame, start.pmm.allocated frame = true → machine.pmm.allocated frame = true)
    {frame : Nat} {index : Fin 512} (zero : start.memory frame index = 0)
    (set : present (machine.memory frame index) = true) : machine.IsTable state frame := by
  have changed : final.memory frame index ≠ machine.memory frame index := by
    rw [empties.zero frame index zero]
    exact (ne_zero_of_present set).symm
  rcases contained.written frame index changed with isTable | ⟨free,taken⟩
  · exact isTable
  · have untaken := ((machine.pmm.mem_freeFrames frame).mp free).2.2
    rw [fewer frame (empties.allocated frame taken)] at untaken
    cases untaken

section Free
variable {property : Machine → Prop} {indices : PageTableIndices} {pdp pd pt : Word}

/-- What `UnmapPage` does after it has freed a table of pages. -/
def freeEmptyDirectories (state : State) (indices : PageTableIndices) (pdp pd : Word) : KernelM Unit := do
  if ← isTableEmpty pd then
    freePage pd
    writeEntry pdp indices.pdpIndex 0
    if (← isTableEmpty pdp) && indices.pml4Index.val < 256 then
      freePage pdp
      writeEntry state.pml4 indices.pml4Index 0

theorem freeEmptyTables_eq : freeEmptyTables state indices pdp pd pt = (do
    if ← isTableEmpty pt then
      freePage pt
      writeEntry pd indices.pdIndex 0
      freeEmptyDirectories state indices pdp pd) := rfl

theorem freeEmptyDirectories_maintains (freePd : Maintains property (freePage pd))
    (freePdp : Maintains property (freePage pdp)) (writePdp : Maintains property (writeEntry pdp indices.pdpIndex 0))
    (writePml4 : Maintains property (writeEntry state.pml4 indices.pml4Index 0)) :
    Maintains property (freeEmptyDirectories state indices pdp pd) := by
  refine (isTableEmpty_maintains pd).bind fun _ => Maintains.ite ?_ (maintains_pure ())
  refine freePd.bind fun _ => writePdp.bind fun _ => ?_
  refine (isTableEmpty_maintains pdp).bind fun _ => Maintains.ite ?_ (maintains_pure ())
  exact freePdp.bind fun _ => writePml4

theorem freeEmptyTables_maintains (freePt : Maintains property (freePage pt)) (freePd : Maintains property (freePage pd))
    (freePdp : Maintains property (freePage pdp)) (writePd : Maintains property (writeEntry pd indices.pdIndex 0))
    (writePdp : Maintains property (writeEntry pdp indices.pdpIndex 0))
    (writePml4 : Maintains property (writeEntry state.pml4 indices.pml4Index 0)) :
    Maintains property (freeEmptyTables state indices pdp pd pt) := by
  rw [freeEmptyTables_eq]
  refine (isTableEmpty_maintains pt).bind fun _ => Maintains.ite ?_ (maintains_pure ())
  exact freePt.bind fun _ => writePd.bind fun _ => freeEmptyDirectories_maintains freePd freePdp writePdp writePml4

section Contained
variable (ptAligned : pt.toNat % 4096 = 0) (pdAligned : pd.toNat % 4096 = 0) (pdpAligned : pdp.toNat % 4096 = 0)
include ptAligned pdAligned pdpAligned

theorem freeEmptyTables_contained (pdpTable : machine.IsTable state (frameNumber pdp))
    (ptTable : machine.IsTable state (frameNumber pt))
    (pdTable : (∀ i, i ≠ indices.ptIndex → present (machine.memory (frameNumber pt) i) = false) →
      machine.IsTable state (frameNumber pd)) :
    machine.Contained state (finalState (freeEmptyTables state indices pdp pd pt
      (machine.withEntry (frameNumber pt) indices.ptIndex 0))) := by
  have start : Touches (machine.IsTable state) machine machine := ⟨fun _ _ changed => absurd rfl changed,[],by simp,by simp⟩
  have cleared := writeEntry_touches ptTable indices.ptIndex 0 machine start
  rw [writeEntry_apply,finalState_ok] at cleared
  have ends : Touches (machine.IsTable state) machine (finalState (freeEmptyTables state indices pdp pd pt
      (machine.withEntry (frameNumber pt) indices.ptIndex 0))) := by
    by_cases empty : (machine.withEntry (frameNumber pt) indices.ptIndex 0).emptyFrame (frameNumber pt) = true
    · have directory : machine.IsTable state (frameNumber pd) := by
        apply pdTable
        intro i other
        have absent := emptyFrame_iff.mp empty i
        change present (write machine.memory (frameNumber pt) indices.ptIndex 0 (frameNumber pt) i) = false at absent
        rwa [write_index _ _ other] at absent
      exact freeEmptyTables_maintains (freePage_touches ptAligned ptTable) (freePage_touches pdAligned directory)
        (freePage_touches pdpAligned pdpTable) (writeEntry_touches directory _ _) (writeEntry_touches pdpTable _ _)
        (writeEntry_touches ⟨[],rfl⟩ _ _) _ cleared
    · rw [freeEmptyTables_eq,bind_of_ok isTableEmpty_apply,if_neg empty]
      exact cleared
  exact ⟨fun frame index changed => Or.inl (ends.written frame index changed),ends.freed⟩

theorem freeEmptyTables_tables (owned : machine.Owned state)
    (ptSet : present (machine.memory (frameNumber pt) indices.ptIndex) = true)
    (pdSet : present (machine.memory (frameNumber pd) indices.pdIndex) = true)
    (contained : machine.Contained state (finalState (freeEmptyTables state indices pdp pd pt
      (machine.withEntry (frameNumber pt) indices.ptIndex 0)))) :
    machine.IsTable state (frameNumber pt) ∧
    ((∀ i, i ≠ indices.ptIndex → present (machine.memory (frameNumber pt) i) = false) →
      machine.IsTable state (frameNumber pd)) := by
  have empties : ∀ {start : Machine}, Maintains (Empties start) (freeEmptyDirectories state indices pdp pd) :=
    freeEmptyDirectories_maintains (freePage_empties pdAligned) (freePage_empties pdpAligned) (writeZero_empties _ _)
      (writeZero_empties _ _)
  have whole : Empties (machine.withEntry (frameNumber pt) indices.ptIndex 0) (finalState (freeEmptyTables state indices
      pdp pd pt (machine.withEntry (frameNumber pt) indices.ptIndex 0))) :=
    freeEmptyTables_maintains (freePage_empties ptAligned) (freePage_empties pdAligned) (freePage_empties pdpAligned)
      (writeZero_empties _ _) (writeZero_empties _ _) (writeZero_empties _ _) _ ⟨fun _ _ zero => zero,fun _ taken => taken⟩
  have ptTable := isTable_of_cleared contained whole (fun _ taken => taken) (write_here _ _ _ _) ptSet
  refine ⟨ptTable,?_⟩
  intro others
  have empty : (machine.withEntry (frameNumber pt) indices.ptIndex 0).emptyFrame (frameNumber pt) = true := by
    rw [emptyFrame_iff]
    intro i
    change present (write machine.memory (frameNumber pt) indices.ptIndex 0 (frameNumber pt) i) = false
    by_cases same : i = indices.ptIndex
    · rw [same,write_here]
      exact present_zero
    · rw [write_index _ _ same]
      exact others i same
  obtain ⟨path,here⟩ := ptTable
  have held : (machine.withEntry (frameNumber pt) indices.ptIndex 0).pmm.Held (frameNumber pt) := owned path _ here
  rcases free_and_clear ptAligned pd indices.pdIndex (freeEmptyDirectories state indices pdp pd) with
    ⟨_,freed⟩ | ⟨unheld,_⟩
  · rw [freeEmptyTables_eq,bind_of_ok isTableEmpty_apply,if_pos empty,freed] at contained
    refine isTable_of_cleared contained (empties _ ⟨fun _ _ zero => zero,fun _ taken => taken⟩) ?_ (write_here _ _ _ _) pdSet
    intro frame taken
    simp only [Machine.unlinked,PhysicalMemoryManager.release_allocated,Bool.and_eq_true] at taken
    exact taken.2
  · exact absurd held unheld

end Contained

end Free

/-- For which words `UnmapPage` does no harm: the frame it takes for a table of
pages is a table, and so is the frame it takes for a directory, if it comes to
clear an entry there. -/
theorem unmapPage_safe_iff (owned : machine.Owned state) :
    machine.Contained state (finalState (unmapPage state vaddr machine)) ↔
    (present (machine.pml4Word state vaddr) = true → present (machine.pdpWord state vaddr) = true →
      present (machine.pdWord state vaddr) = true → present (machine.ptWord state vaddr) = true →
      machine.IsTable state (frameOf (machine.pdWord state vaddr)) ∧
      ((∀ i, i ≠ tableIndex vaddr 12 → present (machine.memory (frameOf (machine.pdWord state vaddr)) i) = false) →
        machine.IsTable state (frameOf (machine.pdpWord state vaddr)))) := by
  by_cases words : present (machine.pml4Word state vaddr) = true ∧ present (machine.pdpWord state vaddr) = true ∧
      present (machine.pdWord state vaddr) = true ∧ present (machine.ptWord state vaddr) = true
  · obtain ⟨pml4,pdp,pd,pt⟩ := words
    have pdpTable : machine.IsTable state (frameOf (machine.pml4Word state vaddr)) := by
      refine ⟨[] ++ [tableIndex vaddr 39],?_⟩
      rw [tables_snoc (show machine.tables state [] = _ from rfl)]
      have set : present (machine.memory (frameNumber state.pml4) (tableIndex vaddr 39)) = true := pml4
      simp [child,set,pml4Word]
    simp only [pml4,pdp,pd,pt,forall_const]
    rw [unmapPage_present pml4 pdp pd pt]
    have aligned := and_pointerMask_aligned
    constructor
    · exact freeEmptyTables_tables (aligned _) (aligned _) (aligned _) owned pt pd
    · rintro ⟨ptTable,pdTable⟩
      exact freeEmptyTables_contained (aligned _) (aligned _) (aligned _) pdpTable ptTable pdTable
  · obtain ⟨panic,stopped⟩ := unmapPage_absent words
    rw [stopped]
    refine iff_of_true (.refl machine state) ?_
    intro pml4 pdp pd pt
    exact absurd ⟨pml4,pdp,pd,pt⟩ words

end Paging

/-- Exactly when the two calls leave memory alone that is no page table. -/
theorem paging_contained_iff (machine : Machine) (state : State) (vaddr physicalAddress flags : Word)
    (bounded : machine.pmm.frameCount.toNat ≤ 2^40) (owned : machine.Owned state)
    (zeroReserved : machine.pmm.reserved 0 = true) :
    ((machine.Contained state (finalState (mapPage state vaddr physicalAddress flags machine)) ∧
      ((machine.translate state vaddr).isSome →
        ∃ panic, mapPage state vaddr physicalAddress flags machine = .error panic machine)) ↔
      vaddr.toNat % 4096 ≠ 0 ∨ physicalAddress.toNat % 4096 ≠ 0 ∨ machine.MapStaysInside state vaddr) ∧
    (machine.Contained state (finalState (unmapPage state vaddr machine)) ↔
      (present (machine.pml4Word state vaddr) = true → present (machine.pdpWord state vaddr) = true →
        present (machine.pdWord state vaddr) = true → present (machine.ptWord state vaddr) = true →
        machine.IsTable state (frameOf (machine.pdWord state vaddr)) ∧
        ((∀ i, i ≠ tableIndex vaddr 12 → present (machine.memory (frameOf (machine.pdWord state vaddr)) i) = false) →
          machine.IsTable state (frameOf (machine.pdpWord state vaddr))))) := by
  have unused : 0 ∉ machine.pmm.freeFrames := by
    intro free
    have unreserved := ((machine.pmm.mem_freeFrames 0).mp free).2.1
    rw [zeroReserved] at unreserved
    cases unreserved
  exact ⟨mapPage_safe_iff bounded unused,unmapPage_safe_iff owned⟩

theorem largePage_owned : largePageMachine.Owned topAtFrameOne := by
  intro path table here
  rcases largePage_tables here with ⟨_,rfl⟩ | ⟨_,rfl⟩ | ⟨_,rfl⟩ <;> exact ⟨by decide,by decide,by decide⟩

/-- The large page, with a word in the second entry of its level 3 table that is not present. -/
def staleWordMachine (word : Word) : Machine := largePageMachine.withEntry 2 1 word

theorem staleWord_tables {word : Word} (absent : present word = false) :
    (staleWordMachine word).tables topAtFrameOne = largePageMachine.tables topAtFrameOne :=
  Machine.tables_absent largePage_wellFormed (show largePageMachine.tables topAtFrameOne [0] = some 2 by decide) (by decide)
    absent

theorem staleWord_owned {word : Word} (absent : present word = false) : (staleWordMachine word).Owned topAtFrameOne := by
  intro path table here
  rw [staleWord_tables absent] at here
  exact largePage_owned path table here

/-- Beside the large page the calls are safe, and with a stale word in the way too if it
names the frame that the call takes for itself, but not if it names another free frame. -/
theorem paging_contained_iff_besideLargePage :
    largePageMachine.Contained topAtFrameOne (finalState (mapPage topAtFrameOne 0x40000000 0x5000 0 largePageMachine)) ∧
    largePageMachine.Contained topAtFrameOne (finalState (unmapPage topAtFrameOne 0x40000000 largePageMachine)) ∧
    (staleWordMachine 0x4002).Contained topAtFrameOne
      (finalState (mapPage topAtFrameOne 0x40000000 0x5000 0 (staleWordMachine 0x4002))) ∧
    ¬ (staleWordMachine 0x7002).Contained topAtFrameOne
      (finalState (mapPage topAtFrameOne 0x40000000 0x5000 0 (staleWordMachine 0x7002))) := by
  obtain ⟨maps,unmaps⟩ := paging_contained_iff largePageMachine topAtFrameOne 0x40000000 0x5000 0 (by decide)
    largePage_owned (by decide)
  have next := (paging_contained_iff (staleWordMachine 0x4002) topAtFrameOne 0x40000000 0x5000 0 (by decide)
    (staleWord_owned (by decide)) (by decide)).1
  have other := (paging_contained_iff (staleWordMachine 0x7002) topAtFrameOne 0x40000000 0x5000 0 (by decide)
    (staleWord_owned (by decide)) (by decide)).1
  have second : largePageMachine.IsTable topAtFrameOne 2 := ⟨[0],by decide⟩
  refine ⟨(maps.mpr (Or.inr (Or.inr fun _ => ?_))).1,unmaps.mpr fun _ pdp => absurd pdp (by decide),
    (next.mpr (Or.inr (Or.inr fun _ => ?_))).1,fun contained => ?_⟩
  · rw [if_pos (by decide)]
    exact Or.inr (Or.inl second)
  · rw [if_neg (by decide),if_pos (by decide)]
    exact Or.inr ⟨by decide,Or.inr (by decide)⟩
  · rcases other.mp ⟨contained,fun translated => absurd translated (by decide)⟩ with odd | odd | inside
    · exact absurd odd (by decide)
    · exact absurd odd (by decide)
    · have inside := inside (by decide)
      rw [if_neg (by decide),if_pos (by decide)] at inside
      rcases inside with none | ⟨_,⟨path,here⟩ | next⟩
      · exact absurd none (by decide)
      · rw [staleWord_tables (by decide)] at here
        rcases largePage_tables here with ⟨_,wrong⟩ | ⟨_,wrong⟩ | ⟨_,wrong⟩ <;> exact absurd wrong (by decide)
      · exact absurd next (by decide)

/-- Inside the large page `MapPage` returns, though the processor translates the
address, and it has written to the page. -/
theorem mapPage_insideLargePage :
    largePageMachine.WellFormed topAtFrameOne ∧ largePageMachine.Owned topAtFrameOne ∧
    largePageMachine.pmm.reserved 0 = true ∧ (largePageMachine.translate topAtFrameOne 0x1000).isSome ∧
    ¬ (∃ panic, mapPage topAtFrameOne 0x1000 0x5000 0 largePageMachine = .error panic largePageMachine) ∧
    ¬ largePageMachine.Contained topAtFrameOne (finalState (mapPage topAtFrameOne 0x1000 0x5000 0 largePageMachine)) := by
  have outcome : mapPage topAtFrameOne 0x1000 0x5000 0 largePageMachine =
      .ok () (largePageMachine.withEntry 0x200 1 0x5001) :=
    mapPage_words (by decide) (by decide) (by decide) (by decide) (by decide)
  refine ⟨largePage_wellFormed,largePage_owned,by decide,by decide,?_,?_⟩
  · rw [outcome]
    rintro ⟨panic,impossible⟩
    cases impossible
  · rw [outcome]
    intro contained
    rcases contained.written 0x200 1 (by decide) with ⟨path,here⟩ | ⟨free,_⟩
    · rcases largePage_tables here with ⟨_,wrong⟩ | ⟨_,wrong⟩ | ⟨_,wrong⟩ <;> cases wrong
    · have inside := ((PhysicalMemoryManager.mem_freeFrames _ _).mp free).1
      exact absurd inside (by decide)

end BorealOS.Memory
