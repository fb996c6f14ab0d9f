import BorealOS.Library.Erasure
import BorealOS.Library.WalkCache
import BorealOS.Memory.AccessRights

/-! The translation caches of the processors. `MapPage` and `UnmapPage` once more, with
their `invlpg` and with every store that a table walk can see, in the order of the source.
A call holds the state's spinlock from its first access to its last, so calls follow each
other, but the processors walk the tables and fill and drop entries of their caches at
any moment of a call. A store is seen by all walks after it. -/
namespace BorealOS.Memory

open TableTree Execution Paging

abbrev TableMoment := Moment Nat (Fin 512) Word

abbrev TracedM := StateT (List TableMoment) KernelM

abbrev TranslationCache := WalkCache (Fin 512) Word

namespace Paging

def leafPath (vaddr : Word) : List (Fin 512) := directoryPath vaddr ++ [tableIndex vaddr 12]

namespace Traced

def visible (action : KernelM Unit) : TracedM Unit := do
  action
  let machine ← (get : KernelM Machine)
  modify fun moments => moments ++ [.store machine.memory]

def invlpg (vaddr : Word) : TracedM Unit :=
  modify fun moments => moments ++ [.invalidate (leafPath vaddr)]

def ensureTable (failure : Panic) (table : Word) (index : Fin 512) : TracedM Word := do
  if (← readEntry table index) = 0 then
    let newTable ← allocatePage
    if newTable = 0 then throw failure
    visible (clearTable newTable)
    visible (writeEntry table index (newTable ||| directoryFlags))
  return (← readEntry table index) &&& pointerMask

def mapPage (state : State) (virtualAddress physicalAddress flags : Word) : TracedM Unit := do
  if virtualAddress &&& (Architecture.pageSize - 1) ≠ 0 then throw .virtualAddressNotAligned
  if physicalAddress &&& (Architecture.pageSize - 1) ≠ 0 then throw .physicalAddressNotAligned
  let entryFlags := flags ||| Flag.present.bit
  let indices := extractPageTableIndices virtualAddress
  let pdp ← ensureTable .pdpAllocationFailed state.pml4 indices.pml4Index
  let pd ← ensureTable .pdAllocationFailed pdp indices.pdpIndex
  let pt ← ensureTable .ptAllocationFailed pd indices.pdIndex
  if present (← readEntry pt indices.ptIndex) then throw .alreadyMapped
  visible (writeEntry pt indices.ptIndex ((physicalAddress &&& pointerMask) ||| entryFlags))
  invlpg virtualAddress

def freeEmptyTables (state : State) (indices : PageTableIndices) (pdp pd pt : Word) : TracedM Unit := do
  if ← isTableEmpty pt then
    freePage pt
    visible (writeEntry pd indices.pdIndex 0)
    if ← isTableEmpty pd then
      freePage pd
      visible (writeEntry pdp indices.pdpIndex 0)
      if (← isTableEmpty pdp) && indices.pml4Index.val < 256 then
        freePage pdp
        visible (writeEntry state.pml4 indices.pml4Index 0)

def unmapPage (state : State) (virtualAddress : Word) : TracedM Unit := do
  let indices := extractPageTableIndices virtualAddress
  let pdp ← presentTable .pml4EntryNotPresent state.pml4 indices.pml4Index
  let pd ← presentTable .pdpEntryNotPresent pdp indices.pdpIndex
  let pt ← presentTable .pdEntryNotPresent pd indices.pdIndex
  if !present (← readEntry pt indices.ptIndex) then throw .ptEntryNotPresent
  visible (writeEntry pt indices.ptIndex 0)
  invlpg virtualAddress
  freeEmptyTables state indices pdp pd pt

theorem erases_throw {α : Type} (panic : Panic) : Erases (throw panic : TracedM α) (throw panic) := by
  intro moments
  rfl

theorem erases_visible (action : KernelM Unit) : Erases (visible action) action := by
  apply (erases_lift action).silent
  intro value moments
  rfl

theorem erases_invlpg (vaddr : Word) : Erases (invlpg vaddr) (pure ()) := by
  intro moments
  rfl

theorem erases_ensureTable (failure : Panic) (table : Word) (index : Fin 512) :
    Erases (ensureTable failure table index) (Paging.ensureTable failure table index) := by
  have answer : Erases (do return (← readEntry table index) &&& pointerMask : TracedM Word)
      (do return (← readEntry table index) &&& pointerMask) := (erases_lift _).bind fun _ => erases_pure _
  refine (erases_lift _).bind fun entry => .ite ?_ answer
  refine (erases_lift _).bind fun newTable => ?_
  have linked := (erases_visible (clearTable newTable)).bind fun _ =>
    (erases_visible (writeEntry table index (newTable ||| directoryFlags))).bind fun _ => answer
  exact .ite ((erases_throw failure).bind fun _ => linked) linked

theorem erases_mapPage (state : State) (virtualAddress physicalAddress flags : Word) :
    Erases (mapPage state virtualAddress physicalAddress flags)
      (Paging.mapPage state virtualAddress physicalAddress flags) := by
  refine (erases_throw .virtualAddressNotAligned).guard ?_
  refine (erases_throw .physicalAddressNotAligned).guard ?_
  refine (erases_ensureTable .pdpAllocationFailed state.pml4 _).bind fun pdp => ?_
  refine (erases_ensureTable .pdAllocationFailed pdp _).bind fun pd => ?_
  refine (erases_ensureTable .ptAllocationFailed pd _).bind fun pt => ?_
  refine (erases_lift _).bind fun _ => (erases_throw .alreadyMapped).guard ?_
  exact (erases_visible _).silent fun _ => erases_invlpg virtualAddress

theorem erases_freeEmptyTables (state : State) (indices : PageTableIndices) (pdp pd pt : Word) :
    Erases (freeEmptyTables state indices pdp pd pt) (Paging.freeEmptyTables state indices pdp pd pt) := by
  refine (erases_lift (isTableEmpty pt)).bind fun _ => .ite ?_ (erases_pure ())
  refine (erases_lift (freePage pt)).bind fun _ => (erases_visible _).bind fun _ => ?_
  refine (erases_lift (isTableEmpty pd)).bind fun _ => .ite ?_ (erases_pure ())
  refine (erases_lift (freePage pd)).bind fun _ => (erases_visible _).bind fun _ => ?_
  refine (erases_lift (isTableEmpty pdp)).bind fun _ => .ite ?_ (erases_pure ())
  exact (erases_lift (freePage pdp)).bind fun _ => erases_visible _

theorem erases_unmapPage (state : State) (virtualAddress : Word) :
    Erases (unmapPage state virtualAddress) (Paging.unmapPage state virtualAddress) := by
  refine (erases_lift _).bind fun pdp => (erases_lift _).bind fun pd => (erases_lift _).bind fun pt => ?_
  refine (erases_lift _).bind fun _ => (erases_throw .ptEntryNotPresent).guard ?_
  refine (erases_visible _).bind fun _ => (erases_invlpg virtualAddress).of_silent fun _ => ?_
  exact erases_freeEmptyTables state _ pdp pd pt

theorem visible_ok {action : KernelM Unit} {moments after : List TableMoment} {machine final : Machine} :
    visible action moments machine = .ok ((),after) final ↔
      action machine = .ok () final ∧ after = moments ++ [.store final.memory] := by
  rw [visible,recorded_bind_ok]
  constructor
  · rintro ⟨_,between,middle,first,rest⟩
    obtain ⟨done,rfl⟩ := recorded_lift_ok.mp first
    cases rest
    exact ⟨done,rfl⟩
  · rintro ⟨done,rfl⟩
    exact ⟨(),moments,final,recorded_lift_ok.mpr ⟨done,rfl⟩,rfl⟩

section Steps
variable {α : Type} {table entry : Word} {index : Fin 512} {moments after : List TableMoment} {machine final : Machine}
  {result : α}

theorem read_ok {next : Word → TracedM α} :
    ((liftM (readEntry table index) : TracedM Word) >>= next) moments machine = .ok (result,after) final ↔
      next (machine.memory (frameNumber table) index) moments machine = .ok (result,after) final := by
  rw [recorded_silent_ok]
  constructor
  · rintro ⟨_,_,read,rest⟩
    cases read
    exact rest
  · exact fun rest => ⟨_,_,rfl,rest⟩

theorem visible_bind_ok {action : KernelM Unit} {next : Unit → TracedM α} :
    (visible action >>= next) moments machine = .ok (result,after) final ↔ ∃ middle, action machine = .ok () middle ∧
      next () (moments ++ [.store middle.memory]) middle = .ok (result,after) final := by
  rw [recorded_bind_ok]
  constructor
  · rintro ⟨_,_,middle,step,rest⟩
    obtain ⟨done,rfl⟩ := visible_ok.mp step
    exact ⟨middle,done,rest⟩
  · rintro ⟨middle,done,rest⟩
    exact ⟨(),_,middle,visible_ok.mpr ⟨done,rfl⟩,rest⟩

theorem write_ok {next : Unit → TracedM α} :
    (visible (writeEntry table index entry) >>= next) moments machine = .ok (result,after) final ↔
      next () (moments ++ [.store (machine.withEntry (frameNumber table) index entry).memory])
        (machine.withEntry (frameNumber table) index entry) = .ok (result,after) final := by
  rw [visible_bind_ok,writeEntry_apply]
  constructor
  · rintro ⟨_,written,rest⟩
    cases written
    exact rest
  · exact fun rest => ⟨_,rfl,rest⟩

end Steps

end Traced

theorem presentTable_ok {absent : Panic} {table value : Word} {index : Fin 512} {machine final : Machine}
    (ok : presentTable absent table index machine = .ok value final) :
    present (machine.memory (frameNumber table) index) = true ∧
      value = machine.memory (frameNumber table) index &&& pointerMask ∧ final = machine := by
  cases set : present (machine.memory (frameNumber table) index) with
  | false =>
    rw [presentTable_absent set] at ok
    cases ok
  | true =>
    rw [presentTable_present set] at ok
    cases ok
    exact ⟨rfl,rfl,rfl⟩

end Paging

namespace Machine

variable {P : Type} [DecidableEq P] {machine : Machine} {state : State} {path : List (Fin 512)} {table : Nat}
  {index : Fin 512} {vaddr : Word}

abbrev KeepsTables (state : State) (before after : PhysicalMemory) (lost : Set (List (Fin 512))) : Prop :=
  TableTree.Keeps child present 4 (frameNumber state.pml4) before after lost

abbrev Ages (state : State) (caller : P) : PhysicalMemory → (P → Set (List (Fin 512))) → List TableMoment →
    PhysicalMemory → (P → Set (List (Fin 512))) → Prop :=
  TableTree.Ages child present 4 (frameNumber state.pml4) caller

theorem present_of_leads (level : Nat) (entry : Word) (leads : (child level entry).isSome) : present entry = true := by
  obtain ⟨frame,down⟩ := Option.isSome_iff_exists.mp leads
  exact (child_some down).1

theorem keeps_fresh (wf : machine.WellFormed state) {fresh : Nat} (free : fresh ∈ machine.pmm.freeFrames) :
    KeepsTables state machine.memory (fill machine.memory fresh 0) ∅ := by
  refine TableTree.Keeps.of_agree present_of_leads (fun _ gone => absurd gone (Set.notMem_empty _)) ?_
  intro path table index here _ _
  apply fill_frame
  rintro rfl
  exact wf.not_free free path here

theorem keeps_unused {memory : PhysicalMemory} (unset : present (memory table index) = false) (entry : Word) :
    KeepsTables state memory (write memory table index entry) ∅ := by
  refine TableTree.Keeps.of_agree present_of_leads (fun _ gone => absurd gone (Set.notMem_empty _)) ?_
  intro _ other i _ set _
  rw [write,if_neg]
  rintro ⟨rfl,rfl⟩
  rw [unset] at set
  cases set

theorem leafPath_leaves {memory : PhysicalMemory} {root : Nat} :
    ∀ path ∈ ({leafPath vaddr} : Set (List (Fin 512))), tableAt child memory 4 root path = none := by
  rintro _ rfl
  exact tableAt_bottom (child_of_leafLevel (by decide)) rfl (by decide)

theorem keeps_leaf (wf : machine.WellFormed state) (here : machine.tables state (directoryPath vaddr) = some table)
    (entry : Word) :
    KeepsTables state machine.memory (write machine.memory table (tableIndex vaddr 12) entry) {leafPath vaddr} := by
  refine TableTree.Keeps.of_agree present_of_leads leafPath_leaves ?_
  intro path other i there _ apart
  rw [write,if_neg]
  rintro ⟨rfl,rfl⟩
  apply apart
  rw [wf.distinct path _ other there here]
  rfl

/-- A fresh table is cleared and then linked, as one `Machine.linked`. -/
theorem ensureTable_fresh {reached next : Machine} {table pt : Word} {failure : Panic} {moments after : List TableMoment}
    (empty : reached.memory (frameNumber table) index = 0) (bounded : reached.pmm.frameCount.toNat ≤ 2^40)
    (ok : Traced.ensureTable failure table index moments reached = .ok (pt,after) next) :
    ∃ fresh ∈ reached.pmm.freeFrames, fresh ≠ 0 ∧ pt = frameAddress fresh ∧
      next = reached.linked (frameNumber table) index fresh directoryFlags ∧
      after = moments ++ [.store (fill reached.memory fresh 0)] ++ [.store next.memory] := by
  rw [Traced.ensureTable] at ok
  have rest := Traced.read_ok.mp ok
  rw [if_pos empty] at rest
  obtain ⟨newTable,taken,allocated,rest⟩ := recorded_silent_ok.mp rest
  rw [recorded_guard_ok] at rest
  obtain ⟨nonzero,rest⟩ := rest
  rcases allocatePage_cases reached with ⟨fresh,free,_,gives⟩ | ⟨_,nothing⟩
  · rw [gives] at allocated
    cases allocated
    have small : fresh < 2^40 := Nat.lt_of_lt_of_le ((reached.pmm.mem_freeFrames fresh).mp free).1 bounded
    have pointer := (tableEntry_spec small directoryFlags_apart (by decide)).2.2.1
    obtain ⟨_,cleared,rest⟩ := Traced.visible_bind_ok.mp rest
    rw [clearTable_apply,frameNumber_frameAddress small] at cleared
    cases cleared
    cases Traced.read_ok.mp (Traced.write_ok.mp rest)
    refine ⟨fresh,free,fun zero => nonzero ((frameAddress_eq_zero small).mpr zero),?_,rfl,rfl⟩
    simp only [withEntry,write_here,pointer]
  · rw [nothing] at allocated
    cases allocated
    exact absurd rfl nonzero

/-- One level of the descent: it moves on to the next table, and what it stores on the
way is seen by no walk. -/
theorem ensureTable_traced {origin reached next : Machine} (wf : origin.WellFormed state)
    (down : Descended state origin path reached) (smooth : origin.Smooth state vaddr) {table pt : Word} {failure : Panic}
    (here : reached.tables state path = some (frameNumber table)) (towards : path ++ [index] <+: directoryPath vaddr)
    {moments after : List TableMoment}
    (ok : Traced.ensureTable failure table index moments reached = .ok (pt,after) next) :
    Descended state origin (path ++ [index]) next ∧ next.tables state (path ++ [index]) = some (frameNumber pt) ∧
      ∃ more, after = moments ++ more ∧ ∀ (caller : P) outdated,
        Ages state caller reached.memory outdated more next.memory outdated := by
  have kept := Edited.wellFormed wf down.edited
  by_cases empty : reached.memory (frameNumber table) index = 0
  · obtain ⟨fresh,free,used,rfl,rfl,rfl⟩ := ensureTable_fresh empty kept.bounded ok
    have short := (index_towards towards).1
    refine ⟨down.link short here empty free used,?_,_,List.append_assoc _ _ _,?_⟩
    · rw [tables_directory kept here short empty free,Function.update_self,frameNumber_frameAddress (kept.fresh_small free)]
    · intro caller outdated
      have apart : frameNumber table ≠ fresh := fun same => kept.not_free free path (same ▸ here)
      have unset : present (fill reached.memory fresh 0 (frameNumber table) index) = false := by
        rw [fill_frame _ apart,empty]
        exact present_zero
      exact (TableTree.Ages.grows (keeps_fresh kept free)).append (TableTree.Ages.grows (keeps_unused unset _))
  · have there := (down.next wf smooth towards here).resolve_left empty
    rw [Traced.ensureTable] at ok
    have rest := Traced.read_ok.mp ok
    rw [if_neg empty] at rest
    cases Traced.read_ok.mp rest
    exact ⟨down.existing there,there,[],(List.append_nil _).symm,fun _ _ => .done⟩

theorem ages_invalidate {memory : PhysicalMemory} (caller : P) (outdated : P → Set (List (Fin 512)))
    (path : List (Fin 512)) : Ages state caller memory outdated [.invalidate path] memory
      (Function.update outdated caller (outdated caller \ {path})) := .invalidate .done

theorem mapPage_ages (wf : machine.WellFormed state) (smooth : machine.Smooth state vaddr) {physicalAddress flags : Word}
    {moments after : List TableMoment} {final : Machine}
    (ok : Traced.mapPage state vaddr physicalAddress flags moments machine = .ok ((),after) final) :
    ∃ more, after = moments ++ more ∧ ∀ (caller : P) outdated,
      Ages state caller machine.memory outdated more final.memory
        (Function.update outdated caller (outdated caller \ {leafPath vaddr})) := by
  rw [Traced.mapPage] at ok
  dsimp only at ok
  rw [recorded_guard_ok,recorded_guard_ok,recorded_bind_ok] at ok
  obtain ⟨_,_,pdp,_,first,step,rest⟩ := ok
  obtain ⟨down,here,more,rfl,firstAges⟩ := ensureTable_traced (P := P) wf .start smooth tables_nil ⟨_,rfl⟩ step
  rw [recorded_bind_ok] at rest
  obtain ⟨pd,_,second,step,rest⟩ := rest
  obtain ⟨down,here,more',rfl,secondAges⟩ := ensureTable_traced (P := P) wf down smooth here ⟨_,rfl⟩ step
  rw [recorded_bind_ok] at rest
  obtain ⟨pt,_,reached,step,rest⟩ := rest
  obtain ⟨down,here,more'',rfl,thirdAges⟩ := ensureTable_traced (P := P) wf down smooth here ⟨_,rfl⟩ step
  obtain ⟨unset,rest⟩ := recorded_guard_ok.mp (Traced.read_ok.mp rest)
  cases Traced.write_ok.mp rest
  refine ⟨_,by simp only [List.append_assoc]; rfl,fun caller outdated => ?_⟩
  refine (firstAges caller outdated).append ((secondAges caller outdated).append ((thirdAges caller outdated).append
    ((TableTree.Ages.grows (keeps_unused ?_ _)).append (ages_invalidate caller outdated _))))
  simpa using unset

/-- What `UnmapPage` has stored when it comes to the freeing of tables. -/
theorem unmapPage_clears {moments after : List TableMoment} {final : Machine}
    (ok : Traced.unmapPage state vaddr moments machine = .ok ((),after) final) :
    (present (machine.pml4Word state vaddr) = true ∧ present (machine.pdpWord state vaddr) = true ∧
      present (machine.pdWord state vaddr) = true ∧ present (machine.ptWord state vaddr) = true) ∧
    Traced.freeEmptyTables state (extractPageTableIndices vaddr) (machine.pml4Word state vaddr &&& pointerMask)
      (machine.pdpWord state vaddr &&& pointerMask) (machine.pdWord state vaddr &&& pointerMask)
      (moments ++ [.store (machine.withEntry (frameOf (machine.pdWord state vaddr)) (tableIndex vaddr 12) 0).memory] ++
        [.invalidate (leafPath vaddr)])
      (machine.withEntry (frameOf (machine.pdWord state vaddr)) (tableIndex vaddr 12) 0) = .ok ((),after) final := by
  rw [Traced.unmapPage] at ok
  dsimp only at ok
  obtain ⟨pdp,_,found,rest⟩ := recorded_silent_ok.mp ok
  obtain ⟨pml4Set,rfl,rfl⟩ := presentTable_ok found
  obtain ⟨pd,_,found,rest⟩ := recorded_silent_ok.mp rest
  obtain ⟨pdpSet,rfl,rfl⟩ := presentTable_ok found
  obtain ⟨pt,_,found,rest⟩ := recorded_silent_ok.mp rest
  obtain ⟨pdSet,rfl,rfl⟩ := presentTable_ok found
  obtain ⟨ptSet,rest⟩ := recorded_guard_ok.mp (Traced.read_ok.mp rest)
  obtain ⟨_,_,_,invalidated,rest⟩ := recorded_bind_ok.mp (Traced.write_ok.mp rest)
  cases invalidated
  refine ⟨⟨pml4Set,pdpSet,pdSet,?_⟩,rest⟩
  rw [Bool.not_eq_true',Bool.not_eq_false] at ptSet
  exact ptSet

/-- `UnmapPage` of a page whose table holds another page: the entry is cleared and the
page invalidated, and nothing is freed. -/
theorem unmapPage_ages (wf : machine.WellFormed state) (smooth : machine.Smooth state vaddr) {other : Word}
    (sameTable : directoryPath other = directoryPath vaddr) (apart : pageOf other ≠ pageOf vaddr)
    (used : machine.leafEntry state other ≠ none) {moments after : List TableMoment} {final : Machine}
    (ok : Traced.unmapPage state vaddr moments machine = .ok ((),after) final) :
    ∃ more, after = moments ++ more ∧ ∀ (caller : P) outdated,
      Ages state caller machine.memory outdated more final.memory
        (Function.update (fun party => outdated party ∪ {leafPath vaddr}) caller
          ((outdated caller ∪ {leafPath vaddr}) \ {leafPath vaddr})) := by
  obtain ⟨⟨pml4,pdp,pd,_⟩,rest⟩ := unmapPage_clears ok
  have here := (smooth.tables_words pml4 pdp pd).2.2
  have inUse : ¬ (machine.withEntry (frameOf (machine.pdWord state vaddr)) (tableIndex vaddr 12) 0).emptyFrame
      (frameOf (machine.pdWord state vaddr)) = true := by
    rw [emptyFrame_iff]
    intro empty
    have elsewhere : ¬ (tableIndex other 12 = tableIndex vaddr 12) := fun same =>
      apart ((path_eq_iff other vaddr).mp ⟨sameTable,same⟩)
    have cleared := empty (tableIndex other 12)
    apply used
    rw [leafEntry,sameTable,entryAt_of_table here,Option.filter_some,if_neg]
    rw [withEntry] at cleared
    simpa [write,elsewhere] using cleared
  rw [Traced.freeEmptyTables] at rest
  obtain ⟨empty,_,tested,rest⟩ := recorded_silent_ok.mp rest
  rw [isTableEmpty_apply,show frameNumber (machine.pdWord state vaddr &&& pointerMask) = frameOf _ from rfl] at tested
  obtain ⟨rfl,rfl⟩ := EStateM.Result.ok.inj tested
  rw [if_neg inUse] at rest
  cases rest
  have deep : ∀ path ∈ ({leafPath vaddr} : Set (List (Fin 512))), path.length = 4 := by
    rintro _ rfl
    rfl
  refine ⟨[.store _,.invalidate _],List.append_assoc _ _ _,fun caller outdated => ?_⟩
  exact TableTree.Ages.store (keeps_leaf wf here 0) deep (ages_invalidate caller _ _)

end Machine

end BorealOS.Memory
