import BorealOS.Memory.Edits

/-! What `MapPage` can do to a well-formed hierarchy, on an address whose walk
meets no huge leaf. The descent either finds a table or links a fresh one at
each level; `Descended` records these steps, and every later property of the
call is read off it. -/
namespace BorealOS.Memory

open TableTree Execution Paging

namespace Paging

variable {machine : Machine} {table : Word} {index : Fin 512}

@[simp] theorem readEntry_apply : readEntry table index machine =
    .ok (machine.memory (frameNumber table) index) machine := rfl

@[simp] theorem writeEntry_apply {entry : Word} : writeEntry table index entry machine =
    .ok () (machine.withEntry (frameNumber table) index entry) := rfl

@[simp] theorem clearTable_apply : clearTable table machine =
    .ok () { machine with memory := fill machine.memory (frameNumber table) 0 } := rfl

theorem allocatePage_cases (machine : Machine) :
    (∃ fresh ∈ machine.pmm.freeFrames, (∀ other ∈ machine.pmm.freeFrames, fresh ≤ other) ∧
      allocatePage machine = .ok (frameAddress fresh) { machine with pmm := machine.pmm.take fresh 1 }) ∨
    (machine.pmm.freeFrames = ∅ ∧ allocatePage machine = .ok 0 machine) := by
  rcases machine.pmm.allocatePages_one with ⟨fresh,free,least,taken⟩ | ⟨none,nothing⟩
  · exact Or.inl ⟨fresh,free,least,by simp only [allocatePage,taken]; rfl⟩
  · exact Or.inr ⟨none,by simp only [allocatePage,nothing]⟩

theorem ensureTable_existing {failure : Panic} (set : machine.memory (frameNumber table) index ≠ 0) :
    ensureTable failure table index machine =
      .ok (machine.memory (frameNumber table) index &&& pointerMask) machine := by
  simp only [ensureTable]
  rw [bind_of_ok readEntry_apply,if_neg set]
  rfl

theorem ensureTable_empty (failure : Panic) (empty : machine.memory (frameNumber table) index = 0)
    (bounded : machine.pmm.frameCount.toNat ≤ 2^40) :
    (∃ fresh ∈ machine.pmm.freeFrames, fresh ≠ 0 ∧ (∀ other ∈ machine.pmm.freeFrames, fresh ≤ other) ∧
      ensureTable failure table index machine =
        .ok (frameAddress fresh) (machine.linked (frameNumber table) index fresh directoryFlags)) ∨
    (Stops (ensureTable failure table index machine) ∧ (0 ∉ machine.pmm.freeFrames →
      machine.pmm.freeFrames = ∅ ∧ ensureTable failure table index machine = .error failure machine)) := by
  rcases allocatePage_cases machine with ⟨fresh,free,least,taken⟩ | ⟨none,nothing⟩
  · have small : fresh < 2^40 := Nat.lt_of_lt_of_le ((machine.pmm.mem_freeFrames fresh).mp free).1 bounded
    by_cases zero : fresh = 0
    · subst zero
      refine Or.inr ⟨?_,fun unused => absurd free unused⟩
      simp only [ensureTable]
      rw [bind_of_ok readEntry_apply,if_pos empty,bind_of_ok taken]
      exact .error _ _
    · refine Or.inl ⟨fresh,free,zero,least,?_⟩
      have nonzero : frameAddress fresh ≠ 0 := fun same => zero ((frameAddress_eq_zero small).mp same)
      have pointer := (tableEntry_spec small directoryFlags_apart (by decide)).2.2.1
      simp only [ensureTable]
      rw [bind_of_ok readEntry_apply,if_pos empty,bind_of_ok taken,if_neg nonzero,bind_of_ok clearTable_apply,
        bind_of_ok writeEntry_apply,bind_of_ok readEntry_apply]
      simp only [Machine.withEntry,frameNumber_frameAddress small,write_here,pointer,pure_apply]
      rfl
  · have stopped : ensureTable failure table index machine = .error failure machine := by
      simp only [ensureTable]
      rw [bind_of_ok readEntry_apply,if_pos empty,bind_of_ok nothing]
      rfl
    exact Or.inr ⟨stopped ▸ .error _ _,fun _ => ⟨none,stopped⟩⟩

/-- The three calls of `ensureTable` in `MapPage`, as one descent. -/
def descend : List (Panic × Fin 512) → Word → KernelM Word
  | [], table => pure table
  | (failure,index) :: rest, table => do descend rest (← ensureTable failure table index)

def mapSteps (vaddr : Word) : List (Panic × Fin 512) :=
  [(.pdpAllocationFailed,tableIndex vaddr 39),(.pdAllocationFailed,tableIndex vaddr 30),
    (.ptAllocationFailed,tableIndex vaddr 21)]

theorem mapSteps_path (vaddr : Word) : (mapSteps vaddr).map Prod.snd = directoryPath vaddr := rfl

def writeLeaf (vaddr leaf pt : Word) : KernelM Unit := do
  if present (← readEntry pt (tableIndex vaddr 12)) then throw .alreadyMapped
  writeEntry pt (tableIndex vaddr 12) leaf

theorem writeLeaf_apply {vaddr leaf pt : Word} : writeLeaf vaddr leaf pt machine =
    if present (machine.memory (frameNumber pt) (tableIndex vaddr 12)) then .error .alreadyMapped machine
    else .ok () (machine.withEntry (frameNumber pt) (tableIndex vaddr 12) leaf) := by
  simp only [writeLeaf]
  rw [bind_of_ok readEntry_apply]
  split <;> rfl

theorem mapPage_aligned (state : State) {vaddr physicalAddress : Word} (flags : Word)
    (virtual : vaddr.toNat % 4096 = 0) (physical : physicalAddress.toNat % 4096 = 0) :
    mapPage state vaddr physicalAddress flags = (do
      let pt ← descend (mapSteps vaddr) state.pml4
      writeLeaf vaddr (leafWord physicalAddress flags) pt) := by
  have first := (and_pageMask vaddr).mpr virtual
  have second := (and_pageMask physicalAddress).mpr physical
  simp only [mapPage,first,second,ne_eq,not_true_eq_false,if_false,extractPageTableIndices,mapSteps,descend,
    bind_assoc,pure_bind,writeLeaf,leafWord]

theorem mapPage_misaligned (state : State) {vaddr physicalAddress : Word} (flags : Word)
    (misaligned : vaddr.toNat % 4096 ≠ 0 ∨ physicalAddress.toNat % 4096 ≠ 0) (machine : Machine) :
    ∃ panic, mapPage state vaddr physicalAddress flags machine = .error panic machine ∧ panic ≠ .alreadyMapped := by
  by_cases virtual : vaddr.toNat % 4096 = 0
  · have first := (and_pageMask vaddr).mpr virtual
    have second : physicalAddress &&& (Architecture.pageSize - 1) ≠ 0 := fun aligned =>
      misaligned.elim (fun apart => apart virtual) fun apart => apart ((and_pageMask physicalAddress).mp aligned)
    refine ⟨.physicalAddressNotAligned,?_,nofun⟩
    simp only [mapPage,first,second,ne_eq,not_true_eq_false,not_false_eq_true,if_false,if_true]
    rfl
  · have first : vaddr &&& (Architecture.pageSize - 1) ≠ 0 := fun aligned =>
      virtual ((and_pageMask vaddr).mp aligned)
    refine ⟨.virtualAddressNotAligned,?_,nofun⟩
    simp only [mapPage,first,ne_eq,not_false_eq_true,if_true]
    rfl

end Paging

namespace Machine

/-- The machines a descent of `MapPage` can reach together with the path it has
come down. -/
inductive Descended (state : State) (machine : Machine) : List (Fin 512) → Machine → Prop
  | start : Descended state machine [] machine
  | existing {path : List (Fin 512)} {reached : Machine} {index : Fin 512} {table : Nat} :
    Descended state machine path reached → reached.tables state (path ++ [index]) = some table →
    Descended state machine (path ++ [index]) reached
  | link {path : List (Fin 512)} {reached : Machine} {index : Fin 512} {table fresh : Nat} :
    Descended state machine path reached → path.length < 3 → reached.tables state path = some table →
    reached.memory table index = 0 → fresh ∈ reached.pmm.freeFrames → fresh ≠ 0 →
    Descended state machine (path ++ [index]) (reached.linked table index fresh directoryFlags)

def missing (machine : Machine) (state : State) : (path rest : List (Fin 512)) → Nat
  | _, [] => 0
  | path, index :: rest =>
    (if (machine.tables state (path ++ [index])).isSome then 0 else 1) +
      missing machine state (path ++ [index]) rest

theorem missing_le (machine : Machine) (state : State) (path rest : List (Fin 512)) :
    machine.missing state path rest ≤ rest.length := by
  induction rest generalizing path with
  | nil => simp [missing]
  | cons index rest ih =>
    have below := ih (path ++ [index])
    rw [missing,List.length_cons]
    split <;> omega

section Descent
variable {machine reached : Machine} {state : State} {path : List (Fin 512)}

theorem Descended.edited (down : Descended state machine path reached) : Edited state machine reached := by
  induction down with
  | start => exact .refl
  | existing _ _ ih => exact ih
  | link _ short here empty free _ ih => exact ih.tail (.link here short empty free)

/-- A descent stands at a table. Until the first fresh table nothing has changed,
and below it everything is empty. -/
theorem Descended.sound (wf : machine.WellFormed state) (down : Descended state machine path reached) :
    (∃ table, reached.tables state path = some table) ∧
      (reached = machine ∨ ∀ index, reached.entryAt state path index = some 0) := by
  induction down with
  | start => exact ⟨⟨_,tables_nil⟩,Or.inl rfl⟩
  | @existing path reached index table down there ih =>
    obtain ⟨_,same | empty⟩ := ih
    · exact ⟨⟨table,there⟩,Or.inl same⟩
    · obtain ⟨parent,above,leads⟩ := tables_parent there
      have zero := empty index
      rw [entryAt_of_table above] at zero
      rw [Option.some.inj zero] at leads
      simp at leads
  | @link path reached index table fresh down short here empty free nonzero ih =>
    have kept := Edited.wellFormed wf down.edited
    refine ⟨⟨fresh,?_⟩,Or.inr ?_⟩
    · rw [tables_directory kept here short empty free,Function.update_self]
    · intro i
      rw [entryAt_directory kept here short empty free,if_neg (by simp),if_pos rfl]

/-- A descent changes no translation: fresh tables have no present entries. -/
theorem Descended.leafEntry (wf : machine.WellFormed state) (down : Descended state machine path reached)
    (vaddr : Word) : reached.leafEntry state vaddr = machine.leafEntry state vaddr := by
  induction down with
  | start => rfl
  | existing _ _ ih => exact ih
  | @link path reached index table fresh down short here empty free nonzero ih =>
    have kept := Edited.wellFormed wf down.edited
    rw [← ih,Machine.leafEntry,Machine.leafEntry,entryAt_directory kept here short empty free]
    have shorter : ¬ (directoryPath vaddr = path ∧ tableIndex vaddr 12 = index) := by
      rintro ⟨same,_⟩
      simp [← same,directoryPath] at short
    rw [if_neg shorter]
    split
    · rename_i new
      have absent : reached.tables state (directoryPath vaddr) = none := by
        rw [new,tables_snoc here,empty]
        exact child_zero _
      simp [entryAt,absent,Option.filter]
    · rfl

/-- On the way of an address without a huge leaf, the next entry is zero or leads
to the next table. -/
theorem Descended.next (wf : machine.WellFormed state) (down : Descended state machine path reached)
    {vaddr : Word} (smooth : machine.Smooth state vaddr) {index : Fin 512} {table : Nat}
    (towards : path ++ [index] <+: directoryPath vaddr) (here : reached.tables state path = some table) :
    reached.memory table index = 0 ∨
      reached.tables state (path ++ [index]) = some (frameOf (reached.memory table index)) := by
  obtain ⟨_,same | empty⟩ := down.sound wf
  · subst same
    rcases wf.entry_clean here index with zero | set
    · exact Or.inl zero
    · exact Or.inr (smooth.next here towards set)
  · have zero := empty index
    rw [entryAt_of_table here] at zero
    exact Or.inl (Option.some.inj zero)

theorem tables_below (absent : machine.tables state path = none) (index : Fin 512) :
    machine.tables state (path ++ [index]) = none := by
  cases below : machine.tables state (path ++ [index]) with
  | none => rfl
  | some table =>
    obtain ⟨parent,above,_⟩ := tables_parent below
    rw [absent] at above
    cases above

theorem missing_of_absent (absent : ∀ index, machine.tables state (path ++ [index]) = none)
    (rest : List (Fin 512)) : machine.missing state path rest = rest.length := by
  induction rest generalizing path with
  | nil => rfl
  | cons index rest ih =>
    rw [missing,absent index,ih (tables_below (absent index)),List.length_cons,Nat.add_comm]
    rfl

theorem missing_link {index : Fin 512} {table : Nat} (here : machine.tables state path = some table)
    (empty : machine.memory table index = 0) (rest : List (Fin 512)) :
    machine.missing state path (index::rest) = 1 + rest.length := by
  have absent : machine.tables state (path ++ [index]) = none := by
    rw [tables_snoc here,empty]
    exact child_zero _
  rw [missing,absent,missing_of_absent (tables_below absent)]
  rfl

theorem missing_fresh (empty : ∀ index, machine.entryAt state path index = some 0) (rest : List (Fin 512)) :
    machine.missing state path rest = rest.length := by
  apply missing_of_absent
  intro index
  obtain ⟨table,here,zero⟩ := Option.map_eq_some_iff.mp (empty index)
  rw [tables_snoc here,zero]
  exact child_zero _

theorem freeFrames_linked (machine : Machine) (table : Nat) (index : Fin 512) (fresh : Nat) (flags : Word) :
    (machine.linked table index fresh flags).pmm.freeFrames = machine.pmm.freeFrames.erase fresh :=
  machine.pmm.freeFrames_take_one fresh

/-- The rest of a descent. It comes down to a table, or it stops because a frame
is wanting; frame 0 counts as wanting, since its address is zero. -/
theorem descend_outcome (wf : machine.WellFormed state) {vaddr : Word} (smooth : machine.Smooth state vaddr)
    (rest : List (Panic × Fin 512)) (down : Descended state machine path reached) (table : Word)
    (here : reached.tables state path = some (frameNumber table))
    (towards : path ++ rest.map Prod.snd = directoryPath vaddr) :
    (∃ pt final, descend rest table reached = .ok pt final ∧ Descended state machine (directoryPath vaddr) final ∧
      final.tables state (directoryPath vaddr) = some (frameNumber pt) ∧
      (0 ∉ reached.pmm.freeFrames → reached.missing state path (rest.map Prod.snd) ≤ reached.pmm.freeFrames.card)) ∨
    (Stops (descend rest table reached) ∧ (0 ∉ reached.pmm.freeFrames →
      reached.pmm.freeFrames.card < reached.missing state path (rest.map Prod.snd) ∧
      ∃ panic last final, descend rest table reached = .error panic final ∧ Descended state machine last final)) := by
  induction rest generalizing path reached table with
  | nil =>
    simp only [List.map_nil,List.append_nil] at towards
    subst towards
    exact Or.inl ⟨table,reached,rfl,down,here,fun _ => Nat.zero_le _⟩
  | cons step rest ih =>
    obtain ⟨failure,index⟩ := step
    have kept := Edited.wellFormed wf down.edited
    have onward : path ++ [index] ++ rest.map Prod.snd = directoryPath vaddr := by simpa using towards
    have before : path ++ [index] <+: directoryPath vaddr := ⟨_,onward⟩
    by_cases empty : reached.memory (frameNumber table) index = 0
    · have short := (index_towards before).1
      simp only [List.map_cons,missing_link here empty]
      rcases ensureTable_empty failure empty kept.bounded with
        ⟨fresh,free,nonzero,_,made⟩ | ⟨stopped,full⟩
      · have small := kept.fresh_small free
        have new : (reached.linked (frameNumber table) index fresh directoryFlags).tables state (path ++ [index]) =
            some (frameNumber (frameAddress fresh)) := by
          rw [tables_directory kept here short empty free,Function.update_self,frameNumber_frameAddress small]
        have further := down.link short here empty free nonzero
        have erased := reached.freeFrames_linked (frameNumber table) index fresh directoryFlags
        have one := Finset.card_erase_add_one free
        have zeroes : ∀ i, (reached.linked (frameNumber table) index fresh directoryFlags).entryAt state
            (path ++ [index]) i = some 0 := by
          intro i
          rw [entryAt_directory kept here short empty free,if_neg (by simp),if_pos rfl]
        have outcome := ih further (frameAddress fresh) new onward
        rw [missing_fresh zeroes,erased] at outcome
        rw [descend,bind_of_ok made]
        have fewer : 0 ∉ reached.pmm.freeFrames → 0 ∉ reached.pmm.freeFrames.erase fresh := fun unused member =>
          unused (Finset.mem_of_mem_erase member)
        rcases outcome with ⟨pt,final,ok,there,at_pt,enough⟩ | ⟨stopped,wanting⟩
        · refine Or.inl ⟨pt,final,ok,there,at_pt,fun unused => ?_⟩
          have := enough (fewer unused)
          omega
        · refine Or.inr ⟨stopped,fun unused => ?_⟩
          obtain ⟨short,ended⟩ := wanting (fewer unused)
          exact ⟨by omega,ended⟩
      · refine Or.inr ⟨?_,fun unused => ?_⟩
        · rw [descend]
          exact stops_bind stopped
        · obtain ⟨none,same⟩ := full unused
          refine ⟨?_,failure,path,reached,?_,down⟩
          · rw [none,Finset.card_empty]
            omega
          · rw [descend,bind_of_error same]
    · have there := (down.next wf smooth before here).resolve_left empty
      have counted : reached.missing state path (((failure,index)::rest).map Prod.snd) =
          reached.missing state (path ++ [index]) (rest.map Prod.snd) := by
        rw [List.map_cons,missing,there]
        simp
      rw [descend,bind_of_ok (ensureTable_existing empty),counted]
      exact ih (down.existing there) _ there onward

end Descent

end Machine

namespace Paging

open Machine

variable {machine final : Machine} {state : State} (wf : machine.WellFormed state) {vaddr physicalAddress : Word}
  (flags : Word) (smooth : machine.Smooth state vaddr)
include wf smooth

/-- `MapPage` on aligned addresses: the leaf is written at the end of a descent,
or the call stops because the page is mapped or a frame is wanting. -/
private theorem mapPage_outcome (virtual : vaddr.toNat % 4096 = 0) (physical : physicalAddress.toNat % 4096 = 0) :
    (∃ reached table, Descended state machine (directoryPath vaddr) reached ∧
      reached.tables state (directoryPath vaddr) = some table ∧
      present (reached.memory table (tableIndex vaddr 12)) = false ∧
      mapPage state vaddr physicalAddress flags machine =
        .ok () (reached.withEntry table (tableIndex vaddr 12) (leafWord physicalAddress flags)) ∧
      (0 ∉ machine.pmm.freeFrames →
        machine.missing state [] (directoryPath vaddr) ≤ machine.pmm.freeFrames.card)) ∨
    (Stops (mapPage state vaddr physicalAddress flags machine) ∧
      (0 ∉ machine.pmm.freeFrames → (machine.leafEntry state vaddr).isSome ∨
        machine.pmm.freeFrames.card < machine.missing state [] (directoryPath vaddr))) := by
  rw [mapPage_aligned state flags virtual physical]
  rcases descend_outcome wf smooth (mapSteps vaddr) .start state.pml4 tables_nil (by simp [mapSteps_path]) with
    ⟨pt,reached,ok,down,here,enough⟩ | ⟨stopped,wanting⟩
  · rw [bind_of_ok ok,writeLeaf_apply]
    cases set : present (reached.memory (frameNumber pt) (tableIndex vaddr 12)) with
    | false => exact Or.inl ⟨reached,frameNumber pt,down,here,set,rfl,enough⟩
    | true =>
      refine Or.inr ⟨.error _ _,fun _ => Or.inl ?_⟩
      rw [← down.leafEntry wf,leafEntry,entryAt_of_table here]
      simp [Option.filter,set]
  · exact Or.inr ⟨stops_bind stopped,fun unused => Or.inr (wanting unused).1⟩

variable {flags}

theorem mapPage_ok (ok : mapPage state vaddr physicalAddress flags machine = .ok () final) :
    vaddr.toNat % 4096 = 0 ∧ physicalAddress.toNat % 4096 = 0 ∧ ∃ reached table,
      Descended state machine (directoryPath vaddr) reached ∧
      reached.tables state (directoryPath vaddr) = some table ∧
      present (reached.memory table (tableIndex vaddr 12)) = false ∧
      final = reached.withEntry table (tableIndex vaddr 12) (leafWord physicalAddress flags) := by
  by_cases misaligned : vaddr.toNat % 4096 ≠ 0 ∨ physicalAddress.toNat % 4096 ≠ 0
  · obtain ⟨panic,stopped,_⟩ := mapPage_misaligned state flags misaligned machine
    rw [stopped] at ok
    cases ok
  · have virtual : vaddr.toNat % 4096 = 0 := by omega
    have physical : physicalAddress.toNat % 4096 = 0 := by omega
    rcases mapPage_outcome wf flags smooth virtual physical with
      ⟨reached,table,down,here,unset,done,_⟩ | ⟨stopped,_⟩
    · rw [done] at ok
      cases ok
      exact ⟨virtual,physical,reached,table,down,here,unset,rfl⟩
    · simp [ok] at stopped

theorem mapPage_stops_iff (unused : 0 ∉ machine.pmm.freeFrames) :
    Stops (mapPage state vaddr physicalAddress flags machine) ↔
      vaddr.toNat % 4096 ≠ 0 ∨ physicalAddress.toNat % 4096 ≠ 0 ∨ (machine.leafEntry state vaddr).isSome ∨
        machine.pmm.freeFrames.card < machine.missing state [] (directoryPath vaddr) := by
  by_cases misaligned : vaddr.toNat % 4096 ≠ 0 ∨ physicalAddress.toNat % 4096 ≠ 0
  · obtain ⟨panic,stopped,_⟩ := mapPage_misaligned state flags misaligned machine
    rw [stopped]
    simp only [stops_error,true_iff]
    exact misaligned.imp_right Or.inl
  · have virtual : vaddr.toNat % 4096 = 0 := by omega
    have physical : physicalAddress.toNat % 4096 = 0 := by omega
    simp only [virtual,physical,ne_eq,not_true_eq_false,false_or]
    rcases mapPage_outcome wf flags smooth virtual physical with
      ⟨reached,table,down,here,unset,done,enough⟩ | ⟨stopped,why⟩
    · have absent : machine.leafEntry state vaddr = none := by
        rw [← down.leafEntry wf,leafEntry,entryAt_of_table here]
        simp [Option.filter,unset]
      have := enough unused
      rw [done]
      simp [absent]
      omega
    · exact iff_of_true stopped (why unused)

end Paging

end BorealOS.Memory
