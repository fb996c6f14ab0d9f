import BorealOS.Memory.Mapping

/-! What `UnmapPage` can do to a well-formed hierarchy, on an address whose walk
meets no huge leaf: it clears the leaf and then frees tables upwards along the
path of the address, each of them empty at that moment. `Pruned` records these
steps. -/
namespace BorealOS.Memory

open TableTree Execution Paging

namespace Machine

def emptyFrame (machine : Machine) (frame : Nat) : Bool :=
  (List.finRange 512).all fun i => !present (machine.memory frame i)

theorem emptyFrame_iff {machine : Machine} {frame : Nat} :
    machine.emptyFrame frame = true ↔ ∀ i, present (machine.memory frame i) = false := by
  simp [emptyFrame]

/-- The machines that `UnmapPage` of an address can reach together with the path
of the table it looks at. -/
inductive Pruned (state : State) (machine : Machine) (vaddr : Word) : List (Fin 512) → Machine → Prop
  | start {table : Nat} : machine.tables state (directoryPath vaddr) = some table →
    present (machine.memory table (tableIndex vaddr 12)) = true →
    Pruned state machine vaddr (directoryPath vaddr) (machine.withEntry table (tableIndex vaddr 12) 0)
  | unlink {path : List (Fin 512)} {reached : Machine} {index : Fin 512} {table : Nat} {address : Word} :
    Pruned state machine vaddr (path ++ [index]) reached → reached.tables state path = some table →
    reached.tables state (path ++ [index]) = some (frameNumber address) →
    (∀ i, present (reached.memory (frameNumber address) i) = false) →
    reached.pmm.Held (frameNumber address) → (path = [] → index.val < 256) →
    Pruned state machine vaddr path (reached.unlinked table index address)

/-- Where the freeing ends: at the top-level table, at a table that is still
used, or at a table linked from the upper half of the top-level table. -/
def Settled (machine : Machine) (state : State) (path : List (Fin 512)) : Prop :=
  path = [] ∨ (∃ table i, machine.tables state path = some table ∧ present (machine.memory table i) = true) ∨
    ∃ index : Fin 512, path = [index] ∧ 256 ≤ index.val

section Pruning
variable {machine reached : Machine} {state : State} {vaddr : Word} {path : List (Fin 512)}

theorem Pruned.onPath (pruned : Pruned state machine vaddr path reached) : path <+: directoryPath vaddr := by
  induction pruned with
  | start => exact List.prefix_refl _
  | unlink _ _ _ _ _ _ ih => exact (List.prefix_append _ _).trans ih

theorem Pruned.edited (pruned : Pruned state machine vaddr path reached) : Edited state machine reached := by
  induction pruned with
  | start here _ => exact Relation.ReflTransGen.single (.leaf here rfl (Or.inl rfl))
  | unlink _ here below empty held lower ih => exact ih.tail (.unlink here below empty held lower)

end Pruning

end Machine

namespace Paging

open Machine

variable {machine : Machine}

@[simp] theorem isTableEmpty_apply {table : Word} : isTableEmpty table machine =
    .ok (machine.emptyFrame (frameNumber table)) machine := rfl

private theorem one_page (address : Word) {P : Nat → Prop} : (∀ k, address.toNat / 4096 ≤ k →
    k < address.toNat / 4096 + (1 : Word).toNat → P k) ↔ P (frameNumber address) := by
  have one : (1 : Word).toNat = 1 := by decide
  rw [one]
  constructor
  · intro all
    exact all _ (Nat.le_refl _) (Nat.lt_succ_self _)
  · intro only k low high
    have same : k = frameNumber address := by
      rw [frameNumber]
      omega
    rw [same]
    exact only

section Free
variable {address : Word} (aligned : address.toNat % 4096 = 0)
include aligned

theorem freePage_held (held : machine.pmm.Held (frameNumber address)) : freePage address machine =
    .ok () { machine with
      pmm := machine.pmm.release (frameNumber address) 1
      freed := machine.freed ++ [address] } := by
  have fits : address.toNat / 4096 + (1 : Word).toNat < 2^64 := by
    have := address.isLt
    have one : (1 : Word).toNat = 1 := by decide
    omega
  have ok := PhysicalMemoryManager.freePages_ok machine.pmm address 1 aligned fits
    ((one_page address).mpr held)
  simp only [freePage,ok]
  rfl

theorem freePage_unheld (unheld : ¬ machine.pmm.Held (frameNumber address)) :
    ∃ panic, freePage address machine = .error panic { machine with freed := machine.freed ++ [address] } := by
  obtain ⟨panic,stopped⟩ := PhysicalMemoryManager.freePages_one_unheld machine.pmm address aligned unheld
  exact ⟨panic,by simp only [freePage,stopped]⟩

theorem free_and_clear (parent : Word) (index : Fin 512) (rest : KernelM Unit) :
    (machine.pmm.Held (frameNumber address) ∧
      (do freePage address; writeEntry parent index 0; rest) machine =
        rest (machine.unlinked (frameNumber parent) index address)) ∨
    (¬ machine.pmm.Held (frameNumber address) ∧
      Stops ((do freePage address; writeEntry parent index 0; rest) machine)) := by
  by_cases held : machine.pmm.Held (frameNumber address)
  · refine Or.inl ⟨held,?_⟩
    rw [bind_of_ok (freePage_held aligned held),bind_of_ok writeEntry_apply]
    rfl
  · obtain ⟨panic,stopped⟩ := freePage_unheld aligned held
    refine Or.inr ⟨held,?_⟩
    rw [bind_of_error stopped]
    exact .error _ _

end Free

variable {state : State} {vaddr : Word}

theorem presentTable_absent {absent : Panic} {table : Word} {index : Fin 512}
    (unset : present (machine.memory (frameNumber table) index) = false) :
    presentTable absent table index machine = .error absent machine := by
  simp only [presentTable]
  rw [bind_of_ok readEntry_apply]
  simp [unset]
  rfl

theorem presentTable_present {absent : Panic} {table : Word} {index : Fin 512}
    (set : present (machine.memory (frameNumber table) index) = true) :
    presentTable absent table index machine =
      .ok (machine.memory (frameNumber table) index &&& pointerMask) machine := by
  simp only [presentTable]
  rw [bind_of_ok readEntry_apply]
  simp [set]

theorem and_pointerMask_aligned (entry : Word) : (entry &&& pointerMask).toNat % 4096 = 0 := by
  rw [and_pointerMask_toNat]
  omega

private theorem presentTable_pml4 (set : present (machine.pml4Word state vaddr) = true) :
    presentTable .pml4EntryNotPresent state.pml4 (extractPageTableIndices vaddr).pml4Index machine =
      .ok (machine.pml4Word state vaddr &&& pointerMask) machine := presentTable_present set

private theorem presentTable_pdp (set : present (machine.pdpWord state vaddr) = true) :
    presentTable .pdpEntryNotPresent (machine.pml4Word state vaddr &&& pointerMask)
      (extractPageTableIndices vaddr).pdpIndex machine =
      .ok (machine.pdpWord state vaddr &&& pointerMask) machine := presentTable_present set

private theorem presentTable_pd (set : present (machine.pdWord state vaddr) = true) :
    presentTable .pdEntryNotPresent (machine.pdpWord state vaddr &&& pointerMask)
      (extractPageTableIndices vaddr).pdIndex machine =
      .ok (machine.pdWord state vaddr &&& pointerMask) machine := presentTable_present set

theorem unmapPage_present (pml4 : present (machine.pml4Word state vaddr) = true)
    (pdp : present (machine.pdpWord state vaddr) = true) (pd : present (machine.pdWord state vaddr) = true)
    (pt : present (machine.ptWord state vaddr) = true) :
    unmapPage state vaddr machine = freeEmptyTables state (extractPageTableIndices vaddr)
      (machine.pml4Word state vaddr &&& pointerMask) (machine.pdpWord state vaddr &&& pointerMask)
      (machine.pdWord state vaddr &&& pointerMask)
      (machine.withEntry (frameNumber (machine.pdWord state vaddr &&& pointerMask)) (tableIndex vaddr 12) 0) := by
  simp only [unmapPage]
  rw [bind_of_ok (presentTable_pml4 pml4),bind_of_ok (presentTable_pdp pdp),bind_of_ok (presentTable_pd pd),
    bind_of_ok readEntry_apply,if_neg,bind_of_ok writeEntry_apply]
  · rfl
  · rw [Bool.not_eq_true',Bool.not_eq_false]
    exact pt

theorem unmapPage_absent (absent : ¬ (present (machine.pml4Word state vaddr) = true ∧
      present (machine.pdpWord state vaddr) = true ∧ present (machine.pdWord state vaddr) = true ∧
      present (machine.ptWord state vaddr) = true)) :
    ∃ panic, unmapPage state vaddr machine = .error panic machine := by
  simp only [unmapPage]
  cases pml4 : present (machine.pml4Word state vaddr) with
  | false => exact ⟨_,bind_of_error (presentTable_absent pml4)⟩
  | true =>
    rw [bind_of_ok (presentTable_pml4 pml4)]
    cases pdp : present (machine.pdpWord state vaddr) with
    | false => exact ⟨_,bind_of_error (presentTable_absent pdp)⟩
    | true =>
      rw [bind_of_ok (presentTable_pdp pdp)]
      cases pd : present (machine.pdWord state vaddr) with
      | false => exact ⟨_,bind_of_error (presentTable_absent pd)⟩
      | true =>
        have unset : present (machine.ptWord state vaddr) = false := by
          simpa [pml4,pdp,pd] using absent
        rw [bind_of_ok (presentTable_pd pd),bind_of_ok readEntry_apply,if_pos]
        · exact ⟨_,rfl⟩
        · rw [Bool.not_eq_true']
          exact unset

private theorem prune_round (wf : machine.WellFormed state) {reached : Machine} (path : List (Fin 512))
    (index : Fin 512) {parent table : Word} (pruned : Pruned state machine vaddr (path ++ [index]) reached)
    (above : reached.tables state path = some (frameNumber parent))
    (here : reached.tables state (path ++ [index]) = some (frameNumber table)) (aligned : table.toNat % 4096 = 0)
    (empty : reached.emptyFrame (frameNumber table) = true) (lower : path = [] → index.val < 256)
    (rest : KernelM Unit) :
    (∃ next, (do freePage table; writeEntry parent index 0; rest) reached = rest next ∧
      Pruned state machine vaddr path next ∧
      ∀ other, other ≠ path ++ [index] → next.tables state other = reached.tables state other) ∨
    (Stops ((do freePage table; writeEntry parent index 0; rest) reached) ∧
      ∃ path reached table, Pruned state machine vaddr path reached ∧ reached.tables state path = some table ∧
        ¬ reached.pmm.Held table) := by
  have allAbsent := emptyFrame_iff.mp empty
  rcases free_and_clear aligned parent index rest with ⟨held,freed⟩ | ⟨unheld,stopped⟩
  · refine Or.inl ⟨_,freed,pruned.unlink above here allAbsent held lower,?_⟩
    intro other different
    rw [tables_unlinked (Edited.wellFormed wf pruned.edited) above here allAbsent,Function.update_of_ne different]
  · exact Or.inr ⟨stopped,_,_,_,pruned,here,unheld⟩

/-- The freeing of empty tables goes upwards until it is settled, or it stops at
a table that the manager does not hold as allocated. -/
theorem freeEmptyTables_outcome (wf : machine.WellFormed state) {pdp pd pt : Word}
    (pdpHere : machine.tables state [tableIndex vaddr 39] = some (frameNumber pdp))
    (pdpAligned : pdp.toNat % 4096 = 0)
    (pdHere : machine.tables state [tableIndex vaddr 39,tableIndex vaddr 30] = some (frameNumber pd))
    (pdAligned : pd.toNat % 4096 = 0)
    (ptHere : machine.tables state (directoryPath vaddr) = some (frameNumber pt)) (ptAligned : pt.toNat % 4096 = 0)
    (set : present (machine.memory (frameNumber pt) (tableIndex vaddr 12)) = true) :
    (∃ path final, freeEmptyTables state (extractPageTableIndices vaddr) pdp pd pt
        (machine.withEntry (frameNumber pt) (tableIndex vaddr 12) 0) = .ok () final ∧
      Pruned state machine vaddr path final ∧ final.Settled state path) ∨
    (Stops (freeEmptyTables state (extractPageTableIndices vaddr) pdp pd pt
        (machine.withEntry (frameNumber pt) (tableIndex vaddr 12) 0)) ∧
      ∃ path reached table, Pruned state machine vaddr path reached ∧ reached.tables state path = some table ∧
        ¬ reached.pmm.Held table) := by
  have inUse : ∀ {reached : Machine} {path : List (Fin 512)} {table : Nat}, reached.tables state path = some table →
      ¬ reached.emptyFrame table = true → reached.Settled state path := by
    intro reached path table here used
    rw [emptyFrame_iff] at used
    push Not at used
    obtain ⟨i,set⟩ := used
    exact Or.inr (Or.inl ⟨table,i,here,by simpa using set⟩)
  have cleared := Pruned.start ptHere set
  have same := tables_withEntry wf ptHere rfl (tableIndex vaddr 12) 0
  generalize machine.withEntry (frameNumber pt) (tableIndex vaddr 12) 0 = first at cleared same ⊢
  rw [← same] at pdpHere pdHere ptHere
  simp only [freeEmptyTables]
  rw [bind_of_ok isTableEmpty_apply]
  by_cases ptEmpty : first.emptyFrame (frameNumber pt) = true
  · rw [if_pos ptEmpty]
    rcases prune_round wf [tableIndex vaddr 39,tableIndex vaddr 30] (extractPageTableIndices vaddr).pdIndex cleared pdHere
      ptHere ptAligned ptEmpty (by simp) _ with ⟨second,freed,pruned,kept⟩ | stuck
    · rw [← kept _ (by simp)] at pdpHere pdHere
      rw [freed,bind_of_ok isTableEmpty_apply]
      by_cases pdEmpty : second.emptyFrame (frameNumber pd) = true
      · rw [if_pos pdEmpty]
        rcases prune_round wf [tableIndex vaddr 39] (extractPageTableIndices vaddr).pdpIndex pruned pdpHere pdHere pdAligned pdEmpty
          (by simp) _ with ⟨third,freed,pruned,kept⟩ | stuck
        · rw [← kept _ (by simp)] at pdpHere
          rw [freed,bind_of_ok isTableEmpty_apply]
          by_cases pdpEmpty : third.emptyFrame (frameNumber pdp) = true
          · by_cases lower : (extractPageTableIndices vaddr).pml4Index.val < 256
            · have both : (third.emptyFrame (frameNumber pdp) && decide ((extractPageTableIndices vaddr).pml4Index.val < 256)) = true := by
                rw [pdpEmpty,decide_eq_true lower]
                rfl
              rw [if_pos both]
              have round := prune_round wf [] (extractPageTableIndices vaddr).pml4Index pruned tables_nil pdpHere
                pdpAligned pdpEmpty (fun _ => lower) (pure ())
              simp only [bind_pure_unit,pure_apply] at round
              rcases round with ⟨fourth,freed,pruned,_⟩ | stuck
              · exact Or.inl ⟨_,fourth,freed,pruned,Or.inl rfl⟩
              · exact Or.inr stuck
            · have upper : ¬ (third.emptyFrame (frameNumber pdp) &&
                  decide ((extractPageTableIndices vaddr).pml4Index.val < 256)) = true := by
                simp [lower]
              rw [if_neg upper]
              exact Or.inl ⟨_,third,rfl,pruned,Or.inr (Or.inr ⟨_,rfl,Nat.le_of_not_lt lower⟩)⟩
          · have used : ¬ (third.emptyFrame (frameNumber pdp) &&
                decide ((extractPageTableIndices vaddr).pml4Index.val < 256)) = true := by
              simp [pdpEmpty]
            rw [if_neg used]
            exact Or.inl ⟨_,third,rfl,pruned,inUse pdpHere pdpEmpty⟩
        · exact Or.inr stuck
      · rw [if_neg pdEmpty]
        exact Or.inl ⟨_,second,rfl,pruned,inUse pdHere pdEmpty⟩
    · exact Or.inr stuck
  · rw [if_neg ptEmpty]
    exact Or.inl ⟨_,first,rfl,cleared,inUse ptHere ptEmpty⟩

theorem unmapPage_ok (wf : machine.WellFormed state) (smooth : machine.Smooth state vaddr) {final : Machine}
    (ok : unmapPage state vaddr machine = .ok () final) :
    ∃ path, Pruned state machine vaddr path final ∧ final.Settled state path := by
  by_cases found : machine.leafEntry state vaddr = none
  · have absent := fun words => smooth.leafEntry_words.mpr words found
    obtain ⟨panic,stopped⟩ := unmapPage_absent absent
    rw [stopped] at ok
    cases ok
  · obtain ⟨pml4,pdp,pd,pt⟩ := smooth.leafEntry_words.mp found
    obtain ⟨pdpHere,pdHere,ptHere⟩ := smooth.tables_words pml4 pdp pd
    rw [unmapPage_present pml4 pdp pd pt] at ok
    rcases freeEmptyTables_outcome wf pdpHere (and_pointerMask_aligned _) pdHere (and_pointerMask_aligned _) ptHere
        (and_pointerMask_aligned _) pt with ⟨path,ended,done,pruned,settled⟩ | ⟨stopped,_⟩
    · rw [done] at ok
      cases ok
      exact ⟨path,pruned,settled⟩
    · rw [ok] at stopped
      exact absurd stopped (not_stops_ok () final)

theorem unmapPage_stops_iff (wf : machine.WellFormed state) (smooth : machine.Smooth state vaddr)
    (owned : machine.Owned state) :
    Stops (unmapPage state vaddr machine) ↔ machine.leafEntry state vaddr = none := by
  by_cases found : machine.leafEntry state vaddr = none
  · have absent := fun words => smooth.leafEntry_words.mpr words found
    obtain ⟨panic,stopped⟩ := unmapPage_absent absent
    rw [stopped]
    exact iff_of_true (.error _ _) found
  · obtain ⟨pml4,pdp,pd,pt⟩ := smooth.leafEntry_words.mp found
    obtain ⟨pdpHere,pdHere,ptHere⟩ := smooth.tables_words pml4 pdp pd
    rw [unmapPage_present pml4 pdp pd pt]
    refine iff_of_false ?_ found
    rcases freeEmptyTables_outcome wf pdpHere (and_pointerMask_aligned _) pdHere (and_pointerMask_aligned _) ptHere
        (and_pointerMask_aligned _) pt with ⟨path,ended,done,_⟩ | ⟨_,path,reached,table,pruned,here,unheld⟩
    · intro stopped
      exact not_stops_ok () ended (done ▸ stopped)
    · have held := Edited.preserves wf (fun _ _ wf edit => edit.owned wf) pruned.edited owned
      exact absurd (held path table here) unheld

end Paging

inductive Request where
  | map (virtualAddress physicalAddress : Word) (flags : List Flag)
  | unmap (virtualAddress : Word)

def Request.perform (state : State) : Request → KernelM Unit
  | .map virtualAddress physicalAddress flags => mapPage state virtualAddress physicalAddress (Flag.union flags)
  | .unmap virtualAddress => unmapPage state virtualAddress

def Request.address : Request → Word
  | .map virtualAddress _ _ => virtualAddress
  | .unmap virtualAddress => virtualAddress

/-- A call that returns, on an address whose walk meets no huge leaf, is a
sequence of edits. -/
theorem Request.edited {machine final : Machine} {state : State} {request : Request} (wf : machine.WellFormed state)
    (smooth : machine.Smooth state request.address) (ok : request.perform state machine = .ok () final) :
    Machine.Edited state machine final := by
  cases request with
  | map virtualAddress physicalAddress flags =>
    obtain ⟨_,_,reached,table,down,here,_,rfl⟩ := mapPage_ok wf smooth ok
    exact down.edited.tail (.leaf here rfl (Or.inr (present_leafWord physicalAddress (Flag.union flags))))
  | unmap virtualAddress =>
    obtain ⟨path,pruned,_⟩ := unmapPage_ok wf smooth ok
    exact pruned.edited

end BorealOS.Memory
