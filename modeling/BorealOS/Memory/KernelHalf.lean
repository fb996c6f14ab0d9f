import BorealOS.Memory.TableOwnership

/-! The upper half of the top-level table. `ReserveHigherHalfPML4Slots` fills its
empty entries with fresh empty tables, which changes no translation, and no later
call of `MapPage` or `UnmapPage` touches an entry of it. -/
namespace BorealOS.Memory

open TableTree Execution Paging

namespace Machine

variable {machine next : Machine} {state : State}

/-- A fresh table is empty, so linking it changes no translation. -/
theorem walk_linked (wf : machine.WellFormed state) {path : List (Fin 512)} {table fresh : Nat} {index : Fin 512}
    (here : machine.tables state path = some table) (short : path.length < 3)
    (empty : machine.memory table index = 0) (free : fresh ∈ machine.pmm.freeFrames) {flags : Word}
    (apart : flags &&& pointerMask = 0) (set : present flags = true) (flat : huge flags = false) (vaddr : Word) :
    (machine.linked table index fresh flags).walk state vaddr = machine.walk state vaddr := by
  by_cases onWay : path ++ [index] <+: directoryPath vaddr
  · have before : machine.walk state vaddr = none := by
      rcases walk_step here onWay with there | ⟨_,_,ends⟩ | ⟨set,_⟩
      · rw [tables_snoc here,empty] at there
        simp at there
      · exact ends
      · simp [empty] at set
    have new : (machine.linked table index fresh flags).tables state (path ++ [index]) = some fresh := by
      rw [tables_linked wf here short empty free apart set flat,Function.update_self]
    have level : 4 - (path ++ [index]).length = (2 - path.length) + 1 := by
      simp
      omega
    have different : fresh ≠ table := fun same => wf.not_free free path (same ▸ here)
    rw [before,walk_of_table new onWay,level,Hardware.walk_absent]
    rw [linked_memory_fresh different]
    exact present_zero
  · apply walk_congr
    intro other reached i there inside
    have old : reached ≠ fresh := fun same => wf.not_free free other (same ▸ there)
    apply linked_memory old
    rintro ⟨rfl,rfl⟩
    rw [wf.distinct other path _ there here] at inside
    refine onWay (List.prefix_of_prefix_length_le inside (List.prefix_append _ _) ?_)
    simp [directoryPath]
    omega

end Machine

namespace Paging

def reservedFlags : Word := Flag.present.bit ||| Flag.readWrite.bit

theorem reservedFlags_apart : reservedFlags &&& pointerMask = 0 := by decide

theorem reserveSlot_ok {machine next : Machine} {state : State} {index : Fin 512}
    (bounded : machine.pmm.frameCount.toNat ≤ 2^40) (ok : reserveSlot state index machine = .ok () next) :
    (present (machine.memory (frameNumber state.pml4) index) = true ∧ next = machine) ∨
    (present (machine.memory (frameNumber state.pml4) index) = false ∧ ∃ fresh ∈ machine.pmm.freeFrames,
      next = machine.linked (frameNumber state.pml4) index fresh reservedFlags) := by
  simp only [reserveSlot] at ok
  rw [bind_of_ok readEntry_apply] at ok
  cases set : present (machine.memory (frameNumber state.pml4) index) with
  | true =>
    rw [set] at ok
    cases ok
    exact Or.inl ⟨rfl,rfl⟩
  | false =>
    refine Or.inr ⟨rfl,?_⟩
    rw [if_pos (by simp [set])] at ok
    rcases allocatePage_cases machine with ⟨fresh,free,_,taken⟩ | ⟨_,nothing⟩
    · have small : fresh < 2^40 := Nat.lt_of_lt_of_le ((machine.pmm.mem_freeFrames fresh).mp free).1 bounded
      rw [bind_of_ok taken] at ok
      by_cases zero : frameAddress fresh = 0
      · rw [if_pos zero] at ok
        cases ok
      · rw [if_neg zero,bind_of_ok clearTable_apply,writeEntry_apply] at ok
        refine ⟨fresh,free,?_⟩
        cases ok
        simp only [Machine.withEntry,frameNumber_frameAddress small]
        rfl
    · rw [bind_of_ok nothing,if_pos rfl] at ok
      cases ok

/-- Each slot takes one frame at most, so enough free frames let the loop return and
the others are left. -/
theorem reserveSlots_return (state : State) (indices : List (Fin 512)) (machine : Machine)
    (bounded : machine.pmm.frameCount.toNat ≤ 2^40) (unused : 0 ∉ machine.pmm.freeFrames)
    (enough : indices.length ≤ machine.pmm.freeFrames.card) :
    ∃ reserved, runAll (reserveSlot state) indices machine = .ok () reserved ∧
      machine.pmm.freeFrames.card ≤ reserved.pmm.freeFrames.card + indices.length := by
  induction indices generalizing machine with
  | nil => exact ⟨machine,rfl,by simp⟩
  | cons index indices ih =>
    have room : indices.length + 1 ≤ machine.pmm.freeFrames.card := enough
    have returns : ∃ next, reserveSlot state index machine = .ok () next := by
      simp only [reserveSlot]
      rw [bind_of_ok readEntry_apply]
      cases set : present (machine.memory (frameNumber state.pml4) index) with
      | true => exact ⟨machine,rfl⟩
      | false =>
        rw [if_pos (by simp)]
        rcases allocatePage_cases machine with ⟨fresh,free,_,taken⟩ | ⟨none,_⟩
        · have small : fresh < 2^40 := Nat.lt_of_lt_of_le ((machine.pmm.mem_freeFrames fresh).mp free).1 bounded
          have nonzero : frameAddress fresh ≠ 0 := fun zero =>
            unused ((frameAddress_eq_zero small).mp zero ▸ free)
          rw [bind_of_ok taken,if_neg nonzero,bind_of_ok clearTable_apply,writeEntry_apply]
          exact ⟨_,rfl⟩
        · rw [none,Finset.card_empty] at room
          omega
    obtain ⟨next,first⟩ := returns
    have rest : ∃ reserved, runAll (reserveSlot state) indices next = .ok () reserved ∧
        machine.pmm.freeFrames.card ≤ reserved.pmm.freeFrames.card + indices.length + 1 := by
      rcases reserveSlot_ok bounded first with ⟨_,rfl⟩ | ⟨_,fresh,free,rfl⟩
      · obtain ⟨reserved,second,left⟩ := ih next bounded unused (by omega)
        exact ⟨reserved,second,by omega⟩
      · have one := Finset.card_erase_add_one free
        have erased := machine.freeFrames_linked (frameNumber state.pml4) index fresh reservedFlags
        obtain ⟨reserved,second,left⟩ := ih (machine.linked (frameNumber state.pml4) index fresh reservedFlags) bounded
          (by rw [erased]; exact fun member => unused (Finset.mem_of_mem_erase member)) (by rw [erased]; omega)
        rw [erased] at left
        exact ⟨reserved,second,by omega⟩
    obtain ⟨reserved,second,left⟩ := rest
    exact ⟨reserved,(runAll_cons_ok _ _ _ _ _).mpr ⟨next,first,second⟩,left⟩

theorem reserveHigherHalfPML4Slots_returns (state : State) {machine : Machine} {spare : Nat}
    (bounded : machine.pmm.frameCount.toNat ≤ 2^40) (unused : 0 ∉ machine.pmm.freeFrames)
    (enough : 256 + spare ≤ machine.pmm.freeFrames.card) :
    ∃ reserved, reserveHigherHalfPML4Slots state machine = .ok () reserved ∧ spare ≤ reserved.pmm.freeFrames.card := by
  have length : ((List.finRange 512).drop 256).length = 256 := by simp
  obtain ⟨reserved,run,left⟩ := reserveSlots_return state ((List.finRange 512).drop 256) machine bounded unused
    (by rw [length]; omega)
  rw [length] at left
  refine ⟨reserved,?_,by omega⟩
  rw [reserveHigherHalfPML4Slots,forM_eq_runAll]
  exact run

theorem mem_upperHalf (index : Fin 512) : index ∈ (List.finRange 512).drop 256 ↔ 256 ≤ index.val := by
  rw [List.mem_drop_iff_getElem]
  constructor
  · rintro ⟨i,inside,rfl⟩
    simp
  · intro high
    exact ⟨index.val - 256,by simp; omega,by ext; simp; omega⟩

end Paging

namespace Machine

variable {machine next : Machine} {state : State}

structure Reserving (initial : Machine) (state : State) (done : List (Fin 512)) (machine : Machine) : Prop where
  wellFormed : machine.WellFormed state
  walks : ∀ vaddr, machine.walk state vaddr = initial.walk state vaddr
  kept : ∀ index, index ∉ done ∨ present (initial.memory (frameNumber state.pml4) index) = true →
    machine.memory (frameNumber state.pml4) index = initial.memory (frameNumber state.pml4) index
  filled : ∀ index ∈ done, present (initial.memory (frameNumber state.pml4) index) = false →
    ∃ fresh ∈ initial.pmm.freeFrames, machine.tables state [index] = some fresh ∧
      machine.memory (frameNumber state.pml4) index = frameAddress fresh ||| reservedFlags ∧
      ∀ i, machine.memory fresh i = 0
  free : machine.pmm.freeFrames ⊆ initial.pmm.freeFrames
  elsewhere : ∀ frame, frame ∉ initial.pmm.freeFrames → frame ≠ frameNumber state.pml4 →
    ∀ i, machine.memory frame i = initial.memory frame i

section Reserving
variable {initial : Machine} {done : List (Fin 512)} {index : Fin 512} (new : index ∉ done)
  (reserving : Reserving initial state done machine)
include new reserving

omit new in
theorem Reserving.kept_before {other : Fin 512}
    (cond : other ∉ done ++ [index] ∨ present (initial.memory (frameNumber state.pml4) other) = true) :
    machine.memory (frameNumber state.pml4) other = initial.memory (frameNumber state.pml4) other := by
  apply reserving.kept
  rcases cond with apart | present
  · exact Or.inl fun member => apart (List.mem_append_left _ member)
  · exact Or.inr present

theorem Reserving.skip (set : present (machine.memory (frameNumber state.pml4) index) = true) :
    Reserving initial state (done ++ [index]) machine := by
  refine ⟨reserving.wellFormed,reserving.walks,fun _ => reserving.kept_before,?_,reserving.free,reserving.elsewhere⟩
  intro other member unset
  rcases List.mem_append.mp member with before | here
  · exact reserving.filled other before unset
  · rw [List.mem_singleton.mp here,← reserving.kept index (Or.inl new),set] at unset
    cases unset

section Link
variable (unset : present (machine.memory (frameNumber state.pml4) index) = false) {fresh : Nat}
  (free : fresh ∈ machine.pmm.freeFrames)
include unset free

omit new in
theorem Reserving.linked : (machine.linked (frameNumber state.pml4) index fresh reservedFlags).WellFormed state ∧
    (machine.linked (frameNumber state.pml4) index fresh reservedFlags).tables state =
      Function.update (machine.tables state) [index] (some fresh) ∧
    ∀ vaddr, (machine.linked (frameNumber state.pml4) index fresh reservedFlags).walk state vaddr =
      machine.walk state vaddr := by
  have wf := reserving.wellFormed
  have here : machine.tables state [] = some (frameNumber state.pml4) := rfl
  have empty := (wf.entry_clean here index).resolve_right (by simp [unset])
  have set : present reservedFlags = true := by decide
  have flat : huge reservedFlags = false := by decide
  have short : ([] : List (Fin 512)).length < 3 := by decide
  exact ⟨wf.linked here short empty free reservedFlags_apart set flat,
    tables_linked wf here short empty free reservedFlags_apart set flat,
    walk_linked wf here short empty free reservedFlags_apart set flat⟩

/-- The slots filled before stand apart from the new one and its table. -/
theorem Reserving.filled_before {other : Fin 512} (before : other ∈ done)
    (absent : present (initial.memory (frameNumber state.pml4) other) = false) :
    ∃ earlier ∈ initial.pmm.freeFrames,
      (machine.linked (frameNumber state.pml4) index fresh reservedFlags).tables state [other] = some earlier ∧
      (machine.linked (frameNumber state.pml4) index fresh reservedFlags).memory (frameNumber state.pml4) other =
        frameAddress earlier ||| reservedFlags ∧
      ∀ i, (machine.linked (frameNumber state.pml4) index fresh reservedFlags).memory earlier i = 0 := by
  have wf := reserving.wellFormed
  have rootDifferent : frameNumber state.pml4 ≠ fresh := fun equal => wf.not_free free [] (equal ▸ tables_nil)
  obtain ⟨earlier,wasFree,there,word,zeroes⟩ := reserving.filled other before absent
  have different : other ≠ index := fun equal => new (equal ▸ before)
  have older : earlier ≠ fresh := fun equal => wf.not_free free [other] (equal ▸ there)
  have below : earlier ≠ frameNumber state.pml4 := by
    intro equal
    cases wf.distinct _ _ _ there (equal ▸ tables_nil)
  refine ⟨earlier,wasFree,?_,?_,?_⟩
  · rw [(reserving.linked unset free).2.1,Function.update_of_ne (by simpa using different)]
    exact there
  · rw [linked_memory rootDifferent fun both => different both.2]
    exact word
  · intro i
    rw [linked_memory older fun both => below both.1]
    exact zeroes i

theorem Reserving.link :
    Reserving initial state (done ++ [index]) (machine.linked (frameNumber state.pml4) index fresh reservedFlags) := by
  obtain ⟨wellFormed,tables,walks⟩ := reserving.linked unset free
  have rootDifferent : frameNumber state.pml4 ≠ fresh := fun equal =>
    reserving.wellFormed.not_free free [] (equal ▸ tables_nil)
  refine ⟨wellFormed,fun vaddr => (walks vaddr).trans (reserving.walks vaddr),?_,?_,?_,?_⟩
  · intro other cond
    have different : other ≠ index := by
      rintro rfl
      rcases cond with apart | set
      · exact apart (List.mem_append_right _ (List.mem_singleton.mpr rfl))
      · rw [← reserving.kept other (Or.inl new),unset] at set
        cases set
    rw [linked_memory rootDifferent fun both => different both.2]
    exact reserving.kept_before cond
  · intro other member absent
    rcases List.mem_append.mp member with before | last
    · exact reserving.filled_before new unset free before absent
    · have equal := List.mem_singleton.mp last
      subst equal
      refine ⟨fresh,reserving.free free,?_,write_here _ _ _ _,fun i => linked_memory_fresh (Ne.symm rootDifferent) i⟩
      rw [tables]
      exact Function.update_self _ _ _
  · rw [freeFrames_linked]
    exact (Finset.erase_subset _ _).trans reserving.free
  · intro frame used different i
    have older : frame ≠ fresh := fun equal => used (equal ▸ reserving.free free)
    rw [linked_memory older fun both => different both.1]
    exact reserving.elsewhere frame used different i

end Link

theorem Reserving.step (ok : reserveSlot state index machine = .ok () next) : Reserving initial state (done ++ [index]) next := by
  rcases reserveSlot_ok reserving.wellFormed.bounded ok with ⟨set,rfl⟩ | ⟨unset,fresh,free,rfl⟩
  · exact reserving.skip new set
  · exact reserving.link new unset free

end Reserving

theorem reserving_of_ok {reserved : Machine} (wf : machine.WellFormed state)
    (ok : reserveHigherHalfPML4Slots state machine = .ok () reserved) :
    Reserving machine state ((List.finRange 512).drop 256) reserved := by
  rw [reserveHigherHalfPML4Slots,forM_eq_runAll] at ok
  have start : Reserving machine state [] machine :=
    ⟨wf,fun _ => rfl,fun _ _ => rfl,by simp,Finset.Subset.refl _,fun _ _ _ _ => rfl⟩
  have loop := runAll_loop _ (Reserving machine state)
    (fun done index before after new reserving step => reserving.step new step) [] _ machine reserved
    ((List.nodup_finRange 512).sublist (List.drop_sublist 256 _)) start ok
  rwa [List.nil_append] at loop

theorem Reserving.upperHalf (wf : machine.WellFormed state) {reserved : Machine}
    (reserving : Reserving machine state ((List.finRange 512).drop 256) reserved) : reserved.UpperHalfPresent state := by
  intro index high
  cases set : present (machine.memory (frameNumber state.pml4) index) with
  | true => rw [reserving.kept index (Or.inr set),set]
  | false =>
    obtain ⟨fresh,free,_,word,_⟩ := reserving.filled index ((mem_upperHalf index).mpr high) set
    rw [word]
    exact (tableEntry_spec (wf.fresh_small free) (by decide) (by decide)).1

/-- The loop only links fresh tables at empty entries of the upper half. -/
theorem WellFormed.reserved {reserved : Machine} (wf : machine.WellFormed state) (invariant : Machine → Prop)
    (step : ∀ (before : Machine) (index : Fin 512) (fresh : Nat), before.WellFormed state → 256 ≤ index.val →
      before.memory (frameNumber state.pml4) index = 0 → fresh ∈ before.pmm.freeFrames → invariant before →
      invariant (before.linked (frameNumber state.pml4) index fresh reservedFlags))
    (ok : reserveHigherHalfPML4Slots state machine = .ok () reserved) (start : invariant machine) : invariant reserved := by
  rw [reserveHigherHalfPML4Slots,forM_eq_runAll] at ok
  have upper : ∀ index ∈ (List.finRange 512).drop 256, 256 ≤ index.val := fun index => (mem_upperHalf index).mp
  generalize (List.finRange 512).drop 256 = slots at ok upper
  have permitted := permitted_of_forall (reserveSlot state) slots (fun index member (_ : Machine) => upper index member) machine
  refine (runAll_preserves _ (fun reached => reached.WellFormed state ∧ invariant reached) _ ?_ _ machine reserved permitted
    ⟨wf,start⟩ ok).2
  rintro index before after high ⟨wellFormed,holds⟩ ran
  rcases reserveSlot_ok wellFormed.bounded ran with ⟨_,rfl⟩ | ⟨unset,fresh,free,rfl⟩
  · exact ⟨wellFormed,holds⟩
  · have here : before.tables state [] = some (frameNumber state.pml4) := rfl
    have empty := (wellFormed.entry_clean here index).resolve_right (by simp [unset])
    exact ⟨wellFormed.linked here (by decide) empty free reservedFlags_apart (by decide) (by decide),
      step before index fresh wellFormed high empty free holds⟩

theorem Owned.reserved {reserved : Machine} (owned : machine.Owned state) (wf : machine.WellFormed state)
    (ok : reserveHigherHalfPML4Slots state machine = .ok () reserved) : reserved.Owned state :=
  wf.reserved (fun machine => machine.Owned state) (fun _ _ _ before _ empty free owned =>
    owned.linked before tables_nil (by decide) empty free reservedFlags_apart (by decide) (by decide)) ok owned

theorem Flat.reserved {reserved : Machine} (flat : machine.Flat state) (wf : machine.WellFormed state)
    (ok : reserveHigherHalfPML4Slots state machine = .ok () reserved) : reserved.Flat state :=
  wf.reserved (fun machine => machine.Flat state) (fun _ _ _ before _ empty free flat =>
    flat.linked before tables_nil (by decide) empty free reservedFlags_apart (by decide) (by decide)) ok flat

theorem Compact.reserved {reserved : Machine} (compact : machine.Compact state) (wf : machine.WellFormed state)
    (ok : reserveHigherHalfPML4Slots state machine = .ok () reserved) : reserved.Compact state := by
  refine wf.reserved (fun machine => machine.Compact state) (fun before index fresh wf high empty free compact => ?_)
    ok compact
  have here : before.tables state [] = some (frameNumber state.pml4) := rfl
  have tables := tables_linked wf here (by decide) empty free reservedFlags_apart (by decide) (by decide)
  intro path table there freeable
  rw [tables,Function.update_apply] at there
  split at there
  · rename_i new
    simp [Freeable,new] at freeable
    omega
  · rename_i old
    obtain ⟨i,entry,read,set⟩ := compact path table there freeable
    refine ⟨i,entry,?_,set⟩
    have below : path ≠ [] := by
      rintro rfl
      simp [Freeable] at freeable
    rw [entryAt_linked wf here (by decide) empty free reservedFlags_apart (by decide) (by decide),
      if_neg fun both => below both.1,if_neg old]
    exact read

theorem Regular.reserved {reserved : Machine} (regular : machine.Regular state)
    (ok : reserveHigherHalfPML4Slots state machine = .ok () reserved) : reserved.Regular state where
  wellFormed := (reserving_of_ok regular.wellFormed ok).wellFormed
  owned := regular.owned.reserved regular.wellFormed ok
  flat := regular.flat.reserved regular.wellFormed ok
  zeroReserved := regular.wellFormed.reserved (fun machine => machine.pmm.reserved 0 = true)
    (fun _ _ _ _ _ _ _ zeroReserved => zeroReserved) ok regular.zeroReserved

/-- From a regular machine on no call meets a huge leaf. -/
theorem Regular.permitted (regular : machine.Regular state) (requests : List Request) :
    Permitted (Request.perform state) (fun request reached => reached.Smooth state request.address) requests machine := by
  induction requests generalizing machine with
  | nil => trivial
  | cons request requests ih =>
    refine ⟨regular.flat.smooth _,fun next ok => ih ?_⟩
    exact regular.edited (request.edited regular.wellFormed (regular.flat.smooth _) ok)

/-- No edit touches a present entry of the upper half or frees the table below it. -/
structure KeepsUpperHalf (initial : Machine) (state : State) (machine : Machine) : Prop where
  words : ∀ index : Fin 512, 256 ≤ index.val →
    machine.memory (frameNumber state.pml4) index = initial.memory (frameNumber state.pml4) index
  freed : ∃ later, machine.freed = initial.freed ++ later ∧ ∀ address ∈ later, ∀ index : Fin 512, 256 ≤ index.val →
    frameNumber address ≠ frameOf (initial.memory (frameNumber state.pml4) index)

theorem UpperHalfPresent.table (upper : machine.UpperHalfPresent state) {index : Fin 512} (high : 256 ≤ index.val) :
    machine.tables state [index] = some (frameOf (machine.memory (frameNumber state.pml4) index)) := by
  have down := tables_snoc (show machine.tables state [] = _ from rfl) index
  have leads : child 4 (machine.memory (frameNumber state.pml4) index) =
      some (frameOf (machine.memory (frameNumber state.pml4) index)) := by
    simp [child,upper index high]
  exact down.trans leads

theorem Edit.upperHalf {initial : Machine} (wf : machine.WellFormed state) (upper : initial.UpperHalfPresent state)
    (edit : Edit state machine next) (keeps : KeepsUpperHalf initial state machine) :
    KeepsUpperHalf initial state next := by
  have root : machine.tables state [] = some (frameNumber state.pml4) := rfl
  have present : machine.UpperHalfPresent state := fun index high => by
    rw [keeps.words index high]
    exact upper index high
  cases edit with
  | @link path slot table fresh here short empty free =>
    refine ⟨?_,keeps.freed⟩
    intro index high
    have different : frameNumber state.pml4 ≠ fresh := fun equal => wf.not_free free [] (equal ▸ root)
    rw [← keeps.words index high]
    apply Machine.linked_memory different
    rintro ⟨rfl,rfl⟩
    have set := present index high
    simp [empty] at set
  | @leaf path slot table entry here bottom set =>
    refine ⟨?_,keeps.freed⟩
    intro index high
    rw [← keeps.words index high]
    change TableTree.write machine.memory table slot entry _ index = _
    rw [write_at wf.distinct here root,if_neg]
    rintro ⟨rfl,_⟩
    simp at bottom
  | @unlink path slot table address here below empty held lower =>
    constructor
    · intro index high
      rw [← keeps.words index high]
      change TableTree.write machine.memory table slot 0 _ index = _
      rw [write_at wf.distinct here root,if_neg]
      rintro ⟨rfl,rfl⟩
      exact absurd (lower rfl) (by omega)
    · obtain ⟨later,history,apart⟩ := keeps.freed
      refine ⟨later ++ [address],?_,?_⟩
      · change machine.freed ++ [address] = _
        rw [history,List.append_assoc]
      · intro other member index high
        rcases List.mem_append.mp member with before | last
        · exact apart other before index high
        · rw [List.mem_singleton.mp last,← keeps.words index high]
          intro equal
          have same := wf.distinct _ _ _ below (equal ▸ present.table high)
          obtain ⟨rfl,rfl⟩ : path = [] ∧ slot = index := by
            cases path with
            | nil => exact ⟨rfl,by simpa using same⟩
            | cons a path => simp at same
          exact absurd (lower rfl) (by omega)

end Machine

/-- The kernel's half of the top-level table is fixed once built. -/
theorem kernelHalf_fixed (machine reserved : Machine) (state : State) (wf : machine.WellFormed state)
    (ok : reserveHigherHalfPML4Slots state machine = .ok () reserved) :
    (∀ vaddr, reserved.translate state vaddr = machine.translate state vaddr) ∧
    (∀ index, present (machine.memory (frameNumber state.pml4) index) = true →
      reserved.memory (frameNumber state.pml4) index = machine.memory (frameNumber state.pml4) index) ∧
    (∀ index : Fin 512, 256 ≤ index.val → present (reserved.memory (frameNumber state.pml4) index) = true) ∧
    (∀ index : Fin 512, 256 ≤ index.val → present (machine.memory (frameNumber state.pml4) index) = false →
      ∃ pdp ∈ machine.pmm.freeFrames, frameOf (reserved.memory (frameNumber state.pml4) index) = pdp ∧
        (∀ path, reserved.tables state path = some pdp ↔ path = [index]) ∧
        (∀ i, reserved.memory pdp i = 0) ∧ reserved.pmm.allocated pdp = true) ∧
    (∀ requests final, Permitted (Request.perform state) (fun request reached => reached.Smooth state request.address)
        requests reserved → runAll (Request.perform state) requests reserved = .ok () final →
      (∀ index : Fin 512, 256 ≤ index.val →
        final.memory (frameNumber state.pml4) index = reserved.memory (frameNumber state.pml4) index ∧
        final.pmm.allocated (frameOf (reserved.memory (frameNumber state.pml4) index)) = true) ∧
      ∃ later, final.freed = reserved.freed ++ later ∧ ∀ address ∈ later, ∀ index : Fin 512, 256 ≤ index.val →
        frameNumber address ≠ frameOf (reserved.memory (frameNumber state.pml4) index)) := by
  have loop := Machine.reserving_of_ok wf ok
  have upper := loop.upperHalf wf
  refine ⟨?_,fun index set => loop.kept index (Or.inr set),upper,?_,?_⟩
  · intro vaddr
    rw [Machine.translate,Machine.translate,loop.walks]
  · intro index high unset
    obtain ⟨pdp,free,there,word,zeroes⟩ := loop.filled index ((mem_upperHalf index).mpr high) unset
    refine ⟨pdp,free,?_,?_,zeroes,(loop.wellFormed.allocated _ _ there).2⟩
    · rw [word]
      exact (tableEntry_spec (wf.fresh_small free) (by decide) (by decide)).2.2.2
    · intro path
      constructor
      · intro other
        exact loop.wellFormed.distinct _ _ _ other there
      · rintro rfl
        exact there
  · intro requests final smooth run
    have kept := runAll_preserves _
      (fun reached => reached.WellFormed state ∧ Machine.KeepsUpperHalf reserved state reached) _ ?_
      requests reserved final smooth ⟨loop.wellFormed,fun _ _ => rfl,[],by simp,by simp⟩ run
    · obtain ⟨finalWf,keeps⟩ := kept
      refine ⟨?_,keeps.freed⟩
      intro index high
      have present : final.UpperHalfPresent state := fun other high' => by
        rw [keeps.words other high']
        exact upper other high'
      have there := present.table high
      rw [keeps.words index high] at there
      exact ⟨keeps.words index high,(finalWf.allocated _ _ there).2⟩
    · rintro request reached next smooth ⟨reachedWf,keeps⟩ step
      have edited := request.edited reachedWf smooth step
      exact ⟨Machine.Edited.wellFormed reachedWf edited,
        Machine.Edited.preserves reachedWf (fun _ _ wf edit => edit.upperHalf wf upper) edited keeps⟩

def blankMachine : Machine := { emptyMachine with pmm := kernelHalfManager }

theorem blankMachine_wellFormed : blankMachine.WellFormed topAtFrameOne where
  distinct := emptyMachine_regular.wellFormed.distinct
  allocated := by
    intro path table here
    obtain ⟨_,rfl⟩ := emptyMachine_tables here
    exact ⟨by decide,by decide⟩
  clean := emptyMachine_regular.wellFormed.clean
  bounded := by decide

theorem blankMachine_regular : blankMachine.Regular topAtFrameOne where
  wellFormed := blankMachine_wellFormed
  owned := by
    intro path table here
    obtain ⟨_,rfl⟩ := emptyMachine_tables here
    exact ⟨by decide,by decide,by decide⟩
  flat := emptyMachine_regular.flat
  zeroReserved := by decide

theorem blankMachine_reserved : ∃ reserved, reserveHigherHalfPML4Slots topAtFrameOne blankMachine = .ok () reserved ∧
    3 ≤ reserved.pmm.freeFrames.card :=
  reserveHigherHalfPML4Slots_returns topAtFrameOne blankMachine_wellFormed.bounded blankMachine_regular.zero_not_free
    (by decide +kernel)

/-- All 256 entries of the upper half are filled and no address is translated. A page of
each half is then mapped and unmapped again, which empties the first reserved table. -/
theorem kernelHalf_fixed_blank : ∃ reserved upper lower,
    reserveHigherHalfPML4Slots topAtFrameOne blankMachine = .ok () reserved ∧
    (∀ index : Fin 512, 256 ≤ index.val → present (reserved.memory 1 index) = true) ∧
    reserved.translate topAtFrameOne 0xFFFF800000000000 = none ∧
    runAll (Request.perform topAtFrameOne) [.map 0xFFFF800000000000 0x7000 [.readWrite],.unmap 0xFFFF800000000000]
      reserved = .ok () upper ∧
    upper.memory 1 256 = reserved.memory 1 256 ∧ upper.pmm.allocated (frameOf (reserved.memory 1 256)) = true ∧
    runAll (Request.perform topAtFrameOne) [.map 0x400000 0x7000 [.user],.unmap 0x400000] reserved = .ok () lower ∧
    lower.memory 1 511 = reserved.memory 1 511 := by
  obtain ⟨reserved,ok,room⟩ := blankMachine_reserved
  have regular := blankMachine_regular.reserved ok
  obtain ⟨walks,_,present,_,later⟩ := kernelHalf_fixed blankMachine reserved topAtFrameOne blankMachine_wellFormed ok
  have returns (vaddr : Word) (flags : List Flag) (aligned : vaddr.toNat % 4096 = 0)
      (none : blankMachine.translate topAtFrameOne vaddr = none) :
      ∃ final, runAll (Request.perform topAtFrameOne) [.map vaddr 0x7000 flags,.unmap vaddr] reserved = .ok () final := by
    have translated := (walks vaddr).trans none
    rw [Machine.translate,(regular.flat.smooth vaddr).walk_eq,Option.map_map,Option.map_eq_none_iff] at translated
    exact map_unmap_returns regular (regular.maps _ aligned (by decide) translated room)
  obtain ⟨upper,first⟩ := returns 0xFFFF800000000000 [.readWrite] (by decide) (by decide)
  obtain ⟨lower,second⟩ := returns 0x400000 [.user] (by decide) (by decide)
  obtain ⟨kept,_⟩ := later _ upper (regular.permitted _) first
  obtain ⟨kept',_⟩ := later _ lower (regular.permitted _) second
  have translated := (walks 0xFFFF800000000000).trans (by decide : blankMachine.translate topAtFrameOne _ = none)
  exact ⟨reserved,upper,lower,ok,present,translated,first,(kept 256 (by decide)).1,(kept 256 (by decide)).2,second,
    (kept' 511 (by decide)).1⟩

end BorealOS.Memory
