import BorealOS.Memory.SoftwareWalk
import BorealOS.Memory.Mapping

/-! The copy of the boot loader's page tables. `DeepCopyPageTables` builds a tree
that mirrors the original in frames of its own, and the processor walks a mirror
like the original. Only the tables that `CopyExistingPageTableToNew` allocates
itself keep what stood in their frames before. -/
namespace BorealOS.Memory

open TableTree Execution Paging

def SameLeaf (entry copy : Word) : Prop :=
  present copy = present entry ∧ (present entry = true → copy = entry)

/-- A leaf copy where an absent entry has left nothing. -/
def ExactLeaf (entry copy : Word) : Prop := copy = if present entry then entry else 0

def SameFlags (entry copy : Word) : Prop := copy &&& flagsMask = entry &&& flagsMask

theorem ExactLeaf.sameLeaf (entry copy : Word) (exact : ExactLeaf entry copy) : SameLeaf entry copy := by
  cases set : present entry <;> simp [ExactLeaf,set] at exact <;> simp [SameLeaf,set,exact]

theorem Hardware.walk_mirror {source memory : PhysicalMemory} {own : Nat → Prop} {link : Word → Word → Prop} (vaddr : Word)
    {level : Nat} (low : level ≤ 4) {original table : Nat}
    (mirror : ∀ i, Mirror child SameLeaf link source memory own level (source original i) (memory table i)) :
    walk memory vaddr level table = walk source vaddr level original := by
  induction level generalizing original table with
  | zero => rfl
  | succ level ih =>
    rcases mirror (tableIndex vaddr (12 + 9 * level)) with ⟨ends,copyEnds,same,equal⟩ | ⟨next,copy,down,copyDown,_,_,below⟩
    · cases set : present (source original (tableIndex vaddr (12 + 9 * level))) with
      | false => rw [walk_absent set,walk_absent (same.trans set)]
      | true =>
        rw [walk_leaf set (by omega) ends,walk_leaf (same.trans set) (by omega) copyEnds,equal set]
    · rw [walk_child down,walk_child copyDown]
      exact ih (by omega) below

def tablesBelow (source : PhysicalMemory) : (level table : Nat) → Nat
  | 0, _ => 0
  | level + 1, table => ((List.finRange 512).map fun i =>
    (child (level + 1) (source table i)).elim 0 fun next => tablesBelow source level next + 1).sum

def tablesFor (source : PhysicalMemory) (level table : Nat) (i : Fin 512) : Nat :=
  (child (level + 1) (source table i)).elim 0 fun next => tablesBelow source level next + 1

theorem tablesBelow_succ (source : PhysicalMemory) (level table : Nat) : tablesBelow source (level + 1) table =
    ((List.finRange 512).map (tablesFor source level table)).sum := rfl

namespace Paging

/-- The body of the loop in `DeepCopyPageTables`. -/
def copyEntry (below : Nat) (srcPhys dstPhys : Word) (i : Fin 512) : KernelM Unit := do
  if present (← readEntry srcPhys i) then
    if (below + 1 = 3 ∨ below + 1 = 2) ∧ huge (← readEntry srcPhys i) then
      writeEntry dstPhys i (← readEntry srcPhys i)
    else if below + 1 = 1 then
      writeEntry dstPhys i (← readEntry srcPhys i)
    else
      let newTablePhys ← allocatePage
      clearTable newTablePhys
      writeEntry dstPhys i (newTablePhys ||| ((← readEntry srcPhys i) &&& flagsMask))
      deepCopyPageTables below ((← readEntry srcPhys i) &&& pointerMask) newTablePhys

theorem deepCopyPageTables_eq (below : Nat) (srcPhys dstPhys : Word) :
    deepCopyPageTables (below + 1) srcPhys dstPhys = runAll (copyEntry below srcPhys dstPhys) (List.finRange 512) := by
  rw [← forM_eq_runAll]
  rfl

section Entry
variable {machine : Machine} {below : Nat} {srcPhys dstPhys : Word} {i : Fin 512}

theorem copyEntry_absent (unset : present (machine.memory (frameNumber srcPhys) i) = false) :
    copyEntry below srcPhys dstPhys i machine = .ok () machine := by
  simp only [copyEntry]
  rw [bind_of_ok readEntry_apply,if_neg (by simp [unset])]
  rfl

theorem copyEntry_leaf (low : below ≤ 2) (set : present (machine.memory (frameNumber srcPhys) i) = true)
    (ends : child (below + 1) (machine.memory (frameNumber srcPhys) i) = none) :
    copyEntry below srcPhys dstPhys i machine =
      .ok () (machine.withEntry (frameNumber dstPhys) i (machine.memory (frameNumber srcPhys) i)) := by
  simp only [copyEntry]
  rw [bind_of_ok readEntry_apply,if_pos set,bind_of_ok readEntry_apply]
  by_cases leaf : (below + 1 = 3 ∨ below + 1 = 2) ∧ huge (machine.memory (frameNumber srcPhys) i) = true
  · rw [if_pos leaf,bind_of_ok readEntry_apply]
    rfl
  · rw [if_neg leaf]
    by_cases bottom : below + 1 = 1
    · rw [if_pos bottom,bind_of_ok readEntry_apply]
      rfl
    · have flat : huge (machine.memory (frameNumber srcPhys) i) = false := by
        rw [Bool.eq_false_iff]
        exact fun set => leaf ⟨by omega,set⟩
      rw [child_of_flat (by omega) set flat] at ends
      cases ends

theorem copyEntry_table (low : below ≤ 2) {next fresh : Nat}
    (down : child (below + 1) (machine.memory (frameNumber srcPhys) i) = some next)
    (taken : allocatePage machine = .ok (frameAddress fresh) { machine with pmm := machine.pmm.take fresh 1 })
    (small : fresh < 2^40) (apart : frameNumber srcPhys ≠ frameNumber dstPhys) (other : frameNumber srcPhys ≠ fresh) :
    copyEntry below srcPhys dstPhys i machine =
      deepCopyPageTables below (machine.memory (frameNumber srcPhys) i &&& pointerMask) (frameAddress fresh)
        (machine.linked (frameNumber dstPhys) i fresh (machine.memory (frameNumber srcPhys) i &&& flagsMask)) := by
  obtain ⟨set,high,flat,_⟩ := child_some down
  have inner : ¬ ((below + 1 = 3 ∨ below + 1 = 2) ∧ huge (machine.memory (frameNumber srcPhys) i) = true) := by
    rintro ⟨_,leaf⟩
    rw [flat (by omega)] at leaf
    cases leaf
  have middle : ¬ below + 1 = 1 := by omega
  simp only [copyEntry]
  rw [bind_of_ok readEntry_apply,if_pos set,bind_of_ok readEntry_apply,if_neg inner,if_neg middle,bind_of_ok taken,
    bind_of_ok clearTable_apply,bind_of_ok readEntry_apply,bind_of_ok writeEntry_apply,bind_of_ok readEntry_apply]
  simp only [Machine.withEntry,frameNumber_frameAddress small,fill_frame _ other,write_frame _ apart]
  rfl

end Entry

/-! The copied flags of an entry. -/

theorem flags_apart (entry : Word) : entry &&& flagsMask &&& pointerMask = 0 := by
  have masks : flagsMask &&& pointerMask = 0 := by decide
  rw [BitVec.and_assoc,masks]
  exact BitVec.and_zero

theorem present_flags (entry : Word) : present (entry &&& flagsMask) = present entry := by
  have bit : flagsMask.getLsbD 0 = true := by decide
  rw [present_eq,present_eq,BitVec.getLsbD_and,bit,Bool.and_true]

theorem huge_flags (entry : Word) : huge (entry &&& flagsMask) = huge entry := by
  have bit : flagsMask.getLsbD 7 = true := by decide
  rw [huge_eq,huge_eq,BitVec.getLsbD_and,bit,Bool.and_true]

theorem child_copied {level next fresh : Nat} {entry : Word} (small : fresh < 2^40)
    (down : child level entry = some next) :
    child level (frameAddress fresh ||| (entry &&& flagsMask)) = some fresh := by
  obtain ⟨set,high,flat,_⟩ := child_some down
  obtain ⟨isSet,sameHuge,_,frame⟩ := tableEntry_spec small (flags_apart entry) (by rw [present_flags,set])
  rw [huge_flags] at sameHuge
  have leads : (decide (level ≤ 3) && huge entry) = false := by
    by_cases low : level ≤ 3
    · simp [flat low]
    · simp [low]
  simp [child,isSet,high,sameHuge,leads,frame]

theorem sameFlags_copied {fresh : Nat} (small : fresh < 2^40) (entry : Word) :
    SameFlags entry (frameAddress fresh ||| (entry &&& flagsMask)) := by
  rw [SameFlags,BitVec.and_or_distrib_right,frameAddress_apart small,BitVec.and_assoc,BitVec.and_self]
  exact BitVec.zero_or

end Paging

/-! The loop over a table. The original tables stand in `source`, and `loader`
says which frames they are. -/

section Loop
variable (source : PhysicalMemory) (loader : (level table : Nat) → Prop)

/-- The original tables are whole, and frames for the copies are at hand. -/
structure Ready (machine : Machine) : Prop where
  tables : ∀ level table, loader level table → table ∉ machine.pmm.freeFrames ∧
    ∀ i, machine.memory table i = source table i
  zero : 0 ∉ machine.pmm.freeFrames
  bounded : machine.pmm.frameCount.toNat ≤ 2^40

/-- A present entry and its copy, where the words of the copied table that belong
to absent entries come from `blank`. -/
def Copied (store : PhysicalMemory) (own : Nat → Prop) (blank : PhysicalMemory) (level : Nat) (entry copy : Word) : Prop :=
  (child (level + 1) entry = none ∧ copy = entry) ∨
  ∃ next fresh, child (level + 1) entry = some next ∧ child (level + 1) copy = some fresh ∧ SameFlags entry copy ∧
    own fresh ∧ ∀ i,
      (present (source next i) = true →
        Mirror child ExactLeaf SameFlags source store own level (source next i) (store fresh i)) ∧
      (present (source next i) = false → store fresh i = blank fresh i)

/-- The loop over the table `original` of level `level + 1` stands between the
entries `done` and the entries `rest`. -/
structure Copying (blank : PhysicalMemory) (start : Machine) (level original dst spare : Nat)
    (done rest : List (Fin 512)) (machine : Machine) : Prop where
  ready : Ready source loader machine
  free : machine.pmm.freeFrames ⊆ start.pmm.freeFrames
  kept : ∀ frame, frame ≠ dst → (frame ∈ start.pmm.freeFrames → frame ∈ machine.pmm.freeFrames) →
    ∀ i, machine.memory frame i = start.memory frame i
  holes : ∀ i, (i ∈ done → present (source original i) = false) → machine.memory dst i = start.memory dst i
  copies : ∀ i ∈ done, present (source original i) = true → Copied source machine.memory
    (fun frame => frame ∈ start.pmm.freeFrames ∧ frame ∉ machine.pmm.freeFrames) blank level
    (source original i) (machine.memory dst i)
  enough : machine.pmm.freeFrames.card = (rest.map (tablesFor source level original)).sum + spare

/-- The tables below the entries `done` have copies of their own, in frames taken since
the start. -/
def Replicated (start : Machine) (level original dst : Nat) (done : List (Fin 512)) (machine : Machine) : Prop :=
  Replica child source machine.memory (level + 1) original dst (· ∈ done)
    fun frame => frame ∈ start.pmm.freeFrames ∧ frame ∉ machine.pmm.freeFrames

variable {source loader} {start machine : Machine} {blank : PhysicalMemory} {level original dst spare : Nat}
  {done rest : List (Fin 512)} {i : Fin 512}

theorem Copied.transfer {store store' : PhysicalMemory} {own own' : Nat → Prop} {entry copy : Word}
    (copied : Copied source store own blank level entry copy)
    (kept : ∀ frame, own frame → own' frame ∧ ∀ i, store' frame i = store frame i) :
    Copied source store' own' blank level entry copy := by
  rcases copied with ends | ⟨next,fresh,down,copyDown,flags,owned,below⟩
  · exact Or.inl ends
  · obtain ⟨still,same⟩ := kept fresh owned
    refine Or.inr ⟨next,fresh,down,copyDown,flags,still,fun i => ?_⟩
    rw [same i]
    exact ⟨fun set => ((below i).1 set).transfer kept,(below i).2⟩

theorem Copied.mirror {store : PhysicalMemory} {own : Nat → Prop} {entry copy : Word} {leaf : Word → Word → Prop}
    (copied : Copied source store own blank level entry copy) (set : present entry = true)
    (exactly : ∀ entry copy, ExactLeaf entry copy → leaf entry copy)
    (absent : ∀ next fresh i, child (level + 1) entry = some next → own fresh → present (source next i) = false →
      present (blank fresh i) = false ∧ leaf (source next i) (blank fresh i)) :
    Mirror child leaf SameFlags source store own (level + 1) entry copy := by
  rcases copied with ⟨ends,rfl⟩ | ⟨next,fresh,down,copyDown,flags,owned,below⟩
  · exact Or.inl ⟨ends,ends,exactly _ _ (if_pos set).symm⟩
  · refine Or.inr ⟨next,fresh,down,copyDown,flags,owned,fun i => ?_⟩
    obtain ⟨level,rfl⟩ : ∃ below, level = below + 1 := ⟨level - 1,by have := (child_some down).2.1; omega⟩
    cases isSet : present (source next i) with
    | true => exact ((below i).1 isSet).mono exactly
    | false =>
      obtain ⟨unset,same⟩ := absent next fresh i down owned isSet
      rw [(below i).2 isSet]
      exact Or.inl ⟨child_of_absent isSet,child_of_absent unset,same⟩

theorem Copying.begins (ready : Ready source loader start)
    (enough : start.pmm.freeFrames.card = (rest.map (tablesFor source level original)).sum + spare) :
    Copying source loader blank start level original dst spare [] rest start where
  ready := ready
  free := Finset.Subset.refl _
  kept := fun _ _ _ _ => rfl
  holes := fun _ _ => rfl
  copies := fun _ member => absurd member List.not_mem_nil
  enough := enough

theorem replicated_nothing : Replicated source start level original dst [] start :=
  replica_nothing _ _ _ fun _ => List.not_mem_nil

private theorem mem_snoc : (· ∈ done ++ [i]) = fun index => index ∈ done ∨ index = i := by
  funext index
  simp

theorem Replicated.skip {final : Machine} (replicated : Replicated source start level original dst done machine)
    (ends : child (level + 1) (source original i) = none) (new : i ∉ done) (outside : dst ∉ start.pmm.freeFrames)
    (manager : final.pmm = machine.pmm)
    (others : ∀ frame j, frame ≠ dst ∨ j ≠ i → final.memory frame j = machine.memory frame j) :
    Replicated source start level original dst (done ++ [i]) final := by
  rw [Replicated,mem_snoc,manager]
  refine (replicated.transfer (fun j member => others dst j (Or.inr fun same => new (same ▸ member))) ?_).skip ends
  rintro frame ⟨started,used⟩
  exact ⟨⟨started,used⟩,fun j => others frame j (Or.inl fun same => outside (same ▸ started))⟩

theorem Copying.skip (copying : Copying source loader blank start level original dst spare done (i::rest) machine)
    (unset : present (source original i) = false) :
    Copying source loader blank start level original dst spare (done ++ [i]) rest machine where
  ready := copying.ready
  free := copying.free
  kept := copying.kept
  holes := fun j hole => copying.holes j fun member => hole (List.mem_append_left _ member)
  copies := by
    intro j member set
    rcases List.mem_append.mp member with before | here
    · exact copying.copies j before set
    · rw [List.mem_singleton.mp here,unset] at set
      cases set
  enough := by
    have none : tablesFor source level original i = 0 := by simp [tablesFor,child_of_absent unset]
    have enough := copying.enough
    simpa [none] using enough

theorem Copying.leaf (copying : Copying source loader blank start level original dst spare done (i::rest) machine)
    (new : i ∉ done) (outside : dst ∉ start.pmm.freeFrames) (apart : ∀ level, ¬ loader level dst)
    (set : present (source original i) = true) (ends : child (level + 1) (source original i) = none) :
    Copying source loader blank start level original dst spare (done ++ [i]) rest
      (machine.withEntry dst i (source original i)) where
  ready := {
    tables := by
      intro level table original
      obtain ⟨taken,same⟩ := copying.ready.tables level table original
      refine ⟨taken,fun j => ?_⟩
      have different : table ≠ dst := fun equal => apart level (equal ▸ original)
      exact (write_frame _ different i j _).trans (same j)
    zero := copying.ready.zero
    bounded := copying.ready.bounded }
  free := copying.free
  kept := fun frame different still j => (write_frame _ different i j _).trans (copying.kept frame different still j)
  holes := by
    intro j hole
    have different : j ≠ i := by
      rintro rfl
      rw [hole (by simp)] at set
      cases set
    exact (write_index _ dst different _ dst).trans
      (copying.holes j fun member => hole (List.mem_append_left _ member))
  copies := by
    intro j member isSet
    rcases List.mem_append.mp member with before | here
    · have different : j ≠ i := fun same => new (same ▸ before)
      have word : (machine.withEntry dst i (source original i)).memory dst j = machine.memory dst j :=
        write_index _ dst different _ dst
      rw [word]
      apply (copying.copies j before isSet).transfer
      rintro frame ⟨free,taken⟩
      have elsewhere : frame ≠ dst := fun same => outside (same ▸ free)
      exact ⟨⟨free,taken⟩,fun k => write_frame _ elsewhere i k _⟩
    · have same := List.mem_singleton.mp here
      subst same
      exact Or.inl ⟨ends,write_here _ dst j _⟩
  enough := by
    have none : tablesFor source level original i = 0 := by simp [tablesFor,ends]
    have enough := copying.enough
    change machine.pmm.freeFrames.card = _
    simpa [none] using enough

section Table
variable {middle inner final : Machine} {next fresh : Nat} {leftover : PhysicalMemory} {left : Nat}
  (taken : middle.pmm.freeFrames = machine.pmm.freeFrames.erase fresh)
  (untouched : ∀ frame, frame ≠ dst → frame ≠ fresh → ∀ j, middle.memory frame j = machine.memory frame j)
  (below : Copying source loader leftover middle (level - 1) next fresh left (List.finRange 512) [] inner)
  (others : ∀ frame, frame ≠ dst → ∀ j, final.memory frame j = inner.memory frame j)
include taken untouched below others

private theorem stable_below (frame : Nat) (different : frame ≠ dst) (unlike : frame ≠ fresh)
    (still : frame ∈ machine.pmm.freeFrames → frame ∈ inner.pmm.freeFrames) (j : Fin 512) :
    final.memory frame j = machine.memory frame j := by
  rw [others frame different j,below.kept frame unlike ?_ j,untouched frame different unlike j]
  intro member
  rw [taken] at member
  exact still (Finset.mem_of_mem_erase member)

theorem Replicated.table (replicated : Replicated source start level original dst done machine)
    (free : machine.pmm.freeFrames ⊆ start.pmm.freeFrames) (new : i ∉ done) (outside : dst ∉ start.pmm.freeFrames)
    (down : child (level + 1) (source original i) = some next) (at_hand : fresh ∈ machine.pmm.freeFrames)
    (manager : final.pmm = inner.pmm) (copied : child (level + 1) (final.memory dst i) = some fresh)
    (elsewhere : ∀ j, j ≠ i → final.memory dst j = machine.memory dst j)
    (deeper : Replicated source middle (level - 1) next fresh (List.finRange 512) inner) :
    Replicated source start level original dst (done ++ [i]) final := by
  have high := (child_some down).2.1
  have erased : ∀ frame, frame ∈ middle.pmm.freeFrames → frame ≠ fresh ∧ frame ∈ machine.pmm.freeFrames := by
    intro frame member
    rw [taken] at member
    exact Finset.mem_erase.mp member
  have fewer : inner.pmm.freeFrames ⊆ machine.pmm.freeFrames := fun frame member => (erased frame (below.free member)).2
  have spent : fresh ∉ inner.pmm.freeFrames := fun still => (erased fresh (below.free still)).1 rfl
  have notHere : ∀ frame, frame ∈ start.pmm.freeFrames → frame ≠ dst := fun frame started same => outside (same ▸ started)
  have old := replicated.transfer (fun j member => elsewhere j fun same => new (same ▸ member))
    (fun frame owned => ⟨owned,stable_below taken untouched below others frame (notHere frame owned.1)
      (fun same => owned.2 (same ▸ at_hand)) fun member => absurd member owned.2⟩)
  have every : (· ∈ List.finRange 512) = fun _ => True := by
    funext index
    simp
  rw [Replicated,every,Nat.sub_add_cancel (show 1 ≤ level by omega)] at deeper
  have inside := deeper.transfer (fun j _ => others fresh (notHere fresh (free at_hand)) j)
    (fun frame owned => ⟨owned,others frame (notHere frame (free (erased frame owned.1).2))⟩)
  rw [Replicated,mem_snoc,manager]
  refine old.add down copied inside (fun owned => owned.2 at_hand) ?_ ?_
  · rintro frame ⟨owned,_⟩
    exact ⟨fun used => used.2 (erased frame owned).2,(erased frame owned).1⟩
  · rintro frame (⟨started,used⟩ | ⟨owned,used⟩ | rfl)
    · exact ⟨started,fun still => used (fewer still)⟩
    · exact ⟨free (erased frame owned).2,used⟩
    · exact ⟨free at_hand,spent⟩

end Table

/-- A table below gets a copy of its own in the frame `fresh`. The machine `middle`
has taken the frame, and the copy of the table ends in `inner`. -/
theorem Copying.table {middle inner final : Machine} {next fresh : Nat} {word : Word}
    {leftover : PhysicalMemory}
    (copying : Copying source loader blank start level original dst spare done (i::rest) machine)
    (new : i ∉ done) (outside : dst ∉ start.pmm.freeFrames) (apart : ∀ level, ¬ loader level dst)
    (down : child (level + 1) (source original i) = some next) (free : fresh ∈ machine.pmm.freeFrames)
    (taken : middle.pmm.freeFrames = machine.pmm.freeFrames.erase fresh)
    (untouched : ∀ frame, frame ≠ dst → frame ≠ fresh → ∀ j, middle.memory frame j = machine.memory frame j)
    (below : Copying source loader leftover middle (level - 1) next fresh
      ((rest.map (tablesFor source level original)).sum + spare) (List.finRange 512) [] inner)
    (zeroed : ∀ fresh j, leftover fresh j = 0)
    (manager : final.pmm = inner.pmm)
    (others : ∀ frame, frame ≠ dst → ∀ j, final.memory frame j = inner.memory frame j)
    (here : final.memory dst i = word) (copied : child (level + 1) word = some fresh)
    (flags : SameFlags (source original i) word)
    (elsewhere : ∀ j, j ≠ i → final.memory dst j = machine.memory dst j)
    (blanks : ∀ j, middle.memory fresh j = blank fresh j) :
    Copying source loader blank start level original dst spare (done ++ [i]) rest final := by
  have high := (child_some down).2.1
  have set := (child_some down).1
  have fewer : inner.pmm.freeFrames ⊆ machine.pmm.freeFrames :=
    (taken ▸ below.free).trans (Finset.erase_subset fresh _)
  have spent : fresh ∉ inner.pmm.freeFrames := by
    intro still
    have member := below.free still
    rw [taken] at member
    exact Finset.notMem_erase fresh _ member
  have fresh_ne : fresh ≠ dst := fun same => outside (copying.free (same ▸ free))
  have stable := stable_below taken untouched below others
  have ready : Ready source loader final := {
    tables := by
      intro level table original
      obtain ⟨used,same⟩ := below.ready.tables level table original
      have different : table ≠ dst := fun equal => apart level (equal ▸ original)
      exact ⟨manager ▸ used,fun j => (others table different j).trans (same j)⟩
    zero := manager ▸ below.ready.zero
    bounded := manager ▸ below.ready.bounded }
  refine ⟨ready,manager ▸ fewer.trans copying.free,?_,?_,?_,?_⟩
  · intro frame different still j
    rw [manager] at still
    have unlike : frame ≠ fresh := by
      rintro rfl
      exact spent (still (copying.free free))
    rw [stable frame different unlike (fun member => still (copying.free member)) j]
    exact copying.kept frame different (fun member => fewer (still member)) j
  · intro j hole
    have different : j ≠ i := by
      rintro rfl
      rw [hole (by simp)] at set
      cases set
    rw [elsewhere j different]
    exact copying.holes j fun member => hole (List.mem_append_left _ member)
  · intro j member isSet
    rw [manager]
    rcases List.mem_append.mp member with before | last
    · have different : j ≠ i := fun same => new (same ▸ before)
      rw [elsewhere j different]
      apply (copying.copies j before isSet).transfer
      rintro frame ⟨started,used⟩
      have unlike : frame ≠ fresh := fun same => used (same ▸ free)
      have notHere : frame ≠ dst := fun same => outside (same ▸ started)
      exact ⟨⟨started,fun still => used (fewer still)⟩,
        stable frame notHere unlike fun member => absurd member used⟩
    · have same := List.mem_singleton.mp last
      subst same
      refine Or.inr ⟨next,fresh,down,here ▸ copied,here ▸ flags,⟨copying.free free,spent⟩,
        fun k => ⟨fun isPresent => ?_,fun unset => ?_⟩⟩
      · have mirror := (below.copies k (List.mem_finRange k) isPresent).mirror isPresent (fun _ _ exactly => exactly)
          fun found other l _ _ unset => by
            rw [ExactLeaf,zeroed,if_neg (by simp [unset])]
            exact ⟨present_zero,rfl⟩
        have lower : level - 1 + 1 = level := by omega
        rw [lower,← others fresh fresh_ne] at mirror
        apply mirror.transfer
        rintro frame ⟨middleFree,used⟩
        have started : frame ∈ machine.pmm.freeFrames := by
          rw [taken] at middleFree
          exact Finset.mem_of_mem_erase middleFree
        have notHere : frame ≠ dst := fun same => outside (copying.free (same ▸ started))
        exact ⟨⟨copying.free started,used⟩,others frame notHere⟩
      · rw [others fresh fresh_ne,below.holes k fun _ => unset,blanks k]
  · rw [manager,below.enough]
    simp

theorem Copying.takes {next : Nat}
    (copying : Copying source loader blank start level original dst spare done (i::rest) machine)
    (down : child (level + 1) (source original i) = some next) :
    ∃ fresh ∈ machine.pmm.freeFrames, fresh < 2^40 ∧ fresh ≠ 0 ∧ (∀ level, ¬ loader level fresh) ∧
      allocatePage machine = .ok (frameAddress fresh) { machine with pmm := machine.pmm.take fresh 1 } ∧
      (machine.pmm.freeFrames.erase fresh).card =
        tablesBelow source level next + ((rest.map (tablesFor source level original)).sum + spare) := by
  have enough := copying.enough
  have one : tablesFor source level original i = tablesBelow source level next + 1 := by simp [tablesFor,down]
  rw [List.map_cons,List.sum_cons,one] at enough
  rcases allocatePage_cases machine with ⟨fresh,free,_,taken⟩ | ⟨none,_⟩
  · have inside := ((machine.pmm.mem_freeFrames fresh).mp free).1
    refine ⟨fresh,free,Nat.lt_of_lt_of_le inside copying.ready.bounded,?_,?_,taken,?_⟩
    · rintro rfl
      exact copying.ready.zero free
    · intro level original
      exact (copying.ready.tables level fresh original).1 free
    · have erased := Finset.card_erase_add_one free
      omega
  · rw [none,Finset.card_empty] at enough
    omega

/-- Taking a frame and writing to it and to no original table leaves the tables
as they are. -/
theorem Ready.taken {middle : Machine} {fresh : Nat} (ready : Ready source loader machine)
    (free : fresh ∈ machine.pmm.freeFrames) (apart : ∀ level, ¬ loader level dst)
    (taken : middle.pmm.freeFrames = machine.pmm.freeFrames.erase fresh)
    (count : middle.pmm.frameCount = machine.pmm.frameCount)
    (untouched : ∀ frame, frame ≠ dst → frame ≠ fresh → ∀ j, middle.memory frame j = machine.memory frame j) :
    Ready source loader middle where
  tables := by
    intro level table original
    obtain ⟨used,same⟩ := ready.tables level table original
    have different : table ≠ dst := fun equal => apart level (equal ▸ original)
    have unlike : table ≠ fresh := fun equal => used (equal ▸ free)
    rw [taken]
    exact ⟨fun member => used (Finset.mem_of_mem_erase member),fun j => (untouched table different unlike j).trans (same j)⟩
  zero := by
    rw [taken]
    exact fun member => ready.zero (Finset.mem_of_mem_erase member)
  bounded := by
    rw [count]
    exact ready.bounded

def Closed (source : PhysicalMemory) (loader : (level table : Nat) → Prop) : Prop :=
  ∀ level table i next, loader (level + 1) table → child (level + 1) (source table i) = some next → loader level next

theorem tablesBelow_congr {source' : PhysicalMemory} (closed : Closed source loader)
    (same : ∀ level table, loader level table → ∀ i, source' table i = source table i) {table : Nat}
    (here : loader level table) : tablesBelow source' level table = tablesBelow source level table := by
  induction level generalizing table with
  | zero => rfl
  | succ level ih =>
    have entries : tablesFor source' level table = tablesFor source level table := by
      funext i
      rw [tablesFor,tablesFor,same _ _ here i]
      cases down : child (level + 1) (source table i) with
      | none => rw [Option.elim_none,Option.elim_none]
      | some next => rw [Option.elim_some,Option.elim_some,ih (closed level table i next here down)]
    rw [tablesBelow_succ,tablesBelow_succ,entries]

/-- `DeepCopyPageTables` on a table of this level returns and has copied every
present entry, with a frame of its own for every table. -/
def CopiesTables (source : PhysicalMemory) (loader : (level table : Nat) → Prop) (level : Nat) : Prop :=
  ∀ (start : Machine) (srcPhys dstPhys : Word) (spare : Nat), Ready source loader start →
    loader level (frameNumber srcPhys) → frameNumber dstPhys ∉ start.pmm.freeFrames →
    (∀ level, ¬ loader level (frameNumber dstPhys)) →
    start.pmm.freeFrames.card = tablesBelow source level (frameNumber srcPhys) + spare →
    ∃ final, deepCopyPageTables level srcPhys dstPhys start = .ok () final ∧
      Copying source loader (fun _ _ => 0) start (level - 1) (frameNumber srcPhys) (frameNumber dstPhys) spare
        (List.finRange 512) [] final ∧
      Replicated source start (level - 1) (frameNumber srcPhys) (frameNumber dstPhys) (List.finRange 512) final

section Round
variable {below : Nat} (low : below ≤ 2) {srcPhys dstPhys : Word} (here : loader (below + 1) (frameNumber srcPhys))
  (outside : frameNumber dstPhys ∉ start.pmm.freeFrames) (apart : ∀ level, ¬ loader level (frameNumber dstPhys))
  (new : i ∉ done) (copying : Copying source loader (fun _ _ => 0) start below (frameNumber srcPhys)
    (frameNumber dstPhys) spare done (i::rest) machine)
  (replicated : Replicated source start below (frameNumber srcPhys) (frameNumber dstPhys) done machine)
include low here outside apart new copying replicated

private theorem copyEntry_copies_table (closed : Closed source loader) (deeper : CopiesTables source loader below)
    {next : Nat} (down : child (below + 1) (source (frameNumber srcPhys) i) = some next) :
    ∃ after, copyEntry below srcPhys dstPhys i machine = .ok () after ∧ Copying source loader (fun _ _ => 0) start
      below (frameNumber srcPhys) (frameNumber dstPhys) spare (done ++ [i]) rest after ∧
      Replicated source start below (frameNumber srcPhys) (frameNumber dstPhys) (done ++ [i]) after := by
  have word := (copying.ready.tables _ _ here).2 i
  obtain ⟨fresh,free,small,_,unused,taken,left⟩ := copying.takes down
  have frame := frameNumber_frameAddress small
  have source_ne : frameNumber srcPhys ≠ frameNumber dstPhys := fun same => apart _ (same ▸ here)
  have source_ne_fresh : frameNumber srcPhys ≠ fresh := fun same => unused _ (same ▸ here)
  have dst_ne : frameNumber dstPhys ≠ fresh := fun same => outside (copying.free (same ▸ free))
  have run := copyEntry_table low (word ▸ down) taken small source_ne source_ne_fresh
  rw [word] at run
  obtain ⟨middle,link⟩ : ∃ middle, middle = machine.linked (frameNumber dstPhys) i fresh
    (source (frameNumber srcPhys) i &&& flagsMask) := ⟨_,rfl⟩
  rw [← link] at run
  have erased : middle.pmm.freeFrames = machine.pmm.freeFrames.erase fresh := by
    rw [link,Machine.freeFrames_linked]
  have untouched : ∀ frame, frame ≠ frameNumber dstPhys → frame ≠ fresh → ∀ j,
      middle.memory frame j = machine.memory frame j := by
    intro frame notHere notFresh j
    rw [link]
    exact (write_frame _ notHere i j _).trans (fill_frame _ notFresh j 0)
  have onward : frameNumber (source (frameNumber srcPhys) i &&& pointerMask) = next := (child_some down).2.2.2.symm
  obtain ⟨inner,copied,ended,replica⟩ := deeper middle _ (frameAddress fresh) _
    (copying.ready.taken free apart erased (by rw [link]; rfl) untouched)
    (onward ▸ closed below _ i next here down) (by rw [erased,frame]; exact Finset.notMem_erase fresh _)
    (by rw [frame]; exact unused) (by rw [erased,left,onward])
  rw [frame,onward] at ended replica
  have row : ∀ j, inner.memory (frameNumber dstPhys) j = middle.memory (frameNumber dstPhys) j := by
    apply ended.kept _ dst_ne
    intro member
    rw [erased] at member
    exact absurd (copying.free (Finset.mem_of_mem_erase member)) outside
  have entry : middle.memory (frameNumber dstPhys) i = frameAddress fresh ||| (source (frameNumber srcPhys) i &&& flagsMask) := by
    rw [link]
    exact write_here _ _ _ _
  have leads : child (below + 1) (middle.memory (frameNumber dstPhys) i) = some fresh := by
    rw [entry]
    exact child_copied small down
  have flags : SameFlags (source (frameNumber srcPhys) i) (middle.memory (frameNumber dstPhys) i) := by
    rw [entry]
    exact sameFlags_copied small _
  have elsewhere : ∀ j, j ≠ i → inner.memory (frameNumber dstPhys) j = machine.memory (frameNumber dstPhys) j := by
    intro j other
    rw [row j,link]
    exact (write_index _ _ other _ _).trans (fill_frame _ dst_ne j 0)
  refine ⟨inner,run.trans copied,copying.table new outside apart down free erased untouched ended
    (fun _ _ => rfl) rfl (fun _ _ _ => rfl) (row i) leads flags elsewhere ?_,
    replicated.table erased untouched ended (fun _ _ _ => rfl) copying.free new outside down free rfl
      (by rw [row i]; exact leads) elsewhere replica⟩
  intro j
  rw [link]
  exact (write_frame _ dst_ne.symm i j _).trans (fill_here _ fresh j 0)

theorem copyEntry_copies (closed : Closed source loader) (deeper : 1 ≤ below → CopiesTables source loader below) :
    ∃ after, copyEntry below srcPhys dstPhys i machine = .ok () after ∧ Copying source loader (fun _ _ => 0) start
      below (frameNumber srcPhys) (frameNumber dstPhys) spare (done ++ [i]) rest after ∧
      Replicated source start below (frameNumber srcPhys) (frameNumber dstPhys) (done ++ [i]) after := by
  have word := (copying.ready.tables _ _ here).2 i
  cases set : present (source (frameNumber srcPhys) i) with
  | false =>
    exact ⟨machine,copyEntry_absent (word ▸ set),copying.skip set,
      replicated.skip (child_of_absent set) new outside rfl fun _ _ _ => rfl⟩
  | true =>
    cases down : child (below + 1) (source (frameNumber srcPhys) i) with
    | none =>
      have leaf : copyEntry below srcPhys dstPhys i machine = _ := copyEntry_leaf low (word ▸ set) (word ▸ down)
      rw [word] at leaf
      refine ⟨_,leaf,copying.leaf new outside apart set down,replicated.skip down new outside rfl fun frame j other => ?_⟩
      rcases other with different | different
      · exact write_frame _ different i j _
      · exact write_index _ _ different _ _
    | some next =>
      have inner := (child_some down).2.1
      exact copyEntry_copies_table low here outside apart new copying replicated closed (deeper (by omega)) down

end Round

theorem copyEntries_return {below : Nat} (closed : Closed source loader) (low : below ≤ 2)
    (deeper : 1 ≤ below → CopiesTables source loader below) {srcPhys dstPhys : Word} {entries : List (Fin 512)}
    (different : entries.Nodup) (ready : Ready source loader start) (here : loader (below + 1) (frameNumber srcPhys))
    (outside : frameNumber dstPhys ∉ start.pmm.freeFrames) (apart : ∀ level, ¬ loader level (frameNumber dstPhys))
    (enough : start.pmm.freeFrames.card = (entries.map (tablesFor source below (frameNumber srcPhys))).sum + spare) :
    ∃ final, runAll (copyEntry below srcPhys dstPhys) entries start = .ok () final ∧
      Copying source loader (fun _ _ => 0) start below (frameNumber srcPhys) (frameNumber dstPhys) spare entries [] final ∧
      Replicated source start below (frameNumber srcPhys) (frameNumber dstPhys) entries final := by
  obtain ⟨final,run,ends⟩ := runAll_returns (copyEntry below srcPhys dstPhys)
    (fun done rest machine => Copying source loader (fun _ _ => 0) start below (frameNumber srcPhys) (frameNumber dstPhys)
      spare done rest machine ∧ Replicated source start below (frameNumber srcPhys) (frameNumber dstPhys) done machine)
    (fun done i rest machine new copying => copyEntry_copies low here outside apart new copying.1 copying.2 closed deeper)
    [] entries start different ⟨Copying.begins ready enough,replicated_nothing⟩
  exact ⟨final,run,ends⟩

theorem deepCopyPageTables_returns (closed : Closed source loader) (low : 1 ≤ level) (high : level ≤ 3) :
    CopiesTables source loader level := by
  induction level with
  | zero => omega
  | succ below ih =>
    intro start srcPhys dstPhys spare ready here outside apart enough
    obtain ⟨final,run,ends⟩ := copyEntries_return closed (by omega) (fun bottom => ih bottom (by omega))
      (List.nodup_finRange 512) ready here outside apart enough
    exact ⟨final,(congrFun (deepCopyPageTables_eq below srcPhys dstPhys) start).trans run,ends⟩

end Loop

end BorealOS.Memory
