import BorealOS.Memory.AddressMap

/-! Who owns the frames of the page tables. The allocated frames are those of
other owners and the tables of the hierarchy, through every run of calls, and no
table that could be freed is ever left empty. A run that takes back what it
mapped therefore takes back every frame and every entry. -/
namespace BorealOS.Memory

open Execution Paging

namespace Machine

variable {machine reached next : Machine} {state : State} {path : List (Fin 512)} {vaddr : Word}

def IsTable (machine : Machine) (state : State) (frame : Nat) : Prop :=
  ∃ path, machine.tables state path = some frame

/-- The allocated frames are those of others and the tables, and no frame is both. -/
structure Accounted (machine : Machine) (state : State) (others : Nat → Prop) : Prop where
  allocated : ∀ frame, machine.pmm.allocated frame = true ↔ others frame ∨ machine.IsTable state frame
  apart : ∀ frame, others frame → ¬ machine.IsTable state frame

theorem WellFormed.accounted (wf : machine.WellFormed state) : machine.Accounted state fun frame =>
    machine.pmm.allocated frame = true ∧ ¬ machine.IsTable state frame where
  allocated := by
    intro frame
    by_cases isTable : machine.IsTable state frame
    · obtain ⟨path,here⟩ := isTable
      exact iff_of_true (wf.allocated path frame here).2 (Or.inr ⟨path,here⟩)
    · simp [isTable]
  apart := fun _ other => other.2

theorem isTable_directory (wf : machine.WellFormed state) {table fresh : Nat} {index : Fin 512}
    (here : machine.tables state path = some table) (short : path.length < 3)
    (empty : machine.memory table index = 0) (free : fresh ∈ machine.pmm.freeFrames) (frame : Nat) :
    (machine.linked table index fresh directoryFlags).IsTable state frame ↔
      frame = fresh ∨ machine.IsTable state frame := by
  have absent : machine.tables state (path ++ [index]) = none := by
    rw [tables_snoc here,empty]
    exact child_zero _
  simp only [IsTable,tables_directory wf here short empty free,Function.update_apply]
  constructor
  · rintro ⟨other,there⟩
    split at there
    · exact Or.inl (Option.some.inj there).symm
    · exact Or.inr ⟨other,there⟩
  · rintro (rfl | ⟨other,there⟩)
    · exact ⟨path ++ [index],if_pos rfl⟩
    · have old : other ≠ path ++ [index] := fun same => by rw [same,absent] at there; cases there
      exact ⟨other,(if_neg old).trans there⟩

theorem isTable_unlinked (wf : machine.WellFormed state) {table : Nat} {index : Fin 512} {address : Word}
    (here : machine.tables state path = some table)
    (below : machine.tables state (path ++ [index]) = some (frameNumber address))
    (empty : ∀ i, present (machine.memory (frameNumber address) i) = false) (frame : Nat) :
    (machine.unlinked table index address).IsTable state frame ↔
      frame ≠ frameNumber address ∧ machine.IsTable state frame := by
  simp only [IsTable,tables_unlinked wf here below empty,Function.update_apply]
  constructor
  · rintro ⟨other,there⟩
    split at there
    · cases there
    · rename_i elsewhere
      exact ⟨fun same => elsewhere (wf.distinct other _ _ there (same ▸ below)),other,there⟩
  · rintro ⟨different,other,there⟩
    have kept : other ≠ path ++ [index] := fun same =>
      different (Option.some.inj (there.symm.trans (same ▸ below)))
    exact ⟨other,(if_neg kept).trans there⟩

theorem Edit.accounted {others : Nat → Prop} (wf : machine.WellFormed state) (edit : Edit state machine next)
    (accounted : machine.Accounted state others) : next.Accounted state others := by
  cases edit with
  | @link path index table fresh here short empty free =>
    have isTable := isTable_directory wf here short empty free
    have untaken := ((machine.pmm.mem_freeFrames fresh).mp free).2.2
    constructor
    · intro frame
      rw [isTable]
      by_cases same : frame = fresh
      · simp [Machine.linked,same]
      · have outside : ¬ (fresh ≤ frame ∧ frame ≤ fresh) := fun both => same (le_antisymm both.2 both.1)
        simp [Machine.linked,same,outside,accounted.allocated frame]
    · intro frame other
      rw [isTable]
      rintro (rfl | isOld)
      · rw [(accounted.allocated frame).mpr (Or.inl other)] at untaken
        cases untaken
      · exact accounted.apart frame other isOld
  | leaf here bottom set =>
    constructor
    · intro frame
      rw [IsTable,tables_withEntry wf here bottom]
      exact accounted.allocated frame
    · intro frame other
      rw [IsTable,tables_withEntry wf here bottom]
      exact accounted.apart frame other
  | @unlink path index table address here below empty held lower =>
    have isTable := isTable_unlinked wf here below empty
    constructor
    · intro frame
      rw [isTable]
      by_cases same : frame = frameNumber address
      · subst same
        have noOther : ¬ others (frameNumber address) := fun other =>
          accounted.apart _ other ⟨path ++ [index],below⟩
        simp [Machine.unlinked,noOther]
      · simp [Machine.unlinked,same,accounted.allocated frame]
    · intro frame other
      rw [isTable]
      exact fun both => accounted.apart frame other both.2

/-! Tables in use. -/

def Used (machine : Machine) (state : State) (path : List (Fin 512)) : Prop :=
  ∃ index entry, machine.entryAt state path index = some entry ∧ present entry = true

/-- The tables that `UnmapPage` frees when they are empty: tables of pages,
directories, and tables linked from the lower half of the top-level table. -/
def Freeable (path : List (Fin 512)) : Prop :=
  path.length = 3 ∨ path.length = 2 ∨ ∃ index : Fin 512, path = [index] ∧ index.val < 256

def CompactExcept (machine : Machine) (state : State) (focus : List (Fin 512)) : Prop :=
  ∀ path table, machine.tables state path = some table → Freeable path → path ≠ focus → machine.Used state path

def Compact (machine : Machine) (state : State) : Prop :=
  ∀ path table, machine.tables state path = some table → Freeable path → machine.Used state path

theorem used_of_table {index : Fin 512} {table : Nat} (there : machine.tables state (path ++ [index]) = some table) :
    machine.Used state path := by
  obtain ⟨parent,here,down⟩ := tables_parent there
  exact ⟨index,_,entryAt_of_table here index,(child_some down).1⟩

theorem Descended.compact (wf : machine.WellFormed state) (down : Descended state machine path reached)
    (compact : machine.Compact state) : reached.CompactExcept state path := by
  induction down with
  | start =>
    intro other table there freeable _
    exact compact other table there freeable
  | @existing path reached index table down there ih =>
    intro other kept here freeable _
    by_cases same : other = path
    · subst same
      exact used_of_table there
    · exact ih other kept here freeable same
  | @link path reached index table fresh down short here empty free nonzero ih =>
    have kept := Edited.wellFormed wf down.edited
    have entries := entryAt_directory kept here short empty free
    intro other reachedTable there freeable elsewhere
    rw [tables_directory kept here short empty free,Function.update_of_ne elsewhere] at there
    by_cases same : other = path
    · subst same
      refine ⟨index,_,(entries other index).trans (if_pos ⟨rfl,rfl⟩),?_⟩
      exact (tableEntry_spec (kept.fresh_small free) directoryFlags_apart (by decide)).1
    · obtain ⟨i,entry,read,set⟩ := ih other reachedTable there freeable same
      refine ⟨i,entry,?_,set⟩
      rw [entries,if_neg (fun both => same both.1),if_neg elsewhere]
      exact read

theorem CompactExcept.withEntry (wf : machine.WellFormed state) {table : Nat} {index : Fin 512} {entry : Word}
    (compact : machine.CompactExcept state path) (here : machine.tables state path = some table)
    (bottom : path.length = 3) (set : present entry = true) :
    (machine.withEntry table index entry).Compact state := by
  have entries := entryAt_withEntry wf here bottom index entry
  intro other kept there freeable
  rw [tables_withEntry wf here bottom] at there
  by_cases same : other = path
  · exact ⟨index,entry,(entries other index).trans (if_pos ⟨same,rfl⟩),set⟩
  · obtain ⟨i,word,read,used⟩ := compact other kept there freeable same
    exact ⟨i,word,(entries other i).trans ((if_neg fun both => same both.1).trans read),used⟩

theorem Pruned.compact (wf : machine.WellFormed state) (pruned : Pruned state machine vaddr path reached)
    (compact : machine.Compact state) : reached.CompactExcept state path := by
  induction pruned with
  | start here set =>
    intro other kept there freeable elsewhere
    rw [tables_withEntry wf here rfl] at there
    obtain ⟨i,word,read,used⟩ := compact other kept there freeable
    refine ⟨i,word,?_,used⟩
    rw [entryAt_withEntry wf here rfl,if_neg (fun both => elsewhere both.1)]
    exact read
  | @unlink path reached index table address pruned here below empty held lower ih =>
    have kept := Edited.wellFormed wf pruned.edited
    intro other reachedTable there freeable elsewhere
    rw [tables_unlinked kept here below empty,Function.update_apply] at there
    split at there
    · cases there
    · rename_i remains
      obtain ⟨i,word,read,used⟩ := ih other reachedTable there freeable remains
      refine ⟨i,word,?_,used⟩
      rw [entryAt_unlinked kept here below empty,if_neg (fun both => elsewhere both.1),if_neg remains]
      exact read

theorem CompactExcept.settled (compact : machine.CompactExcept state path) (settled : machine.Settled state path) :
    machine.Compact state := by
  intro other table there freeable
  by_cases same : other = path
  · subst same
    rcases settled with rfl | ⟨kept,i,here,set⟩ | ⟨index,rfl,upper⟩
    · simp [Freeable] at freeable
    · exact ⟨i,_,entryAt_of_table here i,set⟩
    · simp [Freeable] at freeable
      omega
  · exact compact other table there freeable same

/-! The counter of the manager moves with the number of free frames. -/

def surplus (machine : Machine) : Word :=
  machine.pmm.usableFrames - BitVec.ofNat 64 machine.pmm.freeFrames.card

theorem Edit.surplus (edit : Edit state machine next) : next.surplus = machine.surplus := by
  cases edit with
  | @link path index table fresh here short empty free =>
    have one := Finset.card_erase_add_one free
    have count : BitVec.ofNat 64 machine.pmm.freeFrames.card =
        BitVec.ofNat 64 (machine.pmm.freeFrames.erase fresh).card + 1 := by
      rw [← one,BitVec.ofNat_add]
      rfl
    rw [Machine.surplus,Machine.surplus,freeFrames_linked,count]
    change machine.pmm.usableFrames - 1 - _ = _
    ring
  | leaf => rfl
  | @unlink path index table address here below empty held lower =>
    have fresh : frameNumber address ∉ machine.pmm.freeFrames := by
      intro free
      have untaken := ((machine.pmm.mem_freeFrames _).mp free).2.2
      rw [held.taken] at untaken
      cases untaken
    have count : (machine.unlinked table index address).pmm.freeFrames =
        insert (frameNumber address) machine.pmm.freeFrames := by
      have single : Finset.Ico (frameNumber address) (frameNumber address + (1 : Word).toNat) =
          {frameNumber address} := Nat.Ico_succ_singleton _
      change (machine.pmm.release (frameNumber address) 1).freeFrames = _
      rw [PhysicalMemoryManager.freeFrames_release,single,Finset.union_comm,Finset.insert_eq]
      intro k low high
      have same : k = frameNumber address := by
        have one : (1 : Word).toNat = 1 := by decide
        omega
      rw [same]
      exact held
    rw [Machine.surplus,Machine.surplus,count,Finset.card_insert_of_notMem fresh,BitVec.ofNat_add]
    change machine.pmm.usableFrames + 1 - (_ + 1) = _
    ring

/-! Tables and entries that were there at the start. -/

/-- The tables of an earlier machine are still there, with all their present entries. -/
structure Keeps (machine : Machine) (state : State) (initial : Machine) : Prop where
  tables : ∀ path table, initial.tables state path = some table → machine.tables state path = some table
  entries : ∀ path index entry, initial.entryAt state path index = some entry → present entry = true →
    machine.entryAt state path index = some entry

section Keeping
variable {initial : Machine}

theorem Keeps.refl (machine : Machine) (state : State) : machine.Keeps state machine :=
  ⟨fun _ _ here => here,fun _ _ _ read _ => read⟩

theorem tables_of_entryAt {index : Fin 512} {entry : Word} (read : machine.entryAt state path index = some entry) :
    ∃ table, machine.tables state path = some table ∧ machine.memory table index = entry :=
  Option.map_eq_some_iff.mp read

theorem Keeps.leafEntry (keeps : machine.Keeps state initial) {entry : Word}
    (read : initial.leafEntry state vaddr = some entry) : machine.leafEntry state vaddr = some entry := by
  obtain ⟨there,set⟩ := Option.filter_eq_some_iff.mp read
  exact Option.filter_eq_some_iff.mpr ⟨keeps.entries _ _ _ there set,set⟩

theorem Keeps.directory (wf : machine.WellFormed state) (keeps : machine.Keeps state initial) {table fresh : Nat}
    {index : Fin 512} (here : machine.tables state path = some table) (short : path.length < 3)
    (empty : machine.memory table index = 0) (free : fresh ∈ machine.pmm.freeFrames) :
    (machine.linked table index fresh directoryFlags).Keeps state initial := by
  have absent : machine.tables state (path ++ [index]) = none := by
    rw [tables_snoc here,empty]
    exact child_zero _
  have old : ∀ other kept, initial.tables state other = some kept → other ≠ path ++ [index] := by
    intro other kept there same
    rw [same] at there
    rw [keeps.tables _ _ there] at absent
    cases absent
  constructor
  · intro other kept there
    rw [tables_directory wf here short empty free,Function.update_of_ne (old other kept there)]
    exact keeps.tables other kept there
  · intro other i entry read set
    obtain ⟨kept,there,_⟩ := tables_of_entryAt read
    have still := keeps.entries other i entry read set
    rw [entryAt_directory wf here short empty free,if_neg,if_neg (old other kept there)]
    · exact still
    · rintro ⟨rfl,rfl⟩
      rw [entryAt_of_table here,empty] at still
      cases still
      simp at set

theorem Keeps.withEntry (wf : machine.WellFormed state) (keeps : machine.Keeps state initial) {table : Nat}
    {index : Fin 512} (entry : Word) (here : machine.tables state path = some table) (bottom : path.length = 3)
    (fresh : ∀ word, initial.entryAt state path index = some word → present word = false) :
    (machine.withEntry table index entry).Keeps state initial := by
  constructor
  · intro other kept there
    rw [tables_withEntry wf here bottom]
    exact keeps.tables other kept there
  · intro other i word read set
    rw [entryAt_withEntry wf here bottom,if_neg]
    · exact keeps.entries other i word read set
    · rintro ⟨rfl,rfl⟩
      rw [fresh word read] at set
      cases set

/-- A table that is freed is none of the tables at the start: those are in use. -/
theorem Keeps.unlinked (wf : machine.WellFormed state) (keeps : machine.Keeps state initial)
    (compact : initial.Compact state) (flat : initial.Flat state) {table : Nat} {index : Fin 512} {address : Word}
    (here : machine.tables state path = some table)
    (below : machine.tables state (path ++ [index]) = some (frameNumber address))
    (empty : ∀ i, present (machine.memory (frameNumber address) i) = false) (lower : path = [] → index.val < 256) :
    (machine.unlinked table index address).Keeps state initial := by
  have length := length_le_of_table below
  simp only [List.length_append,List.length_singleton] at length
  have freeable : Freeable (path ++ [index]) := by
    rcases path with _ | ⟨a,_ | ⟨b,path⟩⟩
    · exact Or.inr (Or.inr ⟨index,rfl,lower rfl⟩)
    · exact Or.inr (Or.inl rfl)
    · left
      simp only [List.length_append,List.length_cons,List.length_nil] at length ⊢
      omega
  have new : initial.tables state (path ++ [index]) = none := by
    cases there : initial.tables state (path ++ [index]) with
    | none => rfl
    | some kept =>
      obtain ⟨i,entry,read,set⟩ := compact _ kept there freeable
      have still := keeps.entries _ i entry read set
      rw [entryAt_of_table below] at still
      rw [← Option.some.inj still,empty i] at set
      cases set
  have old : ∀ other kept, initial.tables state other = some kept → other ≠ path ++ [index] := by
    intro other kept there same
    rw [same,new] at there
    cases there
  constructor
  · intro other kept there
    rw [tables_unlinked wf here below empty,Function.update_of_ne (old other kept there)]
    exact keeps.tables other kept there
  · intro other i entry read set
    obtain ⟨kept,there,word⟩ := tables_of_entryAt read
    rw [entryAt_unlinked wf here below empty,if_neg,if_neg (old other kept there)]
    · exact keeps.entries other i entry read set
    · rintro ⟨rfl,rfl⟩
      have down := tables_snoc there i
      rw [word,child_of_flat (by omega) set (flat other i entry (by omega) read),new] at down
      cases down

theorem Keeps.descended (wf : machine.WellFormed state) (keeps : machine.Keeps state initial)
    (down : Descended state machine path reached) : reached.Keeps state initial := by
  induction down with
  | start => exact keeps
  | existing _ _ ih => exact ih
  | link down short here empty free _ ih => exact ih.directory (Edited.wellFormed wf down.edited) here short empty free

theorem Keeps.pruned (wf : machine.WellFormed state) (keeps : machine.Keeps state initial)
    (compact : initial.Compact state) (flat : initial.Flat state) (fresh : initial.leafEntry state vaddr = none)
    (pruned : Pruned state machine vaddr path reached) : reached.Keeps state initial := by
  induction pruned with
  | start here _ =>
    apply keeps.withEntry wf 0 here rfl
    intro word read
    rw [Machine.leafEntry,read] at fresh
    simpa [Option.filter] using fresh
  | unlink pruned here below empty _ lower ih =>
    exact ih.unlinked (Edited.wellFormed wf pruned.edited) compact flat here below empty lower

end Keeping

def UpperHalfPresent (machine : Machine) (state : State) : Prop :=
  ∀ index : Fin 512, 256 ≤ index.val → present (machine.memory (frameNumber state.pml4) index) = true

section Restoring
variable {initial : Machine}

theorem exists_leafEntry (flat : machine.Flat state) (compact : machine.Compact state) (remaining : Nat) {table : Nat}
    (here : machine.tables state path = some table) (depth : path.length + remaining = 3) (freeable : Freeable path) :
    ∃ vaddr, path <+: directoryPath vaddr ∧ machine.leafEntry state vaddr ≠ none := by
  obtain ⟨index,entry,read,set⟩ := compact path table here freeable
  induction remaining generalizing path table index entry with
  | zero =>
    obtain ⟨vaddr,rfl,rfl⟩ := exists_address depth index
    refine ⟨vaddr,List.prefix_refl _,?_⟩
    rw [leafEntry,read]
    simp [Option.filter,set]
  | succ remaining ih =>
    have down := tables_snoc here index
    rw [entryAt_of_table here] at read
    rw [Option.some.inj read,child_of_flat (by omega) set
      (flat path index entry (by omega) ((entryAt_of_table here index).trans read))] at down
    have lower : Freeable (path ++ [index]) := by
      have nonempty : 0 < path.length := by
        rcases freeable with three | two | ⟨_,rfl,_⟩
        · omega
        · omega
        · exact Nat.zero_lt_one
      rw [Freeable,List.length_append,List.length_singleton]
      omega
    obtain ⟨next,word,found,present⟩ := compact _ _ down lower
    obtain ⟨vaddr,inside,mapped⟩ := ih down (by simp; omega) lower next word found present
    exact ⟨vaddr,(List.prefix_append _ _).trans inside,mapped⟩

theorem Keeps.tables_eq (keeps : machine.Keeps state initial) (flat : machine.Flat state)
    (compact : machine.Compact state) (initialFlat : initial.Flat state) (upper : initial.UpperHalfPresent state)
    (unmapped : ∀ vaddr, machine.leafEntry state vaddr ≠ none → initial.leafEntry state vaddr ≠ none) :
    machine.tables state = initial.tables state := by
  funext path
  cases there : initial.tables state path with
  | some table => exact keeps.tables path table there
  | none =>
    by_contra remains
    obtain ⟨table,here⟩ := Option.ne_none_iff_exists'.mp remains
    have length := length_le_of_table here
    by_cases freeable : Freeable path
    · obtain ⟨vaddr,inside,mapped⟩ := exists_leafEntry flat compact (3 - path.length) here (by omega) freeable
      exact unmapped vaddr mapped (leafEntry_of_absent inside there)
    · rcases path with _ | ⟨index,_ | ⟨second,path⟩⟩
      · simp at there
      · have high : 256 ≤ index.val := by
          simp [Freeable] at freeable
          exact freeable
        have down := tables_snoc (show initial.tables state [] = _ from rfl) index
        rw [child_of_flat (by simp) (upper index high)
          (initialFlat [] index _ (by simp) (entryAt_of_table rfl index))] at down
        rw [List.nil_append,there] at down
        cases down
      · simp only [Freeable,List.length_cons,List.cons.injEq,reduceCtorEq,and_false,false_and,exists_false,
          or_false] at freeable length
        omega

theorem Keeps.memory_eq (keeps : machine.Keeps state initial) (wf : machine.WellFormed state)
    (initialWf : initial.WellFormed state) (flat : machine.Flat state)
    (same : machine.tables state = initial.tables state)
    (unmapped : ∀ vaddr, machine.leafEntry state vaddr ≠ none → initial.leafEntry state vaddr ≠ none)
    {table : Nat} (here : initial.tables state path = some table) (index : Fin 512) :
    machine.memory table index = initial.memory table index := by
  have now : machine.tables state path = some table := by rw [same]; exact here
  rcases initialWf.entry_clean here index with zero | set
  · rw [zero]
    rcases wf.entry_clean now index with still | set
    · exact still
    · have length := length_le_of_table here
      rcases Nat.lt_or_ge path.length 3 with short | bottom
      · have down := tables_snoc now index
        rw [child_of_flat (by omega) set (flat path index _ short (entryAt_of_table now index)),same,
          tables_snoc here,zero] at down
        simp at down
      · obtain ⟨vaddr,rfl,rfl⟩ := exists_address (by omega : path.length = 3) index
        have mapped : machine.leafEntry state vaddr ≠ none := by
          rw [Machine.leafEntry,entryAt_of_table now]
          simp [Option.filter,set]
        have before := unmapped vaddr mapped
        rw [Machine.leafEntry,entryAt_of_table here,zero] at before
        simp [Option.filter] at before
  · have still := keeps.entries path index _ (entryAt_of_table here index) set
    rw [entryAt_of_table now] at still
    exact Option.some.inj still

end Restoring

/-! Runs of calls. -/

/-- The state of a run: the frames are accounted for and no freeable table is empty. -/
structure Balanced (machine : Machine) (state : State) (others : Nat → Prop) : Prop where
  wellFormed : machine.WellFormed state
  flat : machine.Flat state
  compact : machine.Compact state
  accounted : machine.Accounted state others

section Runs
variable {others : Nat → Prop} {initial final : Machine}

theorem Balanced.edited (balanced : machine.Balanced state others) (edited : Edited state machine next)
    (compact : next.Compact state) : next.Balanced state others where
  wellFormed := Edited.wellFormed balanced.wellFormed edited
  flat := Edited.preserves balanced.wellFormed (fun _ _ wf edit => edit.flat wf) edited balanced.flat
  compact := compact
  accounted := Edited.preserves balanced.wellFormed (fun _ _ wf edit => edit.accounted wf) edited balanced.accounted

theorem Balanced.map (balanced : machine.Balanced state others) {physicalAddress flags : Word}
    (ok : mapPage state vaddr physicalAddress flags machine = .ok () next) : next.Balanced state others := by
  have wf := balanced.wellFormed
  obtain ⟨_,_,reached,table,down,here,_,rfl⟩ := mapPage_ok wf (balanced.flat.smooth vaddr) ok
  have set := present_leafWord physicalAddress flags
  exact balanced.edited (down.edited.tail (.leaf here rfl (Or.inr set)))
    ((down.compact wf balanced.compact).withEntry (Edited.wellFormed wf down.edited) here rfl set)

theorem Balanced.unmap (balanced : machine.Balanced state others) (ok : unmapPage state vaddr machine = .ok () next) :
    next.Balanced state others := by
  have wf := balanced.wellFormed
  obtain ⟨path,pruned,settled⟩ := unmapPage_ok wf (balanced.flat.smooth vaddr) ok
  exact balanced.edited pruned.edited ((pruned.compact wf balanced.compact).settled settled)

theorem Balanced.run (balanced : machine.Balanced state others) {requests : List Request}
    (run : runAll (Request.perform state) requests machine = .ok () final) : final.Balanced state others := by
  refine runAll_invariant _ (fun machine => machine.Balanced state others) ?_ requests machine final balanced run
  intro request machine next balanced ok
  cases request with
  | map virtualAddress physicalAddress flags => exact balanced.map ok
  | unmap virtualAddress => exact balanced.unmap ok

theorem Balanced.run_edited (balanced : machine.Balanced state others) {requests : List Request}
    (run : runAll (Request.perform state) requests machine = .ok () final) : Edited state machine final := by
  have both := runAll_invariant _ (fun reached => reached.Balanced state others ∧ Edited state machine reached) ?_
    requests machine final ⟨balanced,.refl⟩ run
  · exact both.2
  · rintro request reached next ⟨balanced',edited⟩ ok
    refine ⟨balanced'.run ((runAll_cons_ok _ request [] reached next).mpr ⟨next,ok,rfl⟩),?_⟩
    exact edited.trans (request.edited balanced'.wellFormed (balanced'.flat.smooth _) ok)

theorem Edited.surplus (edited : Edited state machine next) : next.surplus = machine.surplus := by
  induction edited with
  | refl => rfl
  | tail _ edit ih => rw [edit.surplus,ih]

theorem Edited.frameCount (edited : Edited state machine next) : next.pmm.frameCount = machine.pmm.frameCount := by
  induction edited with
  | refl => rfl
  | tail _ edit ih => cases edit <;> exact ih

theorem Edited.allocatableAddress (edited : Edited state machine next) :
    next.pmm.allocatableBitmap.address = machine.pmm.allocatableBitmap.address := by
  induction edited with
  | refl => rfl
  | tail _ edit ih => cases edit <;> exact ih

theorem Edited.restores (edited : Edited state machine final) (before : machine.Accounted state others)
    (after : final.Accounted state others) (same : final.tables state = machine.tables state) :
    final.pmm.allocatableBitmap = machine.pmm.allocatableBitmap ∧
      final.pmm.usableFrames = machine.pmm.usableFrames := by
  have bits : ∀ frame, final.pmm.allocated frame = machine.pmm.allocated frame := by
    intro frame
    rw [Bool.eq_iff_iff,after.allocated,before.allocated,IsTable,IsTable,same]
  have bytes : final.pmm.allocatableBitmap.bytes = machine.pmm.allocatableBitmap.bytes := PackedBitmap.ext_bit bits
  have bitmap : final.pmm.allocatableBitmap = machine.pmm.allocatableBitmap := by
    have address := Edited.allocatableAddress edited
    cases bitmap : final.pmm.allocatableBitmap with
    | mk address' bytes' =>
      rw [bitmap] at bytes address
      cases bytes
      cases address
      rfl
  have free : final.pmm.freeFrames = machine.pmm.freeFrames := by
    ext frame
    rw [PhysicalMemoryManager.mem_freeFrames,PhysicalMemoryManager.mem_freeFrames,Edited.frameCount edited,bits,
      PhysicalMemoryManager.reserved,PhysicalMemoryManager.reserved,Edited.reservedBitmap edited]
  have counter := Edited.surplus edited
  rw [Machine.surplus,Machine.surplus,free] at counter
  exact ⟨bitmap,sub_left_injective counter⟩

/-- A run of `MapPage` calls keeps the tables of the start, and the pages it maps
were not mapped. -/
theorem Keeps.maps (keeps : machine.Keeps state initial) (balanced : machine.Balanced state others)
    {maps : List (Word × Word × List Flag)}
    (run : runAll (Request.perform state) (maps.map fun m => .map m.1 m.2.1 m.2.2) machine = .ok () final) :
    final.Keeps state initial ∧ (∀ m ∈ maps, initial.leafEntry state m.1 = none) ∧
      ∀ vaddr, final.leafEntry state vaddr ≠ none →
        pageOf vaddr ∈ maps.map (fun m => pageOf m.1) ∨ machine.leafEntry state vaddr ≠ none := by
  induction maps generalizing machine with
  | nil =>
    cases run
    exact ⟨keeps,by simp,fun vaddr mapped => Or.inr mapped⟩
  | cons m maps ih =>
    obtain ⟨middle,first,rest⟩ := (runAll_cons_ok _ _ _ machine final).mp run
    have wf := balanced.wellFormed
    obtain ⟨fresh,leaves⟩ := leafEntry_mapPage wf (balanced.flat.smooth m.1) first
    have unmapped : initial.leafEntry state m.1 = none := by
      cases read : initial.leafEntry state m.1 with
      | none => rfl
      | some entry => rw [keeps.leafEntry read] at fresh; cases fresh
    have kept : middle.Keeps state initial := by
      obtain ⟨_,_,reached,table,down,here,_,rfl⟩ := mapPage_ok wf (balanced.flat.smooth m.1) first
      apply (keeps.descended wf down).withEntry (Edited.wellFormed wf down.edited) _ here rfl
      intro word read
      rw [Machine.leafEntry,read] at unmapped
      simpa [Option.filter] using unmapped
    obtain ⟨keeps',earlier,later⟩ := ih kept (balanced.map first) rest
    refine ⟨keeps',?_,?_⟩
    · intro other member
      rcases List.mem_cons.mp member with rfl | member
      · exact unmapped
      · exact earlier other member
    · intro vaddr mapped
      rcases later vaddr mapped with member | before
      · exact Or.inl (List.mem_cons_of_mem _ member)
      · rw [leaves] at before
        split at before
        · rename_i same
          exact Or.inl (List.mem_cons.mpr (Or.inl same))
        · exact Or.inr before

/-- A run of `UnmapPage` calls on pages that were not mapped at the start keeps the
tables of the start. -/
theorem Keeps.unmaps (keeps : machine.Keeps state initial) (balanced : machine.Balanced state others)
    (compact : initial.Compact state) (flat : initial.Flat state) {unmaps : List Word}
    (fresh : ∀ vaddr ∈ unmaps, initial.leafEntry state vaddr = none)
    (run : runAll (Request.perform state) (unmaps.map .unmap) machine = .ok () final) :
    final.Keeps state initial ∧ ∀ vaddr, final.leafEntry state vaddr ≠ none →
      pageOf vaddr ∉ unmaps.map pageOf ∧ machine.leafEntry state vaddr ≠ none := by
  induction unmaps generalizing machine with
  | nil =>
    cases run
    exact ⟨keeps,fun vaddr mapped => ⟨by simp,mapped⟩⟩
  | cons target unmaps ih =>
    obtain ⟨middle,first,rest⟩ := (runAll_cons_ok _ _ _ machine final).mp run
    have wf := balanced.wellFormed
    have smooth := balanced.flat.smooth target
    have leaves := leafEntry_unmapPage wf smooth first
    obtain ⟨path,pruned,_⟩ := unmapPage_ok wf smooth first
    have kept := keeps.pruned wf compact flat (fresh target List.mem_cons_self) pruned
    obtain ⟨keeps',later⟩ := ih kept (balanced.unmap first)
      (fun vaddr member => fresh vaddr (List.mem_cons_of_mem _ member)) rest
    refine ⟨keeps',?_⟩
    intro vaddr mapped
    obtain ⟨apart,before⟩ := later vaddr mapped
    rw [leaves] at before
    split at before
    · exact absurd rfl before
    · rename_i different
      exact ⟨by simp only [List.map_cons,List.mem_cons,not_or]; exact ⟨different,apart⟩,before⟩

end Runs

end Machine

/-- After every run of calls that return, the allocated frames are those that were
no tables at the start and the tables of now, and no freeable table is empty. A
run that maps pages and then takes them back, in whatever order, restores the
manager and every entry of every table of the start. -/
theorem tables_neither_leaked_nor_lost (machine final : Machine) (state : State) (requests : List Request)
    (wf : machine.WellFormed state) (flat : machine.Flat state) (compact : machine.Compact state)
    (upper : machine.UpperHalfPresent state)
    (run : runAll (Request.perform state) requests machine = .ok () final) :
    (∀ frame, final.pmm.allocated frame = true ↔
      (machine.pmm.allocated frame = true ∧ ¬ machine.IsTable state frame) ∨ final.IsTable state frame) ∧
    final.Compact state ∧
    ∀ (maps : List (Word × Word × List Flag)) (unmaps : List Word),
      requests = (maps.map fun m => .map m.1 m.2.1 m.2.2) ++ unmaps.map .unmap →
      (unmaps.map pageOf).Perm (maps.map fun m => pageOf m.1) →
      final.pmm.reservedBitmap = machine.pmm.reservedBitmap ∧
      final.pmm.allocatableBitmap = machine.pmm.allocatableBitmap ∧
      final.pmm.usableFrames = machine.pmm.usableFrames ∧
      ∀ frame, machine.IsTable state frame → ∀ index, final.memory frame index = machine.memory frame index := by
  have balanced : machine.Balanced state _ := ⟨wf,flat,compact,wf.accounted⟩
  have ended := balanced.run run
  have edited := balanced.run_edited run
  refine ⟨ended.accounted.allocated,ended.compact,?_⟩
  rintro maps unmaps rfl exactly
  obtain ⟨middle,first,second⟩ := (runAll_append_ok _ _ _ machine final).mp run
  obtain ⟨kept,fresh,mapped⟩ := (Machine.Keeps.refl machine state).maps balanced first
  have freshUnmaps : ∀ vaddr ∈ unmaps, machine.leafEntry state vaddr = none := by
    intro vaddr member
    obtain ⟨m,inside,same⟩ := List.mem_map.mp (exactly.mem_iff.mp (List.mem_map_of_mem member))
    rw [← Machine.leafEntry_congr same]
    exact fresh m inside
  obtain ⟨keeps,unmapped⟩ := kept.unmaps (balanced.run first) compact flat freshUnmaps second
  have back : ∀ vaddr, final.leafEntry state vaddr ≠ none → machine.leafEntry state vaddr ≠ none := by
    intro vaddr still
    obtain ⟨apart,between⟩ := unmapped vaddr still
    rcases mapped vaddr between with member | before
    · exact absurd (exactly.mem_iff.mpr member) apart
    · exact before
  have same := keeps.tables_eq ended.flat ended.compact flat upper back
  obtain ⟨bitmap,counter⟩ := Machine.Edited.restores edited wf.accounted ended.accounted same
  refine ⟨Machine.Edited.reservedBitmap edited,bitmap,counter,?_⟩
  rintro frame ⟨path,here⟩ index
  exact keeps.memory_eq ended.wellFormed wf ended.flat same back here index

/-! A top-level table in frame 1 whose upper half links the frames 256 to 511. -/

def kernelHalfManager : PhysicalMemoryManager where
  frameCount := 1024
  usableFrames := 766
  bitmapSize := 128
  allocatableBitmap := ⟨0x300000,fun byte => if byte = 0 then 2 else if 32 ≤ byte ∧ byte < 64 then 255 else 0⟩
  reservedBitmap := ⟨0x300080,fun byte => if byte = 0 then 1 else 0⟩
  sized := by decide
  addressable := by decide

def kernelHalfMachine : Machine where
  memory := fun frame index =>
    if frame = 1 ∧ 256 ≤ index.val then frameAddress index.val ||| directoryFlags else 0
  pmm := kernelHalfManager
  freed := []

private theorem kernelHalf_entry {index : Fin 512} (high : 256 ≤ index.val) :
    kernelHalfMachine.memory 1 index = frameAddress index.val ||| directoryFlags := by
  simp [kernelHalfMachine,high]

private theorem kernelHalf_link (index : Fin 512) :
    present (frameAddress index.val ||| directoryFlags) = true ∧ huge (frameAddress index.val ||| directoryFlags) = false ∧
      frameOf (frameAddress index.val ||| directoryFlags) = index.val := by
  have small : index.val < 2^40 := Nat.lt_trans index.isLt (by decide)
  obtain ⟨set,flat,_,frame⟩ := tableEntry_spec small directoryFlags_apart (by decide)
  exact ⟨set,flat.trans (by decide),frame⟩

theorem kernelHalf_tables {path : List (Fin 512)} {table : Nat}
    (here : kernelHalfMachine.tables topAtFrameOne path = some table) :
    (path = [] ∧ table = 1) ∨ ∃ index : Fin 512, path = [index] ∧ 256 ≤ index.val ∧ table = index.val := by
  have top : frameNumber topAtFrameOne.pml4 = 1 := by decide
  induction path using List.reverseRecOn generalizing table with
  | nil =>
    rw [Machine.tables_nil,top] at here
    exact Or.inl ⟨rfl,(Option.some.inj here).symm⟩
  | append_singleton path index ih =>
    obtain ⟨parent,above,down⟩ := Machine.tables_parent here
    rcases ih above with ⟨rfl,rfl⟩ | ⟨other,rfl,high,rfl⟩
    · by_cases high : 256 ≤ index.val
      · rw [kernelHalf_entry high] at down
        exact Or.inr ⟨index,rfl,high,(child_some down).2.2.2.trans (kernelHalf_link index).2.2⟩
      · have zero : kernelHalfMachine.memory 1 index = 0 := by simp [kernelHalfMachine,high]
        rw [zero] at down
        simp at down
    · have different : other.val ≠ 1 := by omega
      have zero : kernelHalfMachine.memory other.val index = 0 := by simp [kernelHalfMachine,different]
      rw [zero] at down
      simp at down

private theorem kernelHalf_held : ∀ frame < 512, frame = 1 ∨ 256 ≤ frame → kernelHalfManager.reserved frame = false ∧
    kernelHalfManager.allocated frame = true := by
  decide +kernel

theorem kernelHalf_regular : kernelHalfMachine.Regular topAtFrameOne where
  wellFormed := {
    distinct := by
      intro first second table left right
      rcases kernelHalf_tables left with ⟨rfl,rfl⟩ | ⟨a,rfl,high,rfl⟩ <;>
        rcases kernelHalf_tables right with ⟨rfl,same⟩ | ⟨b,rfl,high',same⟩
      · rfl
      · omega
      · omega
      · rw [Fin.ext same]
    allocated := by
      intro path table here
      rcases kernelHalf_tables here with ⟨_,rfl⟩ | ⟨a,_,high,rfl⟩
      · exact ⟨by decide,by decide⟩
      · exact ⟨Nat.lt_trans a.isLt (by decide),(kernelHalf_held a.val a.isLt (Or.inr high)).2⟩
    clean := by
      intro path index entry read
      obtain ⟨table,here,rfl⟩ := Option.map_eq_some_iff.mp read
      by_cases top : table = 1 ∧ 256 ≤ index.val
      · obtain ⟨rfl,high⟩ := top
        exact Or.inr (by rw [kernelHalf_entry high]; exact (kernelHalf_link index).1)
      · exact Or.inl (if_neg top)
    bounded := by decide }
  owned := by
    intro path table here
    rcases kernelHalf_tables here with ⟨_,rfl⟩ | ⟨a,_,high,rfl⟩
    · exact ⟨by decide,by decide,by decide⟩
    · obtain ⟨unreserved,taken⟩ := kernelHalf_held a.val a.isLt (Or.inr high)
      exact ⟨Nat.lt_trans a.isLt (by decide),unreserved,taken⟩
  flat := by
    intro path index entry _ read
    obtain ⟨table,here,rfl⟩ := Option.map_eq_some_iff.mp read
    by_cases top : table = 1 ∧ 256 ≤ index.val
    · obtain ⟨rfl,high⟩ := top
      rw [kernelHalf_entry high]
      exact (kernelHalf_link index).2.1
    · have zero : kernelHalfMachine.memory table index = 0 := if_neg top
      rw [zero]
      decide
  zeroReserved := by decide

theorem kernelHalf_compact : kernelHalfMachine.Compact topAtFrameOne := by
  intro path table here freeable
  rcases kernelHalf_tables here with ⟨rfl,_⟩ | ⟨a,rfl,high,_⟩
  · simp [Machine.Freeable] at freeable
  · simp [Machine.Freeable] at freeable
    omega

theorem kernelHalf_upper : kernelHalfMachine.UpperHalfPresent topAtFrameOne := by
  intro index high
  have top : frameNumber topAtFrameOne.pml4 = 1 := by decide
  rw [top,kernelHalf_entry high]
  exact (kernelHalf_link index).1

theorem map_unmap_returns {machine : Machine} {state : State} (regular : machine.Regular state)
    {vaddr physicalAddress : Word} {flags : List Flag}
    (maps : ¬ Stops (mapPage state vaddr physicalAddress (Flag.union flags) machine)) :
    ∃ final, runAll (Request.perform state) [.map vaddr physicalAddress flags,.unmap vaddr] machine = .ok () final := by
  have wf := regular.wellFormed
  have smooth := regular.flat.smooth vaddr
  obtain ⟨_,middle,first⟩ := (not_stops_iff _).mp maps
  have step : Request.perform state (.map vaddr physicalAddress flags) machine = .ok () middle := first
  have regular' := regular.edited (Request.edited wf (regular.flat.smooth _) step)
  have unmaps : ¬ Stops (unmapPage state vaddr middle) := by
    rw [unmapPage_stops_iff regular'.wellFormed (regular'.flat.smooth _) regular'.owned,
      (Machine.leafEntry_mapPage wf smooth first).2,if_pos rfl]
    simp
  obtain ⟨_,final,second⟩ := (not_stops_iff _).mp unmaps
  exact ⟨final,(runAll_cons_ok _ _ _ _ _).mpr ⟨middle,step,(runAll_cons_ok _ _ _ _ _).mpr ⟨final,second,rfl⟩⟩⟩

/-- A page of the lower half is mapped and unmapped again. -/
theorem tables_neither_leaked_nor_lost_onePage : ∃ final,
    runAll (Request.perform topAtFrameOne) [.map 0x400000 0x7000 [.readWrite],.unmap 0x400000] kernelHalfMachine =
      .ok () final ∧
    final.pmm.allocatableBitmap = kernelHalfManager.allocatableBitmap ∧ final.pmm.usableFrames = 766 := by
  have wf := kernelHalf_regular.wellFormed
  have flat := kernelHalf_regular.flat
  have maps : ¬ Stops (mapPage topAtFrameOne 0x400000 0x7000 (Flag.union [.readWrite]) kernelHalfMachine) := by
    rw [mapPage_stops_iff wf (flat.smooth _) kernelHalf_regular.zero_not_free]
    decide +kernel
  obtain ⟨final,run⟩ := map_unmap_returns kernelHalf_regular maps
  obtain ⟨_,_,restored⟩ := tables_neither_leaked_nor_lost kernelHalfMachine final topAtFrameOne _ wf flat
    kernelHalf_compact kernelHalf_upper run
  obtain ⟨_,bitmap,counter,_⟩ := restored [(0x400000,0x7000,[.readWrite])] [0x400000] rfl (List.Perm.refl _)
  exact ⟨final,run,bitmap,counter⟩

end BorealOS.Memory
