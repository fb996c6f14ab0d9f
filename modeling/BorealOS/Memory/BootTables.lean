import BorealOS.Memory.TableCopy

/-! The kernel's first page table. `CopyExistingPageTableToNew` copies the boot
loader's hierarchy below a cleared top-level table. Each table of level 3 is
copied into a frame that is not cleared, so the kernel's hierarchy translates
like the boot loader's whatever the free frames held exactly when no table of
level 3 has an absent entry. -/
namespace BorealOS.Memory

open TableTree Execution Paging Hardware

/-- What `Initialize` has prepared when it copies the boot loader's hierarchy, however many
frames are free: the new top-level table is a cleared frame of its own, and the boot loader's
tables are not free. Frame 0 is not handed out, since an allocation that answers its address
counts as failed. -/
structure BootTree (machine : Machine) (state loader : State) : Prop where
  allocated : ∀ path table, machine.tables loader path = some table → table ∉ machine.pmm.freeFrames
  apart : ∀ path, machine.tables loader path ≠ some (frameNumber state.pml4)
  taken : frameNumber state.pml4 ∉ machine.pmm.freeFrames
  zeroed : ∀ i, machine.memory (frameNumber state.pml4) i = 0
  zero : 0 ∉ machine.pmm.freeFrames
  bounded : machine.pmm.frameCount.toNat ≤ 2^40

/-- No allocation will fail either. -/
structure BootTables (machine : Machine) (state loader : State) : Prop extends BootTree machine state loader where
  enough : tablesBelow machine.memory 4 (frameNumber loader.pml4) ≤ machine.pmm.freeFrames.card

/-- The copy returns, the new hierarchy translates every address like the boot
loader's, and the boot loader's tables are as they were. -/
def Faithful (machine : Machine) (state loader : State) : Prop :=
  ∃ final, copyExistingPageTableToNew state loader.pml4 machine = .ok () final ∧
    (∀ vaddr, final.translate state vaddr = machine.translate loader vaddr) ∧
    ∀ path table, machine.tables loader path = some table → ∀ i, final.memory table i = machine.memory table i

namespace Machine

def withStale (machine : Machine) (stale : PhysicalMemory) : Machine :=
  { machine with memory := fun frame i => if frame ∈ machine.pmm.freeFrames then stale frame i else machine.memory frame i }

def TableOf (machine : Machine) (loader : State) (level table : Nat) : Prop :=
  ∃ path, path.length + level = 4 ∧ machine.tables loader path = some table

theorem tableOf_closed (machine : Machine) (loader : State) : Closed machine.memory (machine.TableOf loader) := by
  rintro level table i next ⟨path,depth,here⟩ down
  refine ⟨path ++ [i],by simp; omega,?_⟩
  have lower : 4 - path.length = level + 1 := by omega
  rw [tables_snoc here,lower]
  exact down

end Machine

theorem Machine.tables_first (machine : Machine) (loader : State) (i : Fin 512) :
    machine.tables loader [i] = child 4 (machine.memory (frameNumber loader.pml4) i) := by
  have top : machine.tables loader [] = some (frameNumber loader.pml4) := rfl
  exact tables_snoc top i

theorem Paging.child_top {entry : Word} (set : present entry = true) : child 4 entry = some (frameOf entry) := by
  simp [child,set]

section Slot
variable {machine : Machine} {state : State} {cr3 : Word} {i : Fin 512}

theorem copySlot_absent (unset : present (machine.memory (frameNumber cr3) i) = false) :
    copySlot state cr3 i machine = .ok () machine := by
  simp only [copySlot]
  rw [bind_of_ok readEntry_apply,if_neg (by simp [unset])]
  rfl

theorem copySlot_table {fresh : Nat} {inner : Machine} (set : present (machine.memory (frameNumber cr3) i) = true)
    (taken : allocatePage machine = .ok (frameAddress fresh) { machine with pmm := machine.pmm.take fresh 1 })
    (nonzero : frameAddress fresh ≠ 0)
    (copied : deepCopyPageTables 3 (machine.memory (frameNumber cr3) i &&& pointerMask) (frameAddress fresh)
      { machine with pmm := machine.pmm.take fresh 1 } = .ok () inner) :
    copySlot state cr3 i machine = .ok () (inner.withEntry (frameNumber state.pml4) i
      ((inner.memory (frameNumber cr3) i &&& flagsMask) ||| frameAddress fresh)) := by
  simp only [copySlot]
  rw [bind_of_ok readEntry_apply,if_pos set,bind_of_ok readEntry_apply,bind_of_ok taken,if_neg nonzero,bind_of_ok copied]
  rfl

end Slot

section Copy
variable {machine : Machine} {state loader : State}

theorem BootTree.ready (boot : BootTree machine state loader) :
    Ready machine.memory (machine.TableOf loader) machine where
  tables := fun _ table ⟨path,_,here⟩ => ⟨boot.allocated path table here,fun _ => rfl⟩
  zero := boot.zero
  bounded := boot.bounded

theorem BootTree.outside (boot : BootTree machine state loader) (level : Nat) :
    ¬ machine.TableOf loader level (frameNumber state.pml4) := fun ⟨path,_,here⟩ => boot.apart path here

theorem Machine.top_tableOf (machine : Machine) (loader : State) : machine.TableOf loader 4 (frameNumber loader.pml4) :=
  ⟨[],rfl,rfl⟩

/-- One round of the loop over the boot loader's top-level table. The copied table
keeps the words of its frame where the original has absent entries. -/
theorem copySlot_copies (boot : BootTree machine state loader) {current : Machine} {spare : Nat}
    {done rest : List (Fin 512)} {i : Fin 512} (new : i ∉ done)
    (copying : Copying machine.memory (machine.TableOf loader) machine.memory machine 3 (frameNumber loader.pml4)
      (frameNumber state.pml4) spare done (i::rest) current)
    (replicated : Replicated machine.memory machine 3 (frameNumber loader.pml4) (frameNumber state.pml4) done current) :
    ∃ after, copySlot state loader.pml4 i current = .ok () after ∧
      Copying machine.memory (machine.TableOf loader) machine.memory machine 3 (frameNumber loader.pml4)
        (frameNumber state.pml4) spare (done ++ [i]) rest after ∧
      Replicated machine.memory machine 3 (frameNumber loader.pml4) (frameNumber state.pml4) (done ++ [i]) after := by
  have word := (copying.ready.tables 4 _ (machine.top_tableOf loader)).2 i
  cases set : present (machine.memory (frameNumber loader.pml4) i) with
  | false =>
    exact ⟨current,copySlot_absent (word ▸ set),copying.skip set,
      replicated.skip (child_of_absent set) new boot.taken rfl fun _ _ _ => rfl⟩
  | true =>
    have down := child_top set
    obtain ⟨fresh,free,small,nonzero,unused,taken,left⟩ := copying.takes down
    have frame := frameNumber_frameAddress small
    have dst_ne : frameNumber state.pml4 ≠ fresh := fun same => boot.taken (copying.free (same ▸ free))
    obtain ⟨middle,taking⟩ : ∃ middle, middle = { current with pmm := current.pmm.take fresh 1 } := ⟨_,rfl⟩
    have erased : middle.pmm.freeFrames = current.pmm.freeFrames.erase fresh := by
      rw [taking]
      exact current.pmm.freeFrames_take_one fresh
    have memory : middle.memory = current.memory := by rw [taking]
    have pdp : machine.TableOf loader 3 (frameNumber (machine.memory (frameNumber loader.pml4) i &&& pointerMask)) :=
      machine.tableOf_closed loader 3 _ i _ (machine.top_tableOf loader) down
    obtain ⟨inner,copied,ended,replica⟩ := deepCopyPageTables_returns (machine.tableOf_closed loader) (by omega) (by omega)
      middle (machine.memory (frameNumber loader.pml4) i &&& pointerMask) (frameAddress fresh) _
      (copying.ready.taken free boot.outside erased (by rw [taking]; rfl) (fun _ _ _ _ => by rw [memory])) pdp
      (by rw [erased,frame]; exact Finset.notMem_erase fresh _) (by rw [frame]; exact unused) (by rw [erased,left]; rfl)
    rw [frame] at ended replica
    have row : ∀ j, inner.memory (frameNumber state.pml4) j = current.memory (frameNumber state.pml4) j := by
      intro j
      rw [ended.kept _ dst_ne ?_ j,memory]
      intro member
      rw [erased] at member
      exact absurd (copying.free (Finset.mem_of_mem_erase member)) boot.taken
    rw [taking,← word] at copied
    have run : copySlot state loader.pml4 i current = _ :=
      copySlot_table (word ▸ set) taken (fun same => nonzero ((frameAddress_eq_zero small).mp same)) copied
    have kept := (ended.ready.tables 4 _ (machine.top_tableOf loader)).2 i
    have leads : child 4 ((inner.memory (frameNumber loader.pml4) i &&& flagsMask) ||| frameAddress fresh) = some fresh := by
      rw [kept,BitVec.or_comm]
      exact child_copied small down
    have flags : SameFlags (machine.memory (frameNumber loader.pml4) i)
        ((inner.memory (frameNumber loader.pml4) i &&& flagsMask) ||| frameAddress fresh) := by
      rw [kept,BitVec.or_comm]
      exact sameFlags_copied small _
    have others : ∀ frame, frame ≠ frameNumber state.pml4 → ∀ j, (inner.withEntry (frameNumber state.pml4) i
        ((inner.memory (frameNumber loader.pml4) i &&& flagsMask) ||| frameAddress fresh)).memory frame j =
          inner.memory frame j := fun frame notHere j => write_frame _ notHere i j _
    have elsewhere : ∀ j, j ≠ i → (inner.withEntry (frameNumber state.pml4) i
        ((inner.memory (frameNumber loader.pml4) i &&& flagsMask) ||| frameAddress fresh)).memory (frameNumber state.pml4) j =
          current.memory (frameNumber state.pml4) j := fun j other => (write_index _ _ other _ _).trans (row j)
    refine ⟨_,run,copying.table new boot.taken boot.outside down free erased (fun _ _ _ _ => by rw [memory]) ended
      (fun _ _ => rfl) rfl others (write_here _ _ _ _) leads flags elsewhere ?_,
      replicated.table erased (fun _ _ _ _ => by rw [memory]) ended others copying.free new boot.taken down free rfl
        (by rw [show (inner.withEntry _ i _).memory _ i = _ from write_here _ _ _ _]; exact leads) elsewhere replica⟩
    intro j
    rw [memory]
    exact copying.kept fresh dst_ne.symm (fun _ => free) j

theorem copySlots_return (boot : BootTree machine state loader) {slots : List (Fin 512)} (different : slots.Nodup)
    {spare : Nat} (enough : machine.pmm.freeFrames.card =
      (slots.map (tablesFor machine.memory 3 (frameNumber loader.pml4))).sum + spare) :
    ∃ final, runAll (copySlot state loader.pml4) slots machine = .ok () final ∧
      Copying machine.memory (machine.TableOf loader) machine.memory machine 3 (frameNumber loader.pml4)
        (frameNumber state.pml4) spare slots [] final ∧
      Replicated machine.memory machine 3 (frameNumber loader.pml4) (frameNumber state.pml4) slots final := by
  obtain ⟨final,run,ends⟩ := runAll_returns (copySlot state loader.pml4)
    (fun done rest current => Copying machine.memory (machine.TableOf loader) machine.memory machine 3
      (frameNumber loader.pml4) (frameNumber state.pml4) spare done rest current ∧
      Replicated machine.memory machine 3 (frameNumber loader.pml4) (frameNumber state.pml4) done current)
    (fun done i rest current new copying => copySlot_copies boot new copying.1 copying.2) [] slots machine different
    ⟨Copying.begins boot.ready enough,replicated_nothing⟩
  exact ⟨final,run,ends⟩

theorem BootTree.copies (boot : BootTree machine state loader) {spare : Nat}
    (enough : machine.pmm.freeFrames.card = tablesBelow machine.memory 4 (frameNumber loader.pml4) + spare) :
    ∃ final, copyExistingPageTableToNew state loader.pml4 machine = .ok () final ∧
      Copying machine.memory (machine.TableOf loader) machine.memory machine 3 (frameNumber loader.pml4)
        (frameNumber state.pml4) spare (List.finRange 512) [] final ∧
      Replicated machine.memory machine 3 (frameNumber loader.pml4) (frameNumber state.pml4) (List.finRange 512) final := by
  obtain ⟨final,run,ends⟩ := copySlots_return boot (List.nodup_finRange 512) enough
  refine ⟨final,?_,ends⟩
  rw [copyExistingPageTableToNew,forM_eq_runAll]
  exact run

theorem copyExistingPageTableToNew_returns (boot : BootTables machine state loader) :
    ∃ final spare, copyExistingPageTableToNew state loader.pml4 machine = .ok () final ∧
      Copying machine.memory (machine.TableOf loader) machine.memory machine 3 (frameNumber loader.pml4)
        (frameNumber state.pml4) spare (List.finRange 512) [] final := by
  obtain ⟨spare,enough⟩ := Nat.exists_eq_add_of_le boot.enough
  obtain ⟨final,run,ends,_⟩ := boot.copies enough
  exact ⟨final,spare,run,ends⟩

/-- The whole new hierarchy is a copy of the boot loader's, if what the free frames hold
where a table of level 3 has an absent entry is a copy of that. -/
theorem Copying.mirror (boot : BootTree machine state loader) {final : Machine} {spare : Nat}
    (copying : Copying machine.memory (machine.TableOf loader) machine.memory machine 3 (frameNumber loader.pml4)
      (frameNumber state.pml4) spare (List.finRange 512) [] final) {leaf : Word → Word → Prop}
    (exactly : ∀ entry copy, ExactLeaf entry copy → leaf entry copy)
    (absent : ∀ i pdp fresh j, child 4 (machine.memory (frameNumber loader.pml4) i) = some pdp →
      fresh ∈ machine.pmm.freeFrames → present (machine.memory pdp j) = false →
      present (machine.memory fresh j) = false ∧ leaf (machine.memory pdp j) (machine.memory fresh j)) (i : Fin 512) :
    Mirror child leaf SameFlags machine.memory final.memory
      (fun frame => frame ∈ machine.pmm.freeFrames ∧ frame ∉ final.pmm.freeFrames) 4
      (machine.memory (frameNumber loader.pml4) i) (final.memory (frameNumber state.pml4) i) := by
  cases set : present (machine.memory (frameNumber loader.pml4) i) with
  | true =>
    exact (copying.copies i (List.mem_finRange i) set).mirror set exactly fun pdp fresh j down owned =>
      absent i pdp fresh j down owned.1
  | false =>
    have word : final.memory (frameNumber state.pml4) i = 0 := (copying.holes i fun _ => set).trans (boot.zeroed i)
    refine Or.inl ⟨child_of_absent set,by rw [word]; exact child_zero 4,exactly _ _ ?_⟩
    rw [ExactLeaf,word,if_neg (by simp [set])]

/-- The free frames hold no Present bit where a table of level 3 has an absent
entry. -/
def Machine.NoStale (machine : Machine) (loader : State) : Prop :=
  ∀ index pdp i frame, machine.tables loader [index] = some pdp → present (machine.memory pdp i) = false →
    frame ∈ machine.pmm.freeFrames → present (machine.memory frame i) = false

theorem BootTables.faithful (boot : BootTables machine state loader) (clean : machine.NoStale loader) :
    Faithful machine state loader := by
  obtain ⟨final,spare,run,copying⟩ := copyExistingPageTableToNew_returns boot
  refine ⟨final,run,?_,fun path table here => (copying.ready.tables (4 - path.length) table ⟨path,?_,here⟩).2⟩
  · intro vaddr
    have mirror := copying.mirror boot.toBootTree ExactLeaf.sameLeaf fun i pdp fresh j down free unset => by
      have absent := clean i pdp j fresh ((machine.tables_first loader i).trans down) unset free
      exact ⟨absent,absent.trans unset.symm,fun set => by rw [unset] at set; cases set⟩
    have walked : final.walk state vaddr = machine.walk loader vaddr := walk_mirror vaddr (by omega) mirror
    rw [Machine.translate,Machine.translate,walked]
  · have := Machine.length_le_of_table here
    omega

def staleLeaf : Word := Flag.present.bit ||| Flag.hugePage.bit

/-- Where a table of level 3 has an absent entry, a leaf left in the free frames
shows through. -/
theorem BootTables.not_faithful (boot : BootTables machine state loader) {index i : Fin 512} {pdp : Nat}
    (here : machine.tables loader [index] = some pdp) (unset : present (machine.memory pdp i) = false)
    (stale : ∀ frame ∈ machine.pmm.freeFrames, machine.memory frame i = staleLeaf) :
    ¬ Faithful machine state loader := by
  rintro ⟨final,run,translated,_⟩
  obtain ⟨end',spare,same,copying⟩ := copyExistingPageTableToNew_returns boot
  rw [run] at same
  cases same
  rw [machine.tables_first] at here
  obtain ⟨vaddr,path,_⟩ := exists_address (show [index,i,0].length = 3 from rfl) 0
  simp only [directoryPath,List.cons.injEq,and_true] at path
  obtain ⟨first,second,_⟩ := path
  have original : machine.walk loader vaddr = none := by
    rw [Machine.walk,walk_child (show child (3 + 1) (machine.memory _ (tableIndex vaddr (12 + 9 * 3))) = some pdp from
      first ▸ here)]
    exact walk_absent (show present (machine.memory pdp (tableIndex vaddr (12 + 9 * 2))) = false from second ▸ unset)
  rcases copying.copies index (List.mem_finRange index) (child_some here).1 with
    ⟨ends,_⟩ | ⟨next,fresh,down,copied,_,owned,below⟩
  · rw [here] at ends
    cases ends
  · have word : final.memory fresh i = staleLeaf := by
      have same : next = pdp := Option.some.inj (down.symm.trans here)
      rw [(below i).2 (same ▸ unset)]
      exact stale fresh owned.1
    have copy : final.walk state vaddr = some ⟨3,staleLeaf⟩ := by
      rw [Machine.walk,walk_child (show child (3 + 1) (final.memory _ (tableIndex vaddr (12 + 9 * 3))) = some fresh from
        first ▸ copied)]
      have shown : final.memory fresh (tableIndex vaddr (12 + 9 * 2)) = staleLeaf := by
        rw [← word,← second]
      rw [walk_leaf (by rw [shown]; decide) (by omega) (by rw [shown]; decide),shown]
    have agree := translated vaddr
    rw [Machine.translate,Machine.translate,original,copy] at agree
    cases agree

theorem BootTables.tables_withStale (boot : BootTables machine state loader) (stale : PhysicalMemory) :
    (machine.withStale stale).tables loader = machine.tables loader := by
  funext path
  apply tableAt_congr
  intro before i table _ here
  exact if_neg (boot.allocated before table here)

theorem BootTables.withStale (boot : BootTables machine state loader) (stale : PhysicalMemory) :
    BootTables (machine.withStale stale) state loader where
  allocated := by
    rw [boot.tables_withStale]
    exact boot.allocated
  apart := by
    rw [boot.tables_withStale]
    exact boot.apart
  taken := boot.taken
  zeroed := fun i => (if_neg boot.taken).trans (boot.zeroed i)
  zero := boot.zero
  bounded := boot.bounded
  enough := by
    have same : tablesBelow (machine.withStale stale).memory 4 (frameNumber loader.pml4) = _ :=
      tablesBelow_congr (machine.tableOf_closed loader)
        (fun _ table original i => if_neg (boot.ready.tables _ table original).1) (machine.top_tableOf loader)
    rw [same]
    exact boot.enough

/-- Whatever the free frames held, the kernel's first page table translates like
the boot loader's exactly when every table of level 3 is full. -/
theorem copyExistingPageTableToNew_faithful_iff (machine : Machine) (state loader : State)
    (boot : BootTables machine state loader) :
    (∀ stale, Faithful (machine.withStale stale) state loader) ↔
      ∀ index pdp, machine.tables loader [index] = some pdp → ∀ i, present (machine.memory pdp i) = true := by
  constructor
  · intro faithful index pdp here i
    by_contra unset
    have hole : present ((machine.withStale fun _ _ => staleLeaf).memory pdp i) = false := by
      simpa [Machine.withStale,boot.allocated _ pdp here] using unset
    have still : (machine.withStale fun _ _ => staleLeaf).tables loader [index] = some pdp := by
      rw [boot.tables_withStale]
      exact here
    exact (boot.withStale fun _ _ => staleLeaf).not_faithful still hole (fun frame free => if_pos free) (faithful _)
  · intro full stale
    apply (boot.withStale stale).faithful
    intro index pdp i frame here unset _
    rw [boot.tables_withStale] at here
    have word : (machine.withStale stale).memory pdp i = machine.memory pdp i := if_neg (boot.allocated _ pdp here)
    rw [word,full index pdp here i] at unset
    cases unset

end Copy

/-! A boot loader's hierarchy of two tables. The table of level 3 has the same
word at every index, and the free frames hold stale leaves. -/

def topAtFrameThree : State := ⟨0x3000,by decide⟩

def oneSlotMemory (word : Word) : PhysicalMemory := fun frame index =>
  if frame = 1 then if index = 0 then 0x2003 else 0
  else if frame = 2 then word
  else if frame = 3 then 0
  else staleLeaf

def oneSlotMachine (word : Word) : Machine where
  memory := oneSlotMemory word
  pmm := PhysicalMemoryManager.eightFrames.take 1 3
  freed := []

theorem oneSlot_first (word : Word) (index : Fin 512) :
    child 4 (oneSlotMemory word 1 index) = if index = 0 then some 2 else none := by
  by_cases zero : index = 0
  · subst zero
    simp only [oneSlotMemory,if_true]
    decide
  · simp [oneSlotMemory,zero]

theorem oneSlot_tables {word : Word} (leaf : child 3 word = none) {path : List (Fin 512)} {table : Nat}
    (here : (oneSlotMachine word).tables topAtFrameOne path = some table) :
    (path = [] ∧ table = 1) ∨ (path = [0] ∧ table = 2) := by
  have top : frameNumber topAtFrameOne.pml4 = 1 := by decide
  rw [Machine.tables,top] at here
  change TableTree.tableAt child (oneSlotMemory word) 4 1 path = some table at here
  rcases path with _ | ⟨a,_ | ⟨b,path⟩⟩ <;>
    simp only [TableTree.tableAt,oneSlot_first,Option.some.injEq,Option.bind_eq_some_iff,Option.ite_none_right_eq_some] at here
  · exact Or.inl ⟨rfl,here.symm⟩
  · obtain ⟨_,⟨rfl,rfl⟩,rfl⟩ := here
    exact Or.inr ⟨rfl,rfl⟩
  · obtain ⟨_,⟨rfl,rfl⟩,_,second,_⟩ := here
    change child 3 word = _ at second
    rw [leaf] at second
    cases second

theorem oneSlot_boot {word : Word} (leaf : child 3 word = none) :
    BootTables (oneSlotMachine word) topAtFrameThree topAtFrameOne where
  allocated := by
    intro path table here
    rcases oneSlot_tables leaf here with ⟨_,rfl⟩ | ⟨_,rfl⟩
    · exact (by decide : 1 ∉ (PhysicalMemoryManager.eightFrames.take 1 3).freeFrames)
    · exact (by decide : 2 ∉ (PhysicalMemoryManager.eightFrames.take 1 3).freeFrames)
  apart := by
    intro path here
    have top : frameNumber topAtFrameThree.pml4 = 3 := by decide
    rcases oneSlot_tables leaf here with ⟨_,same⟩ | ⟨_,same⟩ <;> omega
  taken := (by decide : 3 ∉ (PhysicalMemoryManager.eightFrames.take 1 3).freeFrames)
  zeroed := fun _ => rfl
  zero := (by decide : 0 ∉ (PhysicalMemoryManager.eightFrames.take 1 3).freeFrames)
  bounded := (by decide : (8 : Word).toNat ≤ 2^40)
  enough := by
    have top : frameNumber topAtFrameOne.pml4 = 1 := by decide
    have lower : tablesBelow (oneSlotMemory word) 3 2 = 0 := by
      have none : tablesFor (oneSlotMemory word) 2 2 = fun _ => 0 := by
        funext i
        change (child 3 word).elim 0 _ = 0
        rw [leaf]
        rfl
      rw [tablesBelow_succ,none,List.map_const',List.sum_replicate,smul_zero]
    have upper : tablesBelow (oneSlotMemory word) 4 1 ≤ 1 := by
      have one : tablesFor (oneSlotMemory word) 3 1 = fun i => if i = 0 then 1 else 0 := by
        funext i
        rw [tablesFor,oneSlot_first]
        by_cases zero : i = 0
        · simp [zero,lower]
        · simp [zero]
      rw [tablesBelow_succ,one]
      decide +kernel
    rw [top]
    exact upper.trans (by decide : 1 ≤ (PhysicalMemoryManager.eightFrames.take 1 3).freeFrames.card)

/-- A table of level 3 full of 1 GiB leaves is copied whatever the free frames held. -/
theorem copyExistingPageTableToNew_faithful_fullTable :
    BootTables (oneSlotMachine 0x83) topAtFrameThree topAtFrameOne ∧
    ∀ stale, Faithful ((oneSlotMachine 0x83).withStale stale) topAtFrameThree topAtFrameOne := by
  have leaf : child 3 0x83 = none := by decide
  refine ⟨oneSlot_boot leaf,?_⟩
  apply (copyExistingPageTableToNew_faithful_iff _ _ _ (oneSlot_boot leaf)).mpr
  intro index pdp here i
  rcases oneSlot_tables leaf here with ⟨top,_⟩ | ⟨_,rfl⟩
  · cases top
  · exact (by decide : present 0x83 = true)

/-- An empty table of level 3 is copied into a frame of stale leaves. -/
theorem copyExistingPageTableToNew_emptyTable :
    BootTables (oneSlotMachine 0) topAtFrameThree topAtFrameOne ∧
    ¬ Faithful (oneSlotMachine 0) topAtFrameThree topAtFrameOne := by
  have boot : BootTables (oneSlotMachine 0) topAtFrameThree topAtFrameOne := oneSlot_boot (by decide)
  have here : (oneSlotMachine 0).tables topAtFrameOne [0] = some 2 := by
    rw [Machine.tables_first]
    exact oneSlot_first 0 0
  have hole : present ((oneSlotMachine 0).memory 2 0) = false := present_zero
  refine ⟨boot,boot.not_faithful here hole ?_⟩
  intro frame free
  have one : frame ≠ 1 := fun same => boot.allocated [] 1 rfl (same ▸ free)
  have two : frame ≠ 2 := fun same => boot.allocated [0] 2 here (same ▸ free)
  have three : frame ≠ 3 := by
    have top : frameNumber topAtFrameThree.pml4 = 3 := by decide
    exact fun same => boot.taken (top ▸ same ▸ free)
  change oneSlotMemory 0 frame 0 = staleLeaf
  rw [oneSlotMemory,if_neg one,if_neg two,if_neg three]

end BorealOS.Memory
