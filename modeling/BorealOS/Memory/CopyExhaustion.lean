import BorealOS.Memory.BootTables

/-! Running out of frames while the boot loader's hierarchy is copied.
`CopyExistingPageTableToNew` stops when the frame for a table of level 3 is
missing. `DeepCopyPageTables` does not test its allocations: without a free frame
it clears frame 0, links it as a table and copies into it. -/
namespace BorealOS.Memory

open TableTree Execution Paging

private theorem exists_short {A : Type} (cost : A → Nat) (budget : Nat) (list : List A)
    (short : budget < (list.map cost).sum) : ∃ before a after, list = before ++ a :: after ∧
      (before.map cost).sum ≤ budget ∧ budget < (before.map cost).sum + cost a := by
  induction list generalizing budget with
  | nil => simp at short
  | cons a list ih =>
    by_cases first : budget < cost a
    · exact ⟨[],a,list,rfl,by simp,by simpa using first⟩
    · rw [List.map_cons,List.sum_cons] at short
      obtain ⟨before,b,after,whole,enough,ends⟩ := ih (budget - cost a) (by omega)
      refine ⟨a::before,b,after,by rw [whole,List.cons_append],?_,?_⟩ <;> simp only [List.map_cons,List.sum_cons] <;> omega

/-! The copy without free frames. -/

/-- Only frame 0 and the entries `entries` of the table `dst` have been written. -/
structure Spilled (machine : Machine) (dst : Nat) (entries : Fin 512 → Prop) (after : Machine) : Prop where
  manager : after.pmm = machine.pmm
  kept : ∀ frame j, frame ≠ 0 → (frame = dst → ¬ entries j) → after.memory frame j = machine.memory frame j

section Spill
variable {machine middle after : Machine} {dst : Nat} {entries more : Fin 512 → Prop}

theorem spilled_nothing : Spilled machine dst entries machine := ⟨rfl,fun _ _ _ _ => rfl⟩

theorem spilled_entry (machine : Machine) (dst : Nat) (i : Fin 512) (entry : Word) :
    Spilled machine dst (· = i) (machine.withEntry dst i entry) where
  manager := rfl
  kept := fun _ _ _ other => if_neg fun ⟨here,index⟩ => other here index

theorem Spilled.trans (first : Spilled machine dst entries middle) (second : Spilled middle dst more after) :
    Spilled machine dst (fun j => entries j ∨ more j) after where
  manager := second.manager.trans first.manager
  kept := by
    intro frame j nonzero other
    rw [second.kept frame j nonzero fun here member => other here (Or.inr member)]
    exact first.kept frame j nonzero fun here member => other here (Or.inl member)

theorem Spilled.zero (first : Spilled machine dst entries middle) (second : Spilled middle 0 more after) :
    Spilled machine dst entries after where
  manager := second.manager.trans first.manager
  kept := by
    intro frame j nonzero other
    rw [second.kept frame j nonzero fun here => absurd here nonzero]
    exact first.kept frame j nonzero other

end Spill

theorem allocatePage_exhausted {machine : Machine} (none : machine.pmm.freeFrames = ∅) :
    allocatePage machine = .ok 0 machine := by
  rcases allocatePage_cases machine with ⟨fresh,free,_⟩ | ⟨_,nothing⟩
  · rw [none] at free
    exact absurd free (Finset.notMem_empty fresh)
  · exact nothing

namespace Paging

section Exhausted
variable {machine : Machine} {below : Nat} (srcPhys dstPhys : Word) (i : Fin 512)

def zeroLinked (machine : Machine) (dst : Nat) (i : Fin 512) (flags : Word) : Machine :=
  ({ machine with memory := fill machine.memory 0 0 } : Machine).withEntry dst i (0 ||| flags)

theorem spilled_zeroLinked (machine : Machine) (dst : Nat) (i : Fin 512) (flags : Word) :
    Spilled machine dst (· = i) (zeroLinked machine dst i flags) where
  manager := rfl
  kept := fun _ j nonzero other =>
    (if_neg fun ⟨here,index⟩ => other here index).trans (fill_frame machine.memory nonzero j 0)

theorem child_zero_copied {level next : Nat} {entry : Word} (down : child level entry = some next) :
    child level (0 ||| (entry &&& flagsMask)) = some 0 := by
  have zero : frameAddress 0 = 0 := by decide
  have copied : child level (frameAddress 0 ||| (entry &&& flagsMask)) = some 0 := child_copied (by decide) down
  rw [zero] at copied
  exact copied

theorem copyEntry_zero (none : machine.pmm.freeFrames = ∅) (set : present (machine.memory (frameNumber srcPhys) i) = true)
    (inner : ¬ ((below + 1 = 3 ∨ below + 1 = 2) ∧ huge (machine.memory (frameNumber srcPhys) i) = true))
    (middle : ¬ below + 1 = 1) :
    ∃ src flags, copyEntry below srcPhys dstPhys i machine =
      deepCopyPageTables below src 0 (zeroLinked machine (frameNumber dstPhys) i flags) ∧
      (frameNumber srcPhys ≠ 0 → flags = machine.memory (frameNumber srcPhys) i &&& flagsMask) := by
  obtain ⟨flags,cleared⟩ : ∃ flags, flags = fill machine.memory 0 0 (frameNumber srcPhys) i &&& flagsMask := ⟨_,rfl⟩
  refine ⟨(zeroLinked machine (frameNumber dstPhys) i flags).memory (frameNumber srcPhys) i &&& pointerMask,flags,?_,
    fun nonzero => ?_⟩
  · simp only [copyEntry]
    rw [bind_of_ok readEntry_apply,if_pos set,bind_of_ok readEntry_apply,if_neg inner,if_neg middle,
      bind_of_ok (allocatePage_exhausted none),bind_of_ok clearTable_apply,bind_of_ok readEntry_apply,
      bind_of_ok writeEntry_apply,bind_of_ok readEntry_apply,cleared]
    rfl
  · rw [cleared,fill_frame machine.memory nonzero i 0]

/-- `DeepCopyPageTables` returns without free frames as well. -/
def SpillsTables (level : Nat) : Prop :=
  ∀ (machine : Machine) (srcPhys dstPhys : Word), machine.pmm.freeFrames = ∅ →
    ∃ after, deepCopyPageTables level srcPhys dstPhys machine = .ok () after ∧
      Spilled machine (frameNumber dstPhys) (fun _ => True) after

theorem copyEntry_spills (deeper : SpillsTables below) (none : machine.pmm.freeFrames = ∅) :
    ∃ after, copyEntry below srcPhys dstPhys i machine = .ok () after ∧
      Spilled machine (frameNumber dstPhys) (· = i) after := by
  cases set : present (machine.memory (frameNumber srcPhys) i) with
  | false => exact ⟨machine,copyEntry_absent set,spilled_nothing⟩
  | true =>
    by_cases leaf : ((below + 1 = 3 ∨ below + 1 = 2) ∧ huge (machine.memory (frameNumber srcPhys) i) = true) ∨ below + 1 = 1
    · refine ⟨_,?_,spilled_entry machine (frameNumber dstPhys) i (machine.memory (frameNumber srcPhys) i)⟩
      simp only [copyEntry]
      rw [bind_of_ok readEntry_apply,if_pos set,bind_of_ok readEntry_apply]
      rcases leaf with large | bottom
      · rw [if_pos large,bind_of_ok readEntry_apply]
        rfl
      · rw [if_pos bottom,ite_self,bind_of_ok readEntry_apply]
        rfl
    · rw [not_or] at leaf
      obtain ⟨src,flags,run,_⟩ := copyEntry_zero srcPhys dstPhys i none set leaf.1 leaf.2
      obtain ⟨after,copied,spilled⟩ := deeper (zeroLinked machine (frameNumber dstPhys) i flags) src 0 none
      exact ⟨after,run.trans copied,(spilled_zeroLinked machine (frameNumber dstPhys) i flags).zero spilled⟩

theorem copyEntries_spill (deeper : SpillsTables below) (entries : List (Fin 512)) (none : machine.pmm.freeFrames = ∅) :
    ∃ after, runAll (copyEntry below srcPhys dstPhys) entries machine = .ok () after ∧
      Spilled machine (frameNumber dstPhys) (· ∈ entries) after := by
  induction entries generalizing machine with
  | nil => exact ⟨machine,rfl,spilled_nothing⟩
  | cons i entries ih =>
    obtain ⟨middle,first,here⟩ := copyEntry_spills srcPhys dstPhys i deeper none
    obtain ⟨after,rest,there⟩ := ih (here.manager ▸ none)
    refine ⟨after,(runAll_cons_ok _ _ _ _ _).mpr ⟨middle,first,rest⟩,?_⟩
    simpa using here.trans there

theorem deepCopyPageTables_spills (level : Nat) : SpillsTables level := by
  induction level with
  | zero => exact fun machine _ _ _ => ⟨machine,rfl,spilled_nothing⟩
  | succ below ih =>
    intro machine srcPhys dstPhys none
    obtain ⟨after,run,spilled⟩ := copyEntries_spill srcPhys dstPhys ih (List.finRange 512) none
    refine ⟨after,(congrFun (deepCopyPageTables_eq below srcPhys dstPhys) machine).trans run,?_⟩
    simpa using spilled

end Exhausted

end Paging

/-! The entry at which the frames run out. -/

section Short
variable {source : PhysicalMemory} {loader : (level table : Nat) → Prop}

/-- Without frames for all the tables below, `DeepCopyPageTables` returns and the copy
leads to frame 0. -/
structure Lost (source : PhysicalMemory) (start : Machine) (level original dst : Nat) (final : Machine) : Prop where
  none : final.pmm.freeFrames = ∅
  kept : ∀ frame, frame ≠ 0 → frame ≠ dst → frame ∉ start.pmm.freeFrames → ∀ j, final.memory frame j = start.memory frame j
  astray : ∃ i path, Astray child source final.memory (· ∈ start.pmm.freeFrames) 0 level original dst i path

def LosesTables (source : PhysicalMemory) (loader : (level table : Nat) → Prop) (level : Nat) : Prop :=
  ∀ (start : Machine) (srcPhys dstPhys : Word), Ready source loader start →
    loader level (frameNumber srcPhys) → frameNumber dstPhys ∉ start.pmm.freeFrames →
    (∀ level, ¬ loader level (frameNumber dstPhys)) → frameNumber dstPhys ≠ 0 →
    start.pmm.freeFrames.card < tablesBelow source level (frameNumber srcPhys) →
    ∃ final, deepCopyPageTables level srcPhys dstPhys start = .ok () final ∧
      Lost source start level (frameNumber srcPhys) (frameNumber dstPhys) final

/-- The entry at which the frames run out gets the link to frame 0 itself, or the
frames run out below it. -/
theorem copyEntry_loses {below next : Nat} (closed : Closed source loader) (low : below ≤ 2)
    (nowhere : ∀ level, ¬ loader level 0) (deeper : 1 ≤ below → LosesTables source loader below)
    {start : Machine} {srcPhys dstPhys : Word} {i : Fin 512} (ready : Ready source loader start)
    (here : loader (below + 1) (frameNumber srcPhys)) (outside : frameNumber dstPhys ∉ start.pmm.freeFrames)
    (apart : ∀ level, ¬ loader level (frameNumber dstPhys)) (nonzero : frameNumber dstPhys ≠ 0)
    (down : child (below + 1) (source (frameNumber srcPhys) i) = some next)
    (short : start.pmm.freeFrames.card < tablesBelow source below next + 1) :
    ∃ final, copyEntry below srcPhys dstPhys i start = .ok () final ∧ final.pmm.freeFrames = ∅ ∧
      (∀ frame j, frame ≠ 0 → (frame = frameNumber dstPhys → j ≠ i) → frame ∉ start.pmm.freeFrames →
        final.memory frame j = start.memory frame j) ∧
      ∃ path, Astray child source final.memory (· ∈ start.pmm.freeFrames) 0 (below + 1) (frameNumber srcPhys)
        (frameNumber dstPhys) i path := by
  have word := (ready.tables _ _ here).2 i
  have source_ne : frameNumber srcPhys ≠ frameNumber dstPhys := fun same => apart _ (same ▸ here)
  obtain ⟨set,high,flat,_⟩ := child_some down
  have onward : frameNumber (source (frameNumber srcPhys) i &&& pointerMask) = next := (child_some down).2.2.2.symm
  rcases allocatePage_cases start with ⟨fresh,free,_,taken⟩ | ⟨none,_⟩
  · have small : fresh < 2^40 := Nat.lt_of_lt_of_le ((start.pmm.mem_freeFrames fresh).mp free).1 ready.bounded
    have unused : ∀ level, ¬ loader level fresh := fun level original => (ready.tables level fresh original).1 free
    have frame := frameNumber_frameAddress small
    have dst_ne : frameNumber dstPhys ≠ fresh := fun same => outside (same ▸ free)
    have run := copyEntry_table low (word ▸ down) taken small source_ne fun same => unused _ (same ▸ here)
    rw [word] at run
    obtain ⟨middle,link⟩ : ∃ middle, middle = start.linked (frameNumber dstPhys) i fresh
      (source (frameNumber srcPhys) i &&& flagsMask) := ⟨_,rfl⟩
    rw [← link] at run
    have erased : middle.pmm.freeFrames = start.pmm.freeFrames.erase fresh := by
      rw [link,Machine.freeFrames_linked]
    have fewer : ∀ frame, frame ∈ middle.pmm.freeFrames → frame ∈ start.pmm.freeFrames := by
      intro frame member
      rw [erased] at member
      exact Finset.mem_of_mem_erase member
    have untouched : ∀ frame, frame ≠ frameNumber dstPhys → frame ≠ fresh → ∀ j,
        middle.memory frame j = start.memory frame j := by
      intro frame notHere notFresh j
      rw [link]
      exact (write_frame _ notHere i j _).trans (fill_frame _ notFresh j 0)
    have one := Finset.card_erase_add_one free
    obtain ⟨final,copied,lost⟩ := deeper (by omega) middle (source (frameNumber srcPhys) i &&& pointerMask)
      (frameAddress fresh) (ready.taken free apart erased (by rw [link]; rfl) untouched)
      (onward ▸ closed below _ i next here down) (by rw [erased,frame]; exact Finset.notMem_erase fresh _)
      (by rw [frame]; exact unused) (by rw [frame]; exact fun same => ready.zero (same ▸ free)) (by rw [erased,onward]; omega)
    rw [frame,onward] at lost
    have row : ∀ j, final.memory (frameNumber dstPhys) j = middle.memory (frameNumber dstPhys) j :=
      lost.kept _ nonzero dst_ne fun member => outside (fewer _ member)
    have leads : child (below + 1) (final.memory (frameNumber dstPhys) i) = some fresh := by
      rw [row i,link]
      change child (below + 1) (write _ _ i _ _ i) = some fresh
      rw [write_here]
      exact child_copied small down
    obtain ⟨j,path,rest⟩ := lost.astray
    refine ⟨final,run.trans copied,lost.none,?_,j::path,.deeper down leads free
      (rest.transfer rfl fun frame member => ⟨fewer frame member,fun _ => rfl⟩)⟩
    intro frame k notZero other used
    have notFresh : frame ≠ fresh := fun same => used (same ▸ free)
    by_cases atDst : frame = frameNumber dstPhys
    · rw [atDst,row k,link]
      exact (write_index _ _ (other atDst) _ _).trans (fill_frame _ dst_ne k 0)
    · rw [lost.kept frame notZero notFresh (fun member => used (fewer _ member)) k,untouched frame atDst notFresh k]
  · have inner : ¬ ((below + 1 = 3 ∨ below + 1 = 2) ∧ huge (start.memory (frameNumber srcPhys) i) = true) := by
      rw [word]
      rintro ⟨_,leaf⟩
      rw [flat (by omega)] at leaf
      cases leaf
    obtain ⟨src,flags,run,kept⟩ := copyEntry_zero srcPhys dstPhys i none (word ▸ set) inner (by omega)
    obtain ⟨final,copied,spilled⟩ :=
      deepCopyPageTables_spills below (zeroLinked start (frameNumber dstPhys) i flags) src 0 none
    have whole := (spilled_zeroLinked start (frameNumber dstPhys) i flags).zero spilled
    have leads : child (below + 1) (final.memory (frameNumber dstPhys) i) = some 0 := by
      have same : flags = source (frameNumber srcPhys) i &&& flagsMask :=
        word ▸ kept fun zero => nowhere _ (zero ▸ here)
      rw [spilled.kept _ i nonzero fun zero => absurd zero nonzero]
      change child (below + 1) (write _ _ i _ _ i) = some 0
      rw [write_here,same]
      exact child_zero_copied down
    exact ⟨final,run.trans copied,whole.manager ▸ none,fun frame j notZero other _ => whole.kept frame j notZero other,
      [],.here down leads⟩

theorem deepCopyPageTables_loses {level : Nat} (closed : Closed source loader) (nowhere : ∀ level, ¬ loader level 0)
    (low : 1 ≤ level) (high : level ≤ 3) : LosesTables source loader level := by
  induction level with
  | zero => omega
  | succ below ih =>
    intro start srcPhys dstPhys ready here outside apart nonzero short
    rw [tablesBelow_succ] at short
    obtain ⟨before,i,after,whole,enough,ends⟩ := exists_short _ _ _ short
    have different : (before ++ i :: after).Nodup := whole ▸ List.nodup_finRange 512
    obtain ⟨spare,count⟩ := Nat.exists_eq_add_of_le enough
    obtain ⟨middle,first,copying,_⟩ := copyEntries_return closed (by omega)
      (fun bottom => deepCopyPageTables_returns closed bottom (by omega)) (List.nodup_append.mp different).1 ready here
      outside apart count
    have left : middle.pmm.freeFrames.card = spare := by simpa using copying.enough
    obtain ⟨next,down⟩ : ∃ next, child (below + 1) (source (frameNumber srcPhys) i) = some next := by
      cases down : child (below + 1) (source (frameNumber srcPhys) i) with
      | none => simp [tablesFor,down] at ends; omega
      | some next => exact ⟨next,rfl⟩
    have one : tablesFor source below (frameNumber srcPhys) i = tablesBelow source below next + 1 := by
      simp [tablesFor,down]
    obtain ⟨lost,second,none,kept,path,astray⟩ := copyEntry_loses closed (by omega) nowhere
      (fun bottom => ih bottom (by omega)) copying.ready here (fun member => outside (copying.free member)) apart nonzero
      down (by omega)
    obtain ⟨final,third,spilled⟩ := copyEntries_spill srcPhys dstPhys (deepCopyPageTables_spills below) after none
    refine ⟨final,?_,spilled.manager ▸ none,?_,i,path,?_⟩
    · rw [deepCopyPageTables_eq,whole,runAll_append_ok]
      exact ⟨middle,first,(runAll_cons_ok _ _ _ _ _).mpr ⟨lost,second,third⟩⟩
    · intro frame notZero notHere used j
      rw [spilled.kept frame j notZero fun same => absurd same notHere,
        kept frame j notZero (fun same => absurd same notHere) fun member => used (copying.free member),
        copying.kept frame notHere (fun member => absurd member used) j]
    · have later : i ∉ after := (List.nodup_cons.mp (List.nodup_append.mp different).2.1).1
      apply astray.transfer (spilled.kept _ i nonzero fun _ => later)
      intro frame member
      have started := copying.free member
      refine ⟨started,fun j => spilled.kept frame j ?_ fun same => absurd (same ▸ started) outside⟩
      exact fun zero => ready.zero (zero ▸ started)

end Short

/-! The loop over the top-level table. -/

section Top
variable {machine : Machine} {state loader : State}

theorem copySlot_stops {current : Machine} {cr3 : Word} {i : Fin 512} (none : current.pmm.freeFrames = ∅)
    (set : present (current.memory (frameNumber cr3) i) = true) :
    copySlot state cr3 i current = .error .deepCopyAllocationFailed current := by
  simp only [copySlot]
  rw [bind_of_ok readEntry_apply,if_pos set,bind_of_ok readEntry_apply,bind_of_ok (allocatePage_exhausted none),if_pos rfl]
  rfl

theorem copySlots_exhausted {cr3 : Word} (slots : List (Fin 512)) {current : Machine}
    (none : current.pmm.freeFrames = ∅) : finalState (runAll (copySlot state cr3) slots current) = current := by
  induction slots with
  | nil => rfl
  | cons i slots ih =>
    cases set : present (current.memory (frameNumber cr3) i) with
    | false => rw [runAll_cons_of_ok _ (copySlot_absent set)]; exact ih
    | true => rw [runAll,bind_of_error (copySlot_stops none set)]; rfl

/-- The slot below which the frames run out is linked all the same. -/
theorem copySlot_loses {current : Machine} {i : Fin 512} {next : Nat} (nowhere : ∀ path, machine.tables loader path ≠ some 0)
    (ready : Ready machine.memory (machine.TableOf loader) current)
    (outside : frameNumber state.pml4 ∉ current.pmm.freeFrames)
    (apart : ∀ level, ¬ machine.TableOf loader level (frameNumber state.pml4))
    (down : child 4 (machine.memory (frameNumber loader.pml4) i) = some next) (some : current.pmm.freeFrames ≠ ∅)
    (short : current.pmm.freeFrames.card < tablesBelow machine.memory 3 next + 1) :
    ∃ final, copySlot state loader.pml4 i current = .ok () final ∧ final.pmm.freeFrames = ∅ ∧
      ∃ path, Astray child machine.memory final.memory (fun _ => True) 0 4 (frameNumber loader.pml4)
        (frameNumber state.pml4) i path := by
  have top := machine.top_tableOf loader
  have absent : ∀ level, ¬ machine.TableOf loader level 0 := fun level ⟨path,_,here⟩ => nowhere path here
  have word := (ready.tables 4 _ top).2 i
  have set := (child_some down).1
  rcases allocatePage_cases current with ⟨fresh,free,_,taken⟩ | ⟨none,_⟩
  · have small : fresh < 2^40 := Nat.lt_of_lt_of_le ((current.pmm.mem_freeFrames fresh).mp free).1 ready.bounded
    have unused : ∀ level, ¬ machine.TableOf loader level fresh := fun level original =>
      (ready.tables level fresh original).1 free
    have fresh_ne : fresh ≠ 0 := fun same => ready.zero (same ▸ free)
    have frame := frameNumber_frameAddress small
    obtain ⟨middle,taking⟩ : ∃ middle, middle = { current with pmm := current.pmm.take fresh 1 } := ⟨_,rfl⟩
    have memory : middle.memory = current.memory := by rw [taking]
    have erased : middle.pmm.freeFrames = current.pmm.freeFrames.erase fresh := by
      rw [taking]
      exact current.pmm.freeFrames_take_one fresh
    have onward : frameNumber (machine.memory (frameNumber loader.pml4) i &&& pointerMask) = next :=
      (child_some down).2.2.2.symm
    have one := Finset.card_erase_add_one free
    obtain ⟨inner,copied,lost⟩ := deepCopyPageTables_loses (machine.tableOf_closed loader) absent (by omega) (by omega)
      middle (machine.memory (frameNumber loader.pml4) i &&& pointerMask) (frameAddress fresh)
      (ready.taken free apart erased (by rw [taking]; rfl) fun _ _ _ _ => by rw [memory])
      (onward ▸ machine.tableOf_closed loader 3 _ i next top down) (by rw [erased,frame]; exact Finset.notMem_erase fresh _)
      (by rw [frame]; exact unused) (by rw [frame]; exact fresh_ne) (by rw [erased,onward]; omega)
    rw [frame,onward] at lost
    rw [taking,← word] at copied
    have run : copySlot state loader.pml4 i current = _ :=
      copySlot_table (word ▸ set) taken (fun same => fresh_ne ((frameAddress_eq_zero small).mp same)) copied
    have leads : child 4 ((inner.memory (frameNumber loader.pml4) i &&& flagsMask) ||| frameAddress fresh) = .some fresh := by
      have kept : inner.memory (frameNumber loader.pml4) i = machine.memory (frameNumber loader.pml4) i := by
        have used := (ready.tables 4 _ top).1
        rw [lost.kept _ (fun zero => absent 4 (zero ▸ top)) (fun same => used (same ▸ free)) ?_ i,memory,word]
        rw [erased]
        exact fun member => used (Finset.mem_of_mem_erase member)
      rw [kept,BitVec.or_comm]
      exact child_copied small down
    obtain ⟨j,path,rest⟩ := lost.astray
    refine ⟨_,run,lost.none,j::path,.deeper down ?_ trivial (rest.transfer ?_ ?_)⟩
    · change child 4 (write _ _ i _ _ i) = .some fresh
      rw [write_here]
      exact leads
    · have other : fresh ≠ frameNumber state.pml4 := fun same => outside (same ▸ free)
      exact write_frame _ other i j _
    · intro frame member
      rw [erased] at member
      have other : frame ≠ frameNumber state.pml4 := fun same => outside (same ▸ Finset.mem_of_mem_erase member)
      exact ⟨trivial,fun k => write_frame _ other i k _⟩
  · exact absurd none some

/-- The paths at which the copy links tables: those of the boot loader's tables. -/
def Machine.Linked (machine : Machine) (loader : State) (path : List (Fin 512)) : Prop :=
  path ≠ [] ∧ (machine.tables loader path).isSome

/-- A copy that returns has linked different frames, all handed out by the allocator,
and however the copy ends, frame 0 is neither written nor linked. -/
structure Detected (machine : Machine) (state loader : State) : Prop where
  own : ∀ final, copyExistingPageTableToNew state loader.pml4 machine = .ok () final → ∀ path table,
    machine.Linked loader path → final.tables state path = some table →
    table ∈ machine.pmm.freeFrames ∧ table ∉ final.pmm.freeFrames
  distinct : ∀ final, copyExistingPageTableToNew state loader.pml4 machine = .ok () final → ∀ first second table,
    machine.Linked loader first → machine.Linked loader second → final.tables state first = some table →
    final.tables state second = some table → first = second
  unwritten : ∀ i, (finalState (copyExistingPageTableToNew state loader.pml4 machine)).memory 0 i = machine.memory 0 i
  unlinked : ∀ path, machine.Linked loader path →
    (finalState (copyExistingPageTableToNew state loader.pml4 machine)).tables state path ≠ some 0

def FramesSuffice (machine : Machine) (loader : State) : Prop :=
  tablesBelow machine.memory 4 (frameNumber loader.pml4) ≤ machine.pmm.freeFrames.card

/-- The last free frame is taken right before the allocation for a slot of the
top-level table. -/
def RunsOutAtSlot (machine : Machine) (loader : State) : Prop :=
  ∃ before index after, List.finRange 512 = before ++ index :: after ∧
    present (machine.memory (frameNumber loader.pml4) index) = true ∧
    machine.pmm.freeFrames.card = (before.map (tablesFor machine.memory 3 (frameNumber loader.pml4))).sum

section Part
variable (boot : BootTree machine state loader) {current : Machine} {spare : Nat} {done rest : List (Fin 512)}
  (copying : Copying machine.memory (machine.TableOf loader) machine.memory machine 3 (frameNumber loader.pml4)
    (frameNumber state.pml4) spare done rest current)
include boot copying

private theorem linked_own
    (replicated : Replicated machine.memory machine 3 (frameNumber loader.pml4) (frameNumber state.pml4) done current)
    {path : List (Fin 512)} {table : Nat} (linked : machine.Linked loader path)
    (here : current.tables state path = some table) : table ∈ machine.pmm.freeFrames ∧ table ∉ current.pmm.freeFrames := by
  cases path with
  | nil => exact absurd rfl linked.1
  | cons j path =>
    by_cases member : j ∈ done
    · obtain ⟨copy,own,there⟩ := replicated.reaches (j::path) ⟨member,linked.2⟩
      have same : table = copy := Option.some.inj (here.symm.trans there)
      exact same ▸ own
    · have empty : current.memory (frameNumber state.pml4) j = 0#64 :=
        (copying.holes j fun contra => absurd contra member).trans (boot.zeroed j)
      simp [Machine.tables,tableAt,empty] at here

private theorem zero_unwritten (nonzero : frameNumber state.pml4 ≠ 0) (i : Fin 512) :
    current.memory 0 i = machine.memory 0 i :=
  copying.kept 0 nonzero.symm (fun free => absurd free boot.zero) i

end Part

theorem BootTree.detected_of_enough (boot : BootTree machine state loader) (nonzero : frameNumber state.pml4 ≠ 0)
    (enough : FramesSuffice machine loader) : Detected machine state loader := by
  obtain ⟨spare,count⟩ := Nat.exists_eq_add_of_le enough
  obtain ⟨final,whole,copying,replicated⟩ := boot.copies count
  constructor
  · intro other ended path table linked here
    cases whole.symm.trans ended
    exact linked_own boot copying replicated linked here
  · intro other ended first second table left right here there
    cases whole.symm.trans ended
    have below : ∀ path, machine.Linked loader path →
        Below child machine.memory 4 (frameNumber loader.pml4) (· ∈ List.finRange 512) path := by
      rintro (_ | ⟨i,path⟩) linked
      · exact absurd rfl linked.1
      · exact ⟨List.mem_finRange i,linked.2⟩
    exact replicated.distinct first second table (below first left) (below second right) here there
  · rw [whole]
    exact zero_unwritten boot copying nonzero
  · rw [whole]
    intro path linked here
    exact boot.zero (linked_own boot copying replicated linked here).1

theorem BootTree.detected_of_slot (boot : BootTree machine state loader) (nonzero : frameNumber state.pml4 ≠ 0)
    (slot : RunsOutAtSlot machine loader) : Detected machine state loader := by
  obtain ⟨before,i,after,slots,set,count⟩ := slot
  have different : (before ++ i :: after).Nodup := slots ▸ List.nodup_finRange 512
  obtain ⟨middle,run,copying,replicated⟩ := copySlots_return boot (List.nodup_append.mp different).1
    (count.trans (Nat.add_zero _).symm)
  have none : middle.pmm.freeFrames = ∅ := Finset.card_eq_zero.mp (by simpa using copying.enough)
  have word := (copying.ready.tables 4 _ (machine.top_tableOf loader)).2 i
  have whole : copyExistingPageTableToNew state loader.pml4 machine = .error .deepCopyAllocationFailed middle := by
    rw [copyExistingPageTableToNew,forM_eq_runAll,slots,runAll_append_of_ok _ run,runAll,
      bind_of_error (copySlot_stops none (word ▸ set))]
  constructor
  · intro final ended
    cases whole.symm.trans ended
  · intro final ended
    cases whole.symm.trans ended
  · rw [whole]
    exact zero_unwritten boot copying nonzero
  · rw [whole]
    intro path linked here
    exact boot.zero (linked_own boot copying replicated linked here).1

theorem BootTree.not_detected (boot : BootTree machine state loader)
    (nowhere : ∀ path, machine.tables loader path ≠ some 0) (short : ¬ FramesSuffice machine loader)
    (inside : ¬ RunsOutAtSlot machine loader) : ¬ Detected machine state loader := by
  intro detected
  have few : machine.pmm.freeFrames.card <
      ((List.finRange 512).map (tablesFor machine.memory 3 (frameNumber loader.pml4))).sum := Nat.lt_of_not_le short
  obtain ⟨before,i,after,slots,enough,ends⟩ := exists_short _ _ _ few
  have different : (before ++ i :: after).Nodup := slots ▸ List.nodup_finRange 512
  obtain ⟨spare,count⟩ := Nat.exists_eq_add_of_le enough
  obtain ⟨middle,first,copying,_⟩ := copySlots_return boot (List.nodup_append.mp different).1 count
  have left : middle.pmm.freeFrames.card = spare := by simpa using copying.enough
  obtain ⟨next,down⟩ : ∃ next, child 4 (machine.memory (frameNumber loader.pml4) i) = some next := by
    cases down : child 4 (machine.memory (frameNumber loader.pml4) i) with
    | none => simp [tablesFor,down] at ends; omega
    | some next => exact ⟨next,rfl⟩
  have one : tablesFor machine.memory 3 (frameNumber loader.pml4) i = tablesBelow machine.memory 3 next + 1 := by
    simp [tablesFor,down]
  have remain : middle.pmm.freeFrames ≠ ∅ := by
    intro none
    rw [none,Finset.card_empty] at left
    exact inside ⟨before,i,after,slots,(child_some down).1,by omega⟩
  obtain ⟨lost,second,none,path,astray⟩ := copySlot_loses nowhere copying.ready
    (fun member => boot.taken (copying.free member)) boot.outside down remain (by omega)
  have ended : finalState (copyExistingPageTableToNew state loader.pml4 machine) = lost := by
    rw [copyExistingPageTableToNew,forM_eq_runAll,slots,runAll_append_of_ok _ first,runAll_cons_of_ok _ second]
    exact copySlots_exhausted after none
  obtain ⟨there,here⟩ := astray.leads
  have unlinked := detected.unlinked (i::path) ⟨List.cons_ne_nil i path,there⟩
  rw [ended] at unlinked
  exact unlinked here

/-- Running out of frames is detected when the frames suffice or the last one is taken
right before an allocation for the top-level table, and in no other case, unless a
boot loader's table stands in frame 0 itself. -/
theorem copyExistingPageTableToNew_detects_iff (machine : Machine) (state loader : State)
    (boot : BootTree machine state loader) (nonzero : frameNumber state.pml4 ≠ 0) :
    (FramesSuffice machine loader ∨ RunsOutAtSlot machine loader → Detected machine state loader) ∧
    ((∀ path, machine.tables loader path ≠ some 0) → Detected machine state loader →
      FramesSuffice machine loader ∨ RunsOutAtSlot machine loader) := by
  constructor
  · rintro (enough | slot)
    · exact boot.detected_of_enough nonzero enough
    · exact boot.detected_of_slot nonzero slot
  · intro nowhere detected
    by_contra neither
    rw [not_or] at neither
    exact boot.not_detected nowhere neither.1 neither.2 detected

end Top

/-- With a frame for the only table of level 3 the copy is detected as whole. -/
theorem copyExistingPageTableToNew_detects_oneTable :
    BootTree (oneSlotMachine 0x83) topAtFrameThree topAtFrameOne ∧ frameNumber topAtFrameThree.pml4 ≠ 0 ∧
    Detected (oneSlotMachine 0x83) topAtFrameThree topAtFrameOne := by
  have boot := oneSlot_boot (show child 3 0x83 = none by decide)
  have nonzero : frameNumber topAtFrameThree.pml4 ≠ 0 := by decide
  exact ⟨boot.toBootTree,nonzero,
    (copyExistingPageTableToNew_detects_iff _ _ _ boot.toBootTree nonzero).1 (Or.inl boot.enough)⟩

def lastFrameMachine : Machine where
  memory := oneSlotMemory 0x4003
  pmm := PhysicalMemoryManager.eightFrames.take 1 6
  freed := []

theorem lastFrame_tables {path : List (Fin 512)} {table : Nat}
    (here : lastFrameMachine.tables topAtFrameOne path = some table) : table = 1 ∨ table = 2 ∨ table = 4 := by
  have top : frameNumber topAtFrameOne.pml4 = 1 := by decide
  have second : child 3 0x4003 = some 4 := by decide
  have third : child 2 staleLeaf = none := by decide
  rw [Machine.tables,top] at here
  change TableTree.tableAt child (oneSlotMemory 0x4003) 4 1 path = some table at here
  rcases path with _ | ⟨a,_ | ⟨b,_ | ⟨c,path⟩⟩⟩ <;>
    simp only [TableTree.tableAt,oneSlot_first,Option.some.injEq,Option.bind_eq_some_iff,Option.ite_none_right_eq_some] at here
  · exact Or.inl here.symm
  · obtain ⟨_,⟨_,rfl⟩,rfl⟩ := here
    exact Or.inr (Or.inl rfl)
  · obtain ⟨_,⟨_,rfl⟩,_,down,rfl⟩ := here
    exact Or.inr (Or.inr (Option.some.inj (down.symm.trans second)))
  · obtain ⟨_,⟨_,rfl⟩,_,down,_,below,_⟩ := here
    cases down.symm.trans second
    cases third.symm.trans below

theorem lastFrame_boot : BootTree lastFrameMachine topAtFrameThree topAtFrameOne where
  allocated := by
    intro path table here
    rcases lastFrame_tables here with rfl | rfl | rfl
    · exact (by decide : 1 ∉ (PhysicalMemoryManager.eightFrames.take 1 6).freeFrames)
    · exact (by decide : 2 ∉ (PhysicalMemoryManager.eightFrames.take 1 6).freeFrames)
    · exact (by decide : 4 ∉ (PhysicalMemoryManager.eightFrames.take 1 6).freeFrames)
  apart := by
    intro path here
    have top : frameNumber topAtFrameThree.pml4 = 3 := by decide
    have := lastFrame_tables here
    omega
  taken := (by decide : 3 ∉ (PhysicalMemoryManager.eightFrames.take 1 6).freeFrames)
  zeroed := fun _ => rfl
  zero := (by decide : 0 ∉ (PhysicalMemoryManager.eightFrames.take 1 6).freeFrames)
  bounded := (by decide : (8 : Word).toNat ≤ 2^40)

private theorem cost_le {A : Type} (cost : A → Nat) {list : List A} {a : A} (member : a ∈ list) :
    cost a ≤ (list.map cost).sum :=
  List.single_le_sum (fun _ _ => Nat.zero_le _) _ (List.mem_map_of_mem member)

private theorem lastFrame_costs {slots : List (Fin 512)} :
    (slots.map (tablesFor lastFrameMachine.memory 3 1)).sum ≠ 1 ∧
    (0 ∈ slots → 1 < (slots.map (tablesFor lastFrameMachine.memory 3 1)).sum) := by
  have second : child 3 0x4003 = some 4 := by decide
  have inner : ∀ i, 1 ≤ tablesFor lastFrameMachine.memory 2 2 i := by
    intro i
    have down : child 3 (lastFrameMachine.memory 2 i) = some 4 := second
    rw [tablesFor,down,Option.elim_some]
    exact Nat.le_add_left 1 (tablesBelow lastFrameMachine.memory 2 4)
  have below : 1 ≤ tablesBelow lastFrameMachine.memory 3 2 := by
    rw [tablesBelow_succ]
    exact (inner 0).trans (cost_le _ (List.mem_finRange 0))
  have slot : ∀ i : Fin 512, tablesFor lastFrameMachine.memory 3 1 i =
      if i = 0 then tablesBelow lastFrameMachine.memory 3 2 + 1 else 0 := by
    intro i
    have down : child 4 (lastFrameMachine.memory 1 i) = if i = 0 then some 2 else none := oneSlot_first 0x4003 i
    rw [tablesFor,down]
    by_cases zero : i = 0
    · rw [if_pos zero,if_pos zero,Option.elim_some]
    · rw [if_neg zero,if_neg zero,Option.elim_none]
  have member : 0 ∈ slots → 1 < (slots.map (tablesFor lastFrameMachine.memory 3 1)).sum := by
    intro first
    have cost : 1 < tablesFor lastFrameMachine.memory 3 1 0 := by
      rw [slot 0,if_pos rfl]
      omega
    exact Nat.lt_of_lt_of_le cost (cost_le _ first)
  refine ⟨?_,member⟩
  by_cases first : 0 ∈ slots
  · exact (member first).ne'
  · have none : (slots.map (tablesFor lastFrameMachine.memory 3 1)).sum = 0 := by
      apply List.sum_eq_zero
      intro cost inside
      obtain ⟨i,here,rfl⟩ := List.mem_map.mp inside
      have other : i ≠ 0 := fun zero => first (zero ▸ here)
      rw [slot i,if_neg other]
    omega

/-- With one free frame a table of level 2 is linked to frame 0. -/
theorem copyExistingPageTableToNew_lastFrame :
    BootTree lastFrameMachine topAtFrameThree topAtFrameOne ∧ frameNumber topAtFrameThree.pml4 ≠ 0 ∧
    ¬ Detected lastFrameMachine topAtFrameThree topAtFrameOne := by
  have top : frameNumber topAtFrameOne.pml4 = 1 := by decide
  have count : lastFrameMachine.pmm.freeFrames.card = 1 := by decide
  refine ⟨lastFrame_boot,by decide,lastFrame_boot.not_detected ?_ ?_ ?_⟩
  · intro path here
    have := lastFrame_tables here
    omega
  · rw [FramesSuffice,count,top]
    exact Nat.not_le_of_lt (lastFrame_costs.2 (List.mem_finRange 0))
  · rintro ⟨before,index,after,_,_,spent⟩
    rw [count,top] at spent
    exact lastFrame_costs.1 spent.symm

end BorealOS.Memory
