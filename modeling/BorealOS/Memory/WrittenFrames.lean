import BorealOS.Memory.TableOwnership

/-! Which frames `MapPage` writes to. It takes every word other than zero for an entry,
whether it is present or not, and does not look at the HugePage bit. Past a huge leaf it
reads words of the mapped memory, and past a stale word those of a frame that may be anyone's
or nobody's. The frames it allocates are safe ground: their words lead to one another. -/
namespace BorealOS.Memory

open TableTree Execution Paging Hardware

namespace PhysicalMemoryManager

/-- A frame that the next `count` allocations of one page hand out. -/
def AmongNext (pmm : PhysicalMemoryManager) (count frame : Nat) : Prop :=
  frame ∈ pmm.freeFrames ∧ (pmm.freeFrames.filter (· < frame)).card < count

variable {pmm : PhysicalMemoryManager} {count frame fresh : Nat}

instance : Decidable (pmm.AmongNext count frame) := inferInstanceAs (Decidable (_ ∧ _))

theorem not_amongNext_zero : ¬ pmm.AmongNext 0 frame :=
  fun next => absurd next.2 (Nat.not_lt_zero _)

theorem amongNext_succ (free : fresh ∈ pmm.freeFrames) (least : ∀ other ∈ pmm.freeFrames, fresh ≤ other) :
    pmm.AmongNext (count + 1) frame ↔ frame = fresh ∨ (pmm.take fresh 1).AmongNext count frame := by
  rw [AmongNext,AmongNext,freeFrames_take_one,Finset.mem_erase,Finset.filter_erase]
  by_cases same : frame = fresh
  · subst same
    have none : pmm.freeFrames.filter (· < frame) = ∅ :=
      Finset.filter_eq_empty_iff.mpr fun other inside => Nat.not_lt.mpr (least other inside)
    simp [free,none]
  · simp only [same,ne_eq,not_false_eq_true,true_and,false_or]
    refine and_congr_right fun inside => ?_
    have below : fresh < frame := Nat.lt_of_le_of_ne (least frame inside) (Ne.symm same)
    have member : fresh ∈ pmm.freeFrames.filter (· < frame) := Finset.mem_filter.mpr ⟨free,below⟩
    rw [Finset.card_erase_of_mem member]
    have some := Finset.card_pos.mpr ⟨fresh,member⟩
    omega

end PhysicalMemoryManager

namespace Machine

variable {machine reached final : Machine} {state : State} {vaddr : Word}

/-- A call wrote only to tables of the hierarchy and to frames that it allocated
itself, and handed only tables of the hierarchy to `FreePages`. -/
structure Contained (machine : Machine) (state : State) (final : Machine) : Prop where
  written : ∀ frame index, final.memory frame index ≠ machine.memory frame index →
    machine.IsTable state frame ∨ (frame ∈ machine.pmm.freeFrames ∧ final.pmm.allocated frame = true)
  freed : ∃ later, final.freed = machine.freed ++ later ∧
    ∀ address ∈ later, machine.IsTable state (frameNumber address)

theorem Contained.refl (machine : Machine) (state : State) : machine.Contained state machine :=
  ⟨fun _ _ changed => absurd rfl changed,[],by simp,by simp⟩

theorem Contained.withEntry (contained : machine.Contained state reached) {table : Nat} {index : Fin 512} {entry : Word}
    (inside : machine.IsTable state table ∨ (table ∈ machine.pmm.freeFrames ∧ reached.pmm.allocated table = true)) :
    machine.Contained state (reached.withEntry table index entry) := by
  refine ⟨?_,contained.freed⟩
  intro frame i changed
  by_cases written : frame = table ∧ i = index
  · rw [written.1]
    exact inside
  · apply contained.written frame i
    change write reached.memory table index entry frame i ≠ _ at changed
    rwa [write,if_neg written] at changed

/-- A frame that was free before the call and is allocated now. -/
def Taken (machine reached : Machine) (frame : Nat) : Prop :=
  frame ∈ machine.pmm.freeFrames ∧ reached.pmm.allocated frame = true

theorem not_taken_start (frame : Nat) : ¬ machine.Taken machine frame := by
  rintro ⟨free,taken⟩
  rw [((machine.pmm.mem_freeFrames frame).mp free).2.2] at taken
  cases taken

theorem Taken.not_free {frame : Nat} (taken : machine.Taken reached frame) : frame ∉ reached.pmm.freeFrames := by
  intro free
  have untaken := ((reached.pmm.mem_freeFrames frame).mp free).2.2
  rw [taken.2] at untaken
  cases untaken

/-- The machine in the middle of a call. What has changed lies in frames of a set or in
frames that the call took, and no word of the latter leads out of them. -/
structure Fenced (allowed : Nat → Prop) (machine reached : Machine) : Prop where
  written : ∀ frame index, reached.memory frame index ≠ machine.memory frame index →
    allowed frame ∨ machine.Taken reached frame
  closed : ∀ frame index, machine.Taken reached frame →
    reached.memory frame index = 0 ∨ machine.Taken reached (frameOf (reached.memory frame index))
  fewer : reached.pmm.freeFrames ⊆ machine.pmm.freeFrames
  bounded : reached.pmm.frameCount.toNat ≤ 2^40
  freed : reached.freed = machine.freed

section Fence
variable {allowed : Nat → Prop}

theorem Fenced.start (bounded : machine.pmm.frameCount.toNat ≤ 2^40) : Fenced allowed machine machine where
  written := fun _ _ changed => absurd rfl changed
  closed := fun frame _ taken => absurd taken (not_taken_start frame)
  fewer := Finset.Subset.refl _
  bounded := bounded
  freed := rfl

theorem Fenced.contained (fenced : Fenced (machine.IsTable state) machine reached) : machine.Contained state reached :=
  ⟨fenced.written,[],fenced.freed.trans (List.append_nil _).symm,fun _ inside => absurd inside List.not_mem_nil⟩

theorem Fenced.absorb {other : Nat} (fenced : Fenced (fun frame => allowed frame ∨ frame = other) machine reached)
    (taken : machine.Taken reached other) : Fenced allowed machine reached := by
  refine ⟨?_,fenced.closed,fenced.fewer,fenced.bounded,fenced.freed⟩
  intro frame index changed
  rcases fenced.written frame index changed with (old | rfl) | new
  · exact Or.inl old
  · exact Or.inr taken
  · exact Or.inr new

section Linking
variable {table fresh : Nat} {index : Fin 512}

theorem allocated_directory {frame : Nat} : (reached.linked table index fresh directoryFlags).pmm.allocated frame = true ↔
    frame = fresh ∨ reached.pmm.allocated frame = true := by
  have one : (1 : Word).toNat = 1 := by decide
  simp only [linked,PhysicalMemoryManager.take_allocated,Bool.or_eq_true,decide_eq_true_eq,one]
  refine or_congr_left ?_
  omega

theorem taken_directory (fewer : reached.pmm.freeFrames ⊆ machine.pmm.freeFrames) (free : fresh ∈ reached.pmm.freeFrames)
    {frame : Nat} : machine.Taken (reached.linked table index fresh directoryFlags) frame ↔
      frame = fresh ∨ machine.Taken reached frame := by
  rw [Taken,Taken,allocated_directory]
  constructor
  · rintro ⟨before,new | taken⟩
    · exact Or.inl new
    · exact Or.inr ⟨before,taken⟩
  · rintro (rfl | ⟨before,taken⟩)
    · exact ⟨fewer free,Or.inl rfl⟩
    · exact ⟨before,Or.inr taken⟩

/-- To link a fresh table keeps the fence when the entry is inside, in the fresh table
itself if need be. -/
theorem Fenced.linked (fenced : Fenced allowed machine reached) (free : fresh ∈ reached.pmm.freeFrames)
    (inside : allowed table ∨ machine.Taken reached table ∨ table = fresh) :
    Fenced allowed machine (reached.linked table index fresh directoryFlags) := by
  have small : fresh < 2^40 := Nat.lt_of_lt_of_le ((reached.pmm.mem_freeFrames fresh).mp free).1 fenced.bounded
  have leads := (tableEntry_spec small directoryFlags_apart (by decide)).2.2.2
  have taken : ∀ frame, machine.Taken (reached.linked table index fresh directoryFlags) frame ↔ _ :=
    fun _ => taken_directory fenced.fewer free
  have here : (reached.linked table index fresh directoryFlags).memory table index = frameAddress fresh ||| directoryFlags :=
    write_here _ _ _ _
  refine ⟨?_,?_,?_,fenced.bounded,fenced.freed⟩
  · intro frame i changed
    rw [taken]
    by_cases new : frame = fresh
    · exact Or.inr (Or.inl new)
    · by_cases written : frame = table ∧ i = index
      · rw [written.1]
        rcases inside with old | before | same
        · exact Or.inl old
        · exact Or.inr (Or.inr before)
        · exact Or.inr (Or.inl same)
      · rw [linked_memory new written] at changed
        exact (fenced.written frame i changed).imp_right Or.inr
  · intro frame i held
    rw [taken]
    by_cases written : frame = table ∧ i = index
    · rw [written.1,written.2,here,leads]
      exact Or.inr (Or.inl rfl)
    · rcases (taken frame).mp held with rfl | before
      · left
        change write (fill reached.memory frame 0) table index _ frame i = 0
        rw [write,if_neg written,fill_here]
      · have old : frame ≠ fresh := by
          rintro rfl
          exact before.not_free free
        rw [linked_memory old written]
        exact (fenced.closed frame i before).imp_right Or.inr
  · rw [freeFrames_linked]
    exact (Finset.erase_subset _ _).trans fenced.fewer

end Linking

/-- From a table that the call took itself, the rest of the call stays inside. -/
theorem Fenced.rest_contained (unused : 0 ∉ machine.pmm.freeFrames) (leaf : Word) (rest : List (Panic × Fin 512))
    {table : Word} (fenced : Fenced (machine.IsTable state) machine reached)
    (taken : machine.Taken reached (frameNumber table)) :
    machine.Contained state (finalState ((do
      let pt ← descend rest table
      writeLeaf vaddr leaf pt) reached)) := by
  induction rest generalizing reached table with
  | nil =>
    rw [descend,pure_bind,writeLeaf_apply]
    split
    · exact fenced.contained
    · exact fenced.contained.withEntry (Or.inr taken)
  | cons step rest ih =>
    obtain ⟨failure,index⟩ := step
    rw [descend,bind_assoc]
    by_cases empty : reached.memory (frameNumber table) index = 0
    · rcases ensureTable_empty failure empty fenced.bounded with ⟨fresh,free,_,_,made⟩ | ⟨_,full⟩
      · rw [bind_of_ok made]
        have small : fresh < 2^40 := Nat.lt_of_lt_of_le ((reached.pmm.mem_freeFrames fresh).mp free).1 fenced.bounded
        refine ih (fenced.linked free (Or.inr (Or.inl taken))) ?_
        rw [frameNumber_frameAddress small]
        exact (taken_directory fenced.fewer free).mpr (Or.inl rfl)
      · rw [bind_of_error (full fun free => unused (fenced.fewer free)).2]
        exact fenced.contained
    · rw [bind_of_ok (ensureTable_existing empty)]
      exact ih fenced ((fenced.closed _ index taken).resolve_left empty)

/-- A word of a stray frame has been written and the call goes on in an empty table of its
own. It stays inside only if it takes the stray frame too, on its way down. -/
theorem Fenced.stray_contained_iff {stray : Nat} {place : Fin 512} (unused : 0 ∉ machine.pmm.freeFrames) (leaf : Word)
    (outside : ¬ machine.IsTable state stray) (rest : List (Panic × Fin 512)) {table : Word}
    (fenced : Fenced (fun frame => machine.IsTable state frame ∨ frame = stray) machine reached)
    (taken : machine.Taken reached (frameNumber table)) (empty : ∀ index, reached.memory (frameNumber table) index = 0)
    (apart : ¬ machine.Taken reached stray) (changed : reached.memory stray place ≠ machine.memory stray place) :
    machine.Contained state (finalState ((do
      let pt ← descend rest table
      writeLeaf vaddr leaf pt) reached)) ↔ reached.pmm.AmongNext rest.length stray := by
  have other : stray ≠ frameNumber table := fun same => apart (same ▸ taken)
  induction rest generalizing reached table with
  | nil =>
    refine iff_of_false ?_ PhysicalMemoryManager.not_amongNext_zero
    rw [descend,pure_bind,writeLeaf_apply,empty,if_neg (by decide),finalState_ok]
    intro contained
    refine not_or.mpr ⟨outside,apart⟩ (contained.written stray place ?_)
    change write reached.memory (frameNumber table) (tableIndex vaddr 12) leaf stray place ≠ _
    rwa [write_frame _ other]
  | cons step rest ih =>
    obtain ⟨failure,index⟩ := step
    rw [descend,bind_assoc,List.length_cons]
    rcases ensureTable_empty failure (empty index) fenced.bounded with ⟨fresh,free,_,least,made⟩ | ⟨_,full⟩
    · have small : fresh < 2^40 := Nat.lt_of_lt_of_le ((reached.pmm.mem_freeFrames fresh).mp free).1 fenced.bounded
      have linked : Fenced _ machine (reached.linked (frameNumber table) index fresh directoryFlags) :=
        fenced.linked free (Or.inr (Or.inl taken))
      have new : machine.Taken (reached.linked (frameNumber table) index fresh directoryFlags)
          (frameNumber (frameAddress fresh)) := by
        rw [frameNumber_frameAddress small]
        exact (taken_directory fenced.fewer free).mpr (Or.inl rfl)
      rw [bind_of_ok made,PhysicalMemoryManager.amongNext_succ free least]
      by_cases same : stray = fresh
      · refine iff_of_true ((linked.absorb ?_).rest_contained unused leaf rest new) (Or.inl same)
        exact (taken_directory fenced.fewer free).mpr (Or.inl same)
      · have step := ih linked new ?_ ?_ ?_ ?_
        · exact step.trans (or_iff_right same).symm
        · have different : fresh ≠ frameNumber table := by
            rintro rfl
            exact taken.not_free free
          intro i
          rw [frameNumber_frameAddress small]
          exact linked_memory_fresh different i
        · rw [taken_directory fenced.fewer free]
          exact not_or.mpr ⟨same,apart⟩
        · rwa [linked_memory same fun both => other both.1]
        · rwa [frameNumber_frameAddress small]
    · obtain ⟨none,stopped⟩ := full fun free => unused (fenced.fewer free)
      rw [bind_of_error stopped]
      refine iff_of_false (fun contained => ?_) (fun next => Finset.notMem_empty stray (none ▸ next.1))
      exact not_or.mpr ⟨outside,apart⟩ (contained.written stray place changed)

end Fence

/-- From the first zero word on: the call writes that word and goes on in tables of its
own, so it is the frame of the word that matters. -/
theorem link_contained_iff (bounded : machine.pmm.frameCount.toNat ≤ 2^40) (unused : 0 ∉ machine.pmm.freeFrames)
    (leaf : Word) (failure : Panic) (rest : List (Panic × Fin 512)) {table : Word} {index : Fin 512}
    (empty : machine.memory (frameNumber table) index = 0) :
    machine.Contained state (finalState ((do
      let pt ← descend ((failure,index) :: rest) table
      writeLeaf vaddr leaf pt) machine)) ↔
    machine.pmm.freeFrames = ∅ ∨ machine.IsTable state (frameNumber table) ∨
      machine.pmm.AmongNext (rest.length + 1) (frameNumber table) := by
  rw [descend,bind_assoc]
  rcases ensureTable_empty failure empty bounded with ⟨fresh,free,_,least,made⟩ | ⟨_,full⟩
  · have small : fresh < 2^40 := Nat.lt_of_lt_of_le ((machine.pmm.mem_freeFrames fresh).mp free).1 bounded
    have new : machine.Taken (machine.linked (frameNumber table) index fresh directoryFlags)
        (frameNumber (frameAddress fresh)) := by
      rw [frameNumber_frameAddress small]
      exact (taken_directory (Finset.Subset.refl _) free).mpr (Or.inl rfl)
    rw [bind_of_ok made,or_iff_right (Finset.ne_empty_of_mem free),PhysicalMemoryManager.amongNext_succ free least]
    by_cases inside : machine.IsTable state (frameNumber table)
    · refine iff_of_true ?_ (Or.inl inside)
      exact ((Fenced.start bounded).linked free (Or.inl inside)).rest_contained unused leaf rest new
    · by_cases same : frameNumber table = fresh
      · refine iff_of_true ?_ (Or.inr (Or.inl same))
        exact ((Fenced.start bounded).linked free (Or.inr (Or.inr same))).rest_contained unused leaf rest new
      · have fenced : Fenced (fun frame => machine.IsTable state frame ∨ frame = frameNumber table) machine
            (machine.linked (frameNumber table) index fresh directoryFlags) :=
          (Fenced.start bounded).linked free (Or.inl (Or.inr rfl))
        have changed : (machine.linked (frameNumber table) index fresh directoryFlags).memory (frameNumber table) index ≠
            machine.memory (frameNumber table) index := by
          rw [empty]
          change write _ _ _ _ _ _ ≠ _
          rw [write_here]
          exact ne_zero_of_present (tableEntry_spec small directoryFlags_apart (by decide)).1
        rw [or_iff_right inside,or_iff_right same]
        refine fenced.stray_contained_iff unused leaf inside rest new (fun i => ?_) ?_ changed
        · rw [frameNumber_frameAddress small]
          exact linked_memory_fresh (Ne.symm same) i
        · rw [taken_directory (Finset.Subset.refl _) free]
          exact not_or.mpr ⟨same,not_taken_start _⟩
  · obtain ⟨none,stopped⟩ := full unused
    rw [bind_of_error stopped]
    exact iff_of_true (.refl machine state) (Or.inl none)

end Machine

end BorealOS.Memory
