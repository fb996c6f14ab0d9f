import BorealOS.Memory.AllocatorRuns
import BorealOS.Memory.BitmapInitialization

/-! Allocating, freeing and allocating again. Whatever the manager's state, a list
of allocations that all succeed is undone by freeing the ranges in any order, and
the search answers the same addresses again. -/
namespace BorealOS.Memory.PhysicalMemoryManager

open PackedBitmap Execution

def allocateAll : List Word → EStateM Panic PhysicalMemoryManager (List Word)
  | [] => pure []
  | pageCount :: pageCounts => do
    let answer ← allocatePages pageCount
    let answers ← allocateAll pageCounts
    return answer :: answers

def freeRange (range : Word × Word) : EStateM Panic PhysicalMemoryManager Unit := freePages range.1 range.2

def freeAll : List (Word × Word) → EStateM Panic PhysicalMemoryManager Unit := runAll freeRange

/-- The manager has handed out the ranges since the state `base`, and nothing else
has changed. -/
structure Outstanding (base : PhysicalMemoryManager) (ranges : List (Word × Word)) (pmm : PhysicalMemoryManager) : Prop where
  frameCount : pmm.frameCount = base.frameCount
  bitmapSize : pmm.bitmapSize = base.bitmapSize
  address : pmm.allocatableBitmap.address = base.allocatableBitmap.address
  reservedBitmap : pmm.reservedBitmap = base.reservedBitmap
  taken : ∀ page, pmm.allocated page = true ↔
    base.allocated page = true ∨ ∃ range ∈ ranges, page ∈ pagesOf range.1 range.2
  counted : pmm.usableFrames + (ranges.map Prod.snd).sum = base.usableFrames
  aligned : ∀ range ∈ ranges, range.1.toNat % 4096 = 0
  free : ∀ range ∈ ranges, pagesOf range.1 range.2 ⊆ base.freeFrames
  apart : ranges.Pairwise fun first second => Disjoint (pagesOf first.1 first.2) (pagesOf second.1 second.2)

section Steps
variable {base pmm : PhysicalMemoryManager} {ranges order : List (Word × Word)} {range : Word × Word}

theorem outstanding_nothing : Outstanding base [] base where
  frameCount := rfl
  bitmapSize := rfl
  address := rfl
  reservedBitmap := rfl
  taken := by simp
  counted := by simp
  aligned := by simp
  free := by simp
  apart := List.Pairwise.nil

theorem Outstanding.perm (outstanding : Outstanding base ranges pmm) (same : order.Perm ranges) :
    Outstanding base order pmm where
  frameCount := outstanding.frameCount
  bitmapSize := outstanding.bitmapSize
  address := outstanding.address
  reservedBitmap := outstanding.reservedBitmap
  taken := by
    intro page
    rw [outstanding.taken page]
    simp only [same.mem_iff]
  counted := by
    rw [(same.map Prod.snd).sum_eq]
    exact outstanding.counted
  aligned := fun range member => outstanding.aligned range (same.mem_iff.mp member)
  free := fun range member => outstanding.free range (same.mem_iff.mp member)
  apart := (same.pairwise_iff fun disjoint => disjoint.symm).mpr outstanding.apart

theorem Outstanding.eq_base (outstanding : Outstanding base [] pmm) : pmm = base := by
  have bytes : pmm.allocatableBitmap.bytes = base.allocatableBitmap.bytes := by
    apply ext_bit
    intro page
    have same := outstanding.taken page
    simp only [List.not_mem_nil,false_and,exists_false,or_false] at same
    exact Bool.eq_iff_iff.mpr same
  have count : pmm.usableFrames = base.usableFrames := by simpa using outstanding.counted
  have same := outstanding.frameCount
  have size := outstanding.bitmapSize
  have address := outstanding.address
  have reserved := outstanding.reservedBitmap
  obtain ⟨_,_,_,⟨_,_⟩,_,_,_⟩ := pmm
  obtain ⟨_,_,_,⟨_,_⟩,_,_,_⟩ := base
  simp only at same size address reserved bytes count
  subst same size address reserved bytes count
  rfl

theorem Outstanding.still_free (outstanding : Outstanding base ranges pmm) {page : Nat} (free : page ∈ pmm.freeFrames) :
    page ∈ base.freeFrames ∧ ∀ range ∈ ranges, page ∉ pagesOf range.1 range.2 := by
  obtain ⟨inside,unreserved,untaken⟩ := (pmm.mem_freeFrames page).mp free
  have nowhere : ¬ (base.allocated page = true ∨ ∃ range ∈ ranges, page ∈ pagesOf range.1 range.2) := by
    rw [← outstanding.taken page,untaken]
    exact Bool.false_ne_true
  rw [not_or] at nowhere
  refine ⟨(base.mem_freeFrames page).mpr ⟨outstanding.frameCount ▸ inside,?_,?_⟩,fun range member here =>
    nowhere.2 ⟨range,member,here⟩⟩
  · rw [reserved,← outstanding.reservedBitmap]
    exact unreserved
  · exact Bool.eq_false_iff.mpr nowhere.1

theorem Outstanding.take {first : Nat} {pageCount : Word} (outstanding : Outstanding base ranges pmm)
    (positive : 0 < pageCount.toNat)
    (found : FirstFit.IsFirst pmm.isFree pmm.frameCount.toNat first pageCount.toNat) :
    Outstanding base ((BitVec.ofNat 64 first * Architecture.pageSize,pageCount)::ranges) (pmm.take first pageCount) := by
  have inside : first < pmm.frameCount.toNat := by have := found.inside; omega
  have pages := pagesOf_address inside pageCount
  have fresh := run_subset_freeFrames found
  refine ⟨outstanding.frameCount,outstanding.bitmapSize,outstanding.address,outstanding.reservedBitmap,?_,?_,?_,?_,?_⟩
  · intro page
    rw [take_allocated,Bool.or_eq_true,decide_eq_true_eq,outstanding.taken page]
    simp only [List.mem_cons,exists_eq_or_imp,pages,Finset.mem_Ico]
    tauto
  · rw [take_usableFrames,List.map_cons,List.sum_cons,← outstanding.counted]
    ring
  · rw [List.forall_mem_cons]
    refine ⟨?_,outstanding.aligned⟩
    rw [address_toNat inside]
    exact Nat.mul_mod_left first 4096
  · rw [List.forall_mem_cons,pages]
    exact ⟨fun page member => (outstanding.still_free (fresh member)).1,outstanding.free⟩
  · apply List.Pairwise.cons _ outstanding.apart
    intro range member
    rw [pages,Finset.disjoint_left]
    intro page here there
    exact (outstanding.still_free (fresh here)).2 range member there

theorem Outstanding.release (outstanding : Outstanding base (range::ranges) pmm) :
    freeRange range pmm = .ok () (pmm.release (range.1.toNat / 4096) range.2) ∧
      Outstanding base ranges (pmm.release (range.1.toNat / 4096) range.2) := by
  have free := outstanding.free range List.mem_cons_self
  have apart := List.pairwise_cons.mp outstanding.apart
  have held : ∀ k, range.1.toNat / 4096 ≤ k → k < range.1.toNat / 4096 + range.2.toNat → pmm.Held k := by
    intro k low high
    have member : k ∈ pagesOf range.1 range.2 := Finset.mem_Ico.mpr ⟨low,high⟩
    obtain ⟨inside,unreserved,_⟩ := (base.mem_freeFrames k).mp (free member)
    refine ⟨outstanding.frameCount ▸ inside,?_,(outstanding.taken k).mpr (Or.inr ⟨range,List.mem_cons_self,member⟩)⟩
    rw [reserved,outstanding.reservedBitmap]
    exact unreserved
  have fits : range.1.toNat / 4096 + range.2.toNat < 2^64 := by
    have address := range.1.isLt
    have small := pmm.addressable
    rcases Nat.eq_zero_or_pos range.2.toNat with zero | positive
    · omega
    · have last := (held (range.1.toNat / 4096 + range.2.toNat - 1) (by omega) (by omega)).inside
      omega
  refine ⟨freePages_ok pmm range.1 range.2 (outstanding.aligned range List.mem_cons_self) fits held,
    outstanding.frameCount,outstanding.bitmapSize,outstanding.address,outstanding.reservedBitmap,?_,?_,?_,?_,apart.2⟩
  · intro page
    rw [release_allocated,Bool.and_eq_true,decide_eq_true_eq,outstanding.taken page]
    constructor
    · rintro ⟨outside,old | ⟨other,member,here⟩⟩
      · exact Or.inl old
      · rcases List.mem_cons.mp member with rfl | later
        · exact absurd (Finset.mem_Ico.mp here) outside
        · exact Or.inr ⟨other,later,here⟩
    · rintro (old | ⟨other,member,here⟩)
      · refine ⟨fun given => ?_,Or.inl old⟩
        have untaken := ((base.mem_freeFrames page).mp (free (Finset.mem_Ico.mpr given))).2.2
        rw [old] at untaken
        cases untaken
      · refine ⟨fun given => ?_,Or.inr ⟨other,List.mem_cons_of_mem _ member,here⟩⟩
        exact Finset.disjoint_left.mp (apart.1 other member) (Finset.mem_Ico.mpr given) here
  · rw [release_usableFrames,← outstanding.counted,List.map_cons,List.sum_cons]
    ring
  · exact fun other member => outstanding.aligned other (List.mem_cons_of_mem _ member)
  · exact fun other member => outstanding.free other (List.mem_cons_of_mem _ member)

end Steps

section Runs
variable {base pmm taken : PhysicalMemoryManager} {pageCounts answers : List Word} {ranges : List (Word × Word)}

theorem Outstanding.allocateAll (outstanding : Outstanding base ranges pmm)
    (ok : allocateAll pageCounts pmm = .ok answers taken) (succeed : ∀ answer ∈ answers, answer ≠ 0) :
    Outstanding base (answers.zip pageCounts ++ ranges) taken := by
  induction pageCounts generalizing pmm answers ranges with
  | nil =>
    cases ok
    exact outstanding
  | cons pageCount pageCounts ih =>
    rw [PhysicalMemoryManager.allocateAll,bind_ok] at ok
    obtain ⟨answer,middle,first,ok⟩ := ok
    rw [bind_ok] at ok
    obtain ⟨later,final,rest,ok⟩ := ok
    cases ok
    rw [List.forall_mem_cons] at succeed
    rcases allocatePages_spec pmm pageCount with ⟨start,positive,found,searched⟩ | ⟨_,nothing⟩
    · rw [searched] at first
      cases first
      apply (ih (outstanding.take positive found) rest succeed.2).perm
      exact List.perm_middle.symm
    · rw [nothing] at first
      cases first
      exact absurd rfl succeed.1

theorem Outstanding.freeAll (outstanding : Outstanding base ranges pmm) : freeAll ranges pmm = .ok () base := by
  induction ranges generalizing pmm with
  | nil =>
    rw [outstanding.eq_base]
    rfl
  | cons range ranges ih =>
    obtain ⟨freed,remaining⟩ := outstanding.release
    rw [PhysicalMemoryManager.freeAll,runAll_cons_of_ok freeRange freed]
    exact ih remaining

end Runs

/-- A list of allocations that all succeed is undone by freeing the ranges in any
order, down to the last bit and the counter, and can then be repeated with the same
answers. -/
theorem allocation_reproducible (pmm taken : PhysicalMemoryManager) (pageCounts answers : List Word)
    (ok : allocateAll pageCounts pmm = .ok answers taken) (succeed : ∀ answer ∈ answers, answer ≠ 0)
    (order : List (Word × Word)) (any : order.Perm (answers.zip pageCounts)) :
    freeAll order taken = .ok () pmm ∧
    (do freeAll order; allocateAll pageCounts) taken = .ok answers taken := by
  have outstanding := outstanding_nothing.allocateAll ok succeed
  rw [List.append_nil] at outstanding
  have freed := (outstanding.perm any).freeAll
  exact ⟨freed,(bind_of_ok freed).trans ok⟩

/-- One page and two pages are handed out, and the two pages are freed first. -/
theorem allocation_reproducible_eightFrames :
    allocateAll [1,2] eightFrames = .ok [0x1000,0x2000] ((eightFrames.take 1 1).take 2 2) ∧
    freeAll [(0x2000,2),(0x1000,1)] ((eightFrames.take 1 1).take 2 2) = .ok () eightFrames ∧
    (do freeAll [(0x2000,2),(0x1000,1)]; allocateAll [1,2]) ((eightFrames.take 1 1).take 2 2) =
      .ok [0x1000,0x2000] ((eightFrames.take 1 1).take 2 2) := by
  have ok : allocateAll [1,2] eightFrames = .ok [0x1000,0x2000] ((eightFrames.take 1 1).take 2 2) := rfl
  exact ⟨ok,allocation_reproducible _ _ _ _ ok (by simp) _ (List.Perm.swap _ _ _)⟩

/-- The manager's self-test passes wherever its allocations succeed, and leaves no trace. -/
theorem testAllocationAndFreeing_passes {pmm taken : PhysicalMemoryManager} {onePage twoPages megabytes : Word}
    (ok : allocateAll [1,2,10 * Constants.miB / Architecture.pageSize] pmm = .ok [onePage,twoPages,megabytes] taken)
    (succeed : ∀ answer ∈ [onePage,twoPages,megabytes], answer ≠ 0) :
    testAllocationAndFreeing pmm = .ok true pmm := by
  have outstanding := outstanding_nothing.allocateAll ok succeed
  obtain ⟨afterOne,freeOne,rest⟩ := (runAll_cons_ok freeRange _ _ _ _).mp outstanding.freeAll
  obtain ⟨afterTwo,freeTwo,rest⟩ := (runAll_cons_ok freeRange _ _ _ _).mp rest
  obtain ⟨afterThree,freeThree,ended⟩ := (runAll_cons_ok freeRange _ _ _ _).mp rest
  cases ended
  simp only [freeRange] at freeOne freeTwo freeThree
  simp only [allocateAll,bind_ok] at ok
  obtain ⟨_,_,first,_,_,⟨_,_,second,_,_,⟨_,_,third,_,_,last,list⟩,lists⟩,listed⟩ := ok
  cases last
  cases list
  cases lists
  cases listed
  simp only [testAllocationAndFreeing]
  rw [bind_of_ok first,bind_of_ok second,bind_of_ok third,bind_of_ok freeOne,bind_of_ok freeTwo,
    bind_of_ok freeThree,bind_of_ok first,bind_of_ok second,bind_of_ok third,bind_of_ok freeOne,bind_of_ok freeTwo,
    bind_of_ok freeThree]
  rfl

end BorealOS.Memory.PhysicalMemoryManager
