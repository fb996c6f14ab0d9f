import BorealOS.Memory.AllocatorRuns

/-! Single calls of the manager in whatever state the calls before left: which run of
frames `AllocatePages` finds, and which requests `FreePages` accepts. -/
namespace BorealOS.Memory.PhysicalMemoryManager

open PackedBitmap Execution

/-- The states reached by calls that return, with any arguments. -/
inductive Called (initial : PhysicalMemoryManager) : PhysicalMemoryManager → Prop
  | start : Called initial initial
  | allocate {pmm next : PhysicalMemoryManager} (pageCount answer : Word) (before : Called initial pmm)
      (ok : allocatePages pageCount pmm = .ok answer next) : Called initial next
  | free {pmm next : PhysicalMemoryManager} (start pageCount : Word) (before : Called initial pmm)
      (ok : freePages start pageCount pmm = .ok () next) : Called initial next

theorem freeLoop_reservedBitmap (bitmap : Bitmap) (remaining page : Nat) :
    Maintains (fun pmm => pmm.reservedBitmap = bitmap) (freeLoop remaining page) := by
  induction remaining generalizing page with
  | zero => exact maintains_pure ()
  | succ remaining ih =>
    intro pmm same
    by_cases held : pmm.Held page
    · rw [freeLoop_held pmm remaining page held]
      exact ih (page + 1) _ same
    · obtain ⟨panic,stopped⟩ := freeLoop_unheld pmm remaining page held
      rw [stopped]
      exact same

theorem freePages_reservedBitmap (bitmap : Bitmap) (start pageCount : Word) :
    Maintains (fun pmm => pmm.reservedBitmap = bitmap) (freePages start pageCount) := by
  unfold freePages
  by_cases page : start % Architecture.pageSize = 0
  · simp only [page,ne_eq,not_true_eq_false,if_false]
    exact (freeLoop_reservedBitmap bitmap _ _).bind fun _ => fun _ same => same
  · simp only [page,ne_eq,not_false_eq_true,if_true]
    exact fun _ same => same

/-- No call touches the reserved bitmap, also where `endPage` wraps. -/
theorem called_reservedBitmap {initial pmm : PhysicalMemoryManager} (called : Called initial pmm) :
    pmm.reservedBitmap = initial.reservedBitmap := by
  induction called with
  | start => rfl
  | @allocate pmm next pageCount answer _ ok same =>
    obtain ⟨first,_,_,taken⟩ | ⟨_,nothing⟩ := allocatePages_spec pmm pageCount
    · rw [taken] at ok
      cases ok
      exact same
    · rw [nothing] at ok
      cases ok
      exact same
  | @free pmm next start pageCount _ ok same =>
    have kept := freePages_reservedBitmap initial.reservedBitmap start pageCount pmm same
    rw [ok] at kept
    exact kept

def HasRun (pmm : PhysicalMemoryManager) (pageCount : Word) : Prop :=
  0 < pageCount.toNat ∧ ∃ start, start + pageCount.toNat ≤ pmm.frameCount.toNat ∧
    ∀ page, start ≤ page → page < start + pageCount.toNat → pmm.reserved page = false ∧ pmm.allocated page = false

theorem run_isFree_iff (pmm : PhysicalMemoryManager) (start count : Nat) :
    FirstFit.Run pmm.isFree start count ↔
      ∀ page, start ≤ page → page < start + count → pmm.reserved page = false ∧ pmm.allocated page = false := by
  simp [FirstFit.Run,isFree]

/-- What a call that finds a run leaves: the allocatable bits of the pages from `first` on
are set, the counter has lost them, and nothing else has changed. -/
structure Takes (pmm next : PhysicalMemoryManager) (first : Nat) (pageCount : Word) : Prop where
  allocated : ∀ page, next.allocated page = (decide (first ≤ page ∧ page < first + pageCount.toNat) || pmm.allocated page)
  usableFrames : next.usableFrames = pmm.usableFrames - pageCount
  unwrapped : pmm.usableFrames.toNat = pmm.freeFrames.card →
    next.usableFrames.toNat + pageCount.toNat = pmm.usableFrames.toNat
  reservedBitmap : next.reservedBitmap = pmm.reservedBitmap
  frameCount : next.frameCount = pmm.frameCount
  bitmapSize : next.bitmapSize = pmm.bitmapSize
  address : next.allocatableBitmap.address = pmm.allocatableBitmap.address

theorem takes_take {pmm : PhysicalMemoryManager} {first : Nat} {pageCount : Word}
    (found : FirstFit.IsFirst pmm.isFree pmm.frameCount.toNat first pageCount.toNat) :
    Takes pmm (pmm.take first pageCount) first pageCount where
  allocated := pmm.take_allocated first pageCount
  usableFrames := rfl
  unwrapped := by
    intro counted
    have enough := Finset.card_le_card (run_subset_freeFrames found)
    rw [Nat.card_Ico] at enough
    have covered : pageCount ≤ pmm.usableFrames := by
      rw [BitVec.le_def,counted]
      omega
    rw [take_usableFrames,BitVec.toNat_sub_of_le covered]
    exact Nat.sub_add_cancel covered
  reservedBitmap := rfl
  frameCount := rfl
  bitmapSize := rfl
  address := rfl

/-- `AllocatePages` is first fit in every state, and changes nothing where it fails. -/
theorem allocatePages_first_fit {initial pmm : PhysicalMemoryManager} (started : Initialized initial)
    (called : Called initial pmm) (pageCount : Word) :
    (pmm.HasRun pageCount → ∃ first answer next, allocatePages pageCount pmm = .ok answer next ∧
      FirstFit.IsFirst pmm.isFree pmm.frameCount.toNat first pageCount.toNat ∧
      answer.toNat = 4096 * first ∧ answer ≠ 0#64 ∧ Takes pmm next first pageCount) ∧
    (¬ pmm.HasRun pageCount → allocatePages pageCount pmm = .ok 0#64 pmm) := by
  have zero : pmm.reserved 0 = true := by
    rw [reserved,called_reservedBitmap called]
    exact started.firstReserved
  obtain ⟨first,positive,found,taken⟩ | ⟨absent,nothing⟩ := allocatePages_spec pmm pageCount
  · have inside : first < pmm.frameCount.toNat := by
      have := found.inside
      omega
    have run : pmm.HasRun pageCount := ⟨positive,first,found.inside,(run_isFree_iff pmm _ _).mp found.run⟩
    refine ⟨fun _ => ⟨first,_,_,taken,found,?_,(found_answer zero positive found).1,takes_take found⟩,fun none => absurd run none⟩
    rw [address_toNat inside,Nat.mul_comm]
  · refine ⟨?_,fun _ => nothing⟩
    rintro ⟨positive,start,inside,free⟩
    obtain empty | none := absent
    · omega
    · exact absurd ((run_isFree_iff pmm _ _).mpr free) (none start inside)

/-- After two pages were handed out and the first given back, one page fits into the gap
and two do not. -/
theorem allocatePages_first_fit_eightFrames :
    ((eightFrames.take 1 2).release 1 1).HasRun 2 ∧
    ∃ first answer next, allocatePages 2 ((eightFrames.take 1 2).release 1 1) = .ok answer next ∧
      FirstFit.IsFirst ((eightFrames.take 1 2).release 1 1).isFree 8 first 2 ∧
      answer.toNat = 4096 * first ∧ answer ≠ 0#64 ∧ Takes ((eightFrames.take 1 2).release 1 1) next first 2 := by
  have started : Initialized eightFrames := ⟨by decide,by decide,by decide⟩
  have first : allocatePages 2 eightFrames = .ok 4096 (eightFrames.take 1 2) := rfl
  have second : freePages 4096 1 (eightFrames.take 1 2) = .ok () ((eightFrames.take 1 2).release 1 1) := rfl
  have called := Called.free 4096 1 (Called.allocate 2 4096 .start first) second
  have run : ((eightFrames.take 1 2).release 1 1).HasRun 2 := by
    refine ⟨by decide,3,by decide,?_⟩
    intro page low high
    have two : (2 : Word).toNat = 2 := by decide
    rw [two] at high
    interval_cases page <;> decide
  exact ⟨run,(allocatePages_first_fit started called 2).1 run⟩

/-- `FreePages` returns for exactly the requests about pages that are held, and then has
cleared their allocatable bits and counted them, without a wrap of the counter. -/
structure FreesExactly (pmm : PhysicalMemoryManager) (start pageCount : Word) : Prop where
  returns : (∃ next, freePages start pageCount pmm = .ok () next) ↔ start.toNat % 4096 = 0 ∧
    ∀ page, start.toNat / 4096 ≤ page → page < start.toNat / 4096 + pageCount.toNat → pmm.Held page
  clears : ∀ next, freePages start pageCount pmm = .ok () next →
    (∀ page, next.allocated page =
      (decide (¬ (start.toNat / 4096 ≤ page ∧ page < start.toNat / 4096 + pageCount.toNat)) && pmm.allocated page)) ∧
    next.usableFrames.toNat = pmm.usableFrames.toNat + pageCount.toNat

theorem freePages_wrapping {start pageCount : Word} (aligned : start.toNat % 4096 = 0)
    (wraps : 2^64 ≤ start.toNat / 4096 + pageCount.toNat) (pmm : PhysicalMemoryManager) :
    freePages start pageCount pmm = .ok () { pmm with usableFrames := pmm.usableFrames + pageCount } := by
  have page : start % Architecture.pageSize = 0 := by
    apply BitVec.eq_of_toNat_eq
    simpa using aligned
  have first : (start / Architecture.pageSize).toNat = start.toNat / 4096 := by simp
  have empty : (start / Architecture.pageSize + pageCount).toNat - (start / Architecture.pageSize).toNat = 0 := by
    have small := pageCount.isLt
    have address := start.isLt
    rw [BitVec.toNat_add,first]
    omega
  simp only [freePages,page,ne_eq,not_true_eq_false,if_false,empty,freeLoop]
  rfl

/-- A request that wraps speaks about pages beyond the bitmap, and is accepted all the same. -/
theorem not_freesExactly {start pageCount : Word} (aligned : start.toNat % 4096 = 0)
    (wraps : 2^64 ≤ start.toNat / 4096 + pageCount.toNat) (pmm : PhysicalMemoryManager) :
    ¬ FreesExactly pmm start pageCount := by
  intro exactly
  have small := pmm.addressable
  have count := pageCount.isLt
  have valid := exactly.returns.mp ⟨_,freePages_wrapping aligned wraps pmm⟩
  have last := (valid.2 (start.toNat / 4096 + pageCount.toNat - 1) (by omega) (by omega)).inside
  omega

theorem RunInvariant.freesExactly {initial pmm : PhysicalMemoryManager} {outstanding : Finset Nat}
    (state : RunInvariant initial pmm outstanding) {start pageCount : Word}
    (fits : start.toNat % 4096 = 0 → start.toNat / 4096 + pageCount.toNat < 2^64) : FreesExactly pmm start pageCount := by
  by_cases aligned : start.toNat % 4096 = 0
  · constructor
    · constructor
      · rintro ⟨next,ok⟩
        obtain ⟨_,held,_⟩ := freePages_inv pmm next start pageCount (fits aligned) ok
        exact ⟨aligned,held⟩
      · rintro ⟨_,held⟩
        exact ⟨_,freePages_ok pmm start pageCount aligned (fits aligned) held⟩
    · intro next ok
      obtain ⟨_,held,rfl⟩ := freePages_inv pmm next start pageCount (fits aligned) ok
      exact ⟨pmm.release_allocated _ pageCount,state.usableFrames_release held⟩
  · constructor
    · refine ⟨?_,fun valid => absurd valid.1 aligned⟩
      rintro ⟨next,ok⟩
      exact absurd ok (freePages_misaligned aligned pageCount pmm next)
    · intro next ok
      exact absurd ok (freePages_misaligned aligned pageCount pmm next)

/-- After calls that did not wrap, `FreePages` is exact for a request if and only if the
end page of the request does not wrap either. -/
theorem freePages_exact_iff {initial pmm : PhysicalMemoryManager} {outstanding : Finset Nat} (started : Initialized initial)
    (reached : Reaches initial pmm outstanding) (start pageCount : Word) :
    FreesExactly pmm start pageCount ↔ (start.toNat % 4096 = 0 → start.toNat / 4096 + pageCount.toNat < 2^64) := by
  constructor
  · intro exactly aligned
    by_contra wraps
    exact not_freesExactly aligned (Nat.le_of_not_lt wraps) pmm exactly
  · exact (reaches_invariant started reached).freesExactly

theorem freePages_exact_eightFrames : FreesExactly (eightFrames.take 1 2) 4096 2 := by
  have started : Initialized eightFrames := ⟨by decide,by decide,by decide⟩
  have first : allocatePages 2 eightFrames = .ok 4096 (eightFrames.take 1 2) := rfl
  exact (freePages_exact_iff started (Reaches.allocate 2 4096 .start first) 4096 2).mpr (by decide)

/-- `FreePages(4096, 2^64 - 1)` returns, and the counter has lost a frame. -/
theorem freePages_accepts_wrapping :
    ¬ ∀ (initial pmm : PhysicalMemoryManager) (outstanding : Finset Nat), Initialized initial →
      Reaches initial pmm outstanding → ∀ start pageCount, FreesExactly pmm start pageCount := by
  intro always
  have exactly := always eightFrames eightFrames ∅ ⟨by decide,by decide,by decide⟩ .start 4096 (-1)
  exact not_freesExactly (by decide) (by decide) eightFrames exactly

end BorealOS.Memory.PhysicalMemoryManager
