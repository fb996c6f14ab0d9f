import BorealOS.Memory.FrameAllocation

/-! Whole runs of the manager. A run interleaves `AllocatePages` and `FreePages`
in any order, with partial frees and frees that span several allocations. The
set of outstanding frames is computed from the answers and the arguments of the
calls alone, and is compared with the bitmaps after every call. -/
namespace BorealOS.Memory.PhysicalMemoryManager

open PackedBitmap

def pagesOf (address pageCount : Word) : Finset Nat :=
  Finset.Ico (address.toNat / 4096) (address.toNat / 4096 + pageCount.toNat)

structure Initialized (pmm : PhysicalMemoryManager) : Prop where
  unallocated : ∀ page < pmm.frameCount.toNat, pmm.allocated page = false
  firstReserved : pmm.reserved 0 = true
  counted : pmm.usableFrames.toNat =
    ((Finset.range pmm.frameCount.toNat).filter fun page => pmm.reserved page = false).card

/-- The states reached by calls that all return, each with the frames handed
out and not yet freed. Zero is the answer of an allocation that failed. -/
inductive Reaches (initial : PhysicalMemoryManager) : PhysicalMemoryManager → Finset Nat → Prop
  | start : Reaches initial initial ∅
  | allocate {pmm next : PhysicalMemoryManager} {outstanding : Finset Nat} (pageCount answer : Word)
      (before : Reaches initial pmm outstanding) (ok : allocatePages pageCount pmm = .ok answer next) :
      Reaches initial next (if answer = 0 then outstanding else outstanding ∪ pagesOf answer pageCount)
  | free {pmm next : PhysicalMemoryManager} {outstanding : Finset Nat} (start pageCount : Word)
      (fits : start.toNat / 4096 + pageCount.toNat < 2^64)
      (before : Reaches initial pmm outstanding) (ok : freePages start pageCount pmm = .ok () next) :
      Reaches initial next (outstanding \ pagesOf start pageCount)

structure RunInvariant (initial pmm : PhysicalMemoryManager) (outstanding : Finset Nat) : Prop where
  frameCount : pmm.frameCount = initial.frameCount
  reservedBitmap : pmm.reservedBitmap = initial.reservedBitmap
  handedOut : ∀ page < pmm.frameCount.toNat, pmm.allocated page = true ↔ page ∈ outstanding
  owned : ∀ page ∈ outstanding, page < pmm.frameCount.toNat ∧ pmm.reserved page = false
  counted : pmm.usableFrames.toNat = pmm.freeFrames.card

theorem RunInvariant.start {initial : PhysicalMemoryManager} (started : Initialized initial) :
    RunInvariant initial initial ∅ where
  frameCount := rfl
  reservedBitmap := rfl
  handedOut := by
    intro page inside
    simp [started.unallocated page inside]
  owned := by simp
  counted := by
    rw [started.counted]
    congr 1
    ext page
    simp only [Finset.mem_filter,Finset.mem_range,mem_freeFrames]
    constructor
    · rintro ⟨inside,unreserved⟩
      exact ⟨inside,unreserved,started.unallocated page inside⟩
    · rintro ⟨inside,unreserved,_⟩
      exact ⟨inside,unreserved⟩

private theorem reserved_zero {initial pmm : PhysicalMemoryManager} {outstanding : Finset Nat}
    (started : Initialized initial) (state : RunInvariant initial pmm outstanding) :
    pmm.reserved 0 = true := by
  rw [reserved,state.reservedBitmap]
  exact started.firstReserved

theorem pagesOf_address {pmm : PhysicalMemoryManager} {first : Nat} (inside : first < pmm.frameCount.toNat)
    (pageCount : Word) : pagesOf (BitVec.ofNat 64 first * Architecture.pageSize) pageCount =
      Finset.Ico first (first + pageCount.toNat) := by
  rw [pagesOf,address_toNat inside,Nat.mul_div_cancel _ (by omega : 0 < 4096)]

/-- A successful search answers the address of exactly the frames it takes, and
never the zero that stands for failure: page zero is reserved. -/
theorem found_answer {pmm : PhysicalMemoryManager} {first : Nat} {pageCount : Word}
    (zero : pmm.reserved 0 = true) (positive : 0 < pageCount.toNat)
    (found : FirstFit.IsFirst pmm.isFree pmm.frameCount.toNat first pageCount.toNat) :
    BitVec.ofNat 64 first * Architecture.pageSize ≠ 0 ∧
      pagesOf (BitVec.ofNat 64 first * Architecture.pageSize) pageCount =
        Finset.Ico first (first + pageCount.toNat) := by
  have inside : first < pmm.frameCount.toNat := by have := found.inside; omega
  refine ⟨?_,pagesOf_address inside pageCount⟩
  intro null
  have address := address_toNat inside
  rw [null] at address
  have nothing : first = 0 := by simp at address; omega
  have free := found.run first (by omega) (by omega)
  simp [isFree,nothing,zero] at free

theorem RunInvariant.taken {initial pmm : PhysicalMemoryManager} {outstanding : Finset Nat} {first : Nat}
    {pageCount : Word} (state : RunInvariant initial pmm outstanding)
    (found : FirstFit.IsFirst pmm.isFree pmm.frameCount.toNat first pageCount.toNat) :
    RunInvariant initial (pmm.take first pageCount)
      (outstanding ∪ Finset.Ico first (first + pageCount.toNat)) where
  frameCount := state.frameCount
  reservedBitmap := state.reservedBitmap
  handedOut := by
    intro page inside
    simp only [take_allocated,Bool.or_eq_true,decide_eq_true_eq,Finset.mem_union,Finset.mem_Ico,
      state.handedOut page inside]
    exact or_comm
  owned := by
    intro page member
    rcases Finset.mem_union.mp member with old | new
    · exact state.owned page old
    · have free := (pmm.mem_freeFrames page).mp (run_subset_freeFrames found new)
      exact ⟨free.1,free.2.1⟩
  counted := by
    have subset := run_subset_freeFrames found
    have enough := Finset.card_le_card subset
    rw [freeFrames_take,Finset.card_sdiff_of_subset subset,take_usableFrames,← state.counted]
    simp only [Nat.card_Ico] at enough ⊢
    have covered : pageCount.toNat ≤ pmm.usableFrames.toNat := by rw [state.counted]; omega
    rw [BitVec.toNat_sub_of_le (BitVec.le_def.mpr covered)]
    omega

theorem RunInvariant.card_release {initial pmm : PhysicalMemoryManager} {outstanding : Finset Nat} {first : Nat}
    {pageCount : Word} (state : RunInvariant initial pmm outstanding)
    (held : ∀ k, first ≤ k → k < first + pageCount.toNat → pmm.Held k) :
    (pmm.release first pageCount).freeFrames.card = pmm.usableFrames.toNat + pageCount.toNat := by
  have apart : Disjoint pmm.freeFrames (Finset.Ico first (first + pageCount.toNat)) := by
    rw [Finset.disjoint_left]
    intro page free given
    obtain ⟨low,high⟩ := Finset.mem_Ico.mp given
    have untaken := ((pmm.mem_freeFrames page).mp free).2.2
    simp [(held page low high).taken] at untaken
  rw [freeFrames_release pmm first pageCount held,Finset.card_union_of_disjoint apart,state.counted]
  simp

theorem RunInvariant.usableFrames_release {initial pmm : PhysicalMemoryManager} {outstanding : Finset Nat} {first : Nat}
    {pageCount : Word} (state : RunInvariant initial pmm outstanding)
    (held : ∀ k, first ≤ k → k < first + pageCount.toNat → pmm.Held k) :
    (pmm.release first pageCount).usableFrames.toNat = pmm.usableFrames.toNat + pageCount.toNat := by
  have total : (pmm.release first pageCount).freeFrames.card ≤ pmm.frameCount.toNat := by
    have below : (pmm.release first pageCount).freeFrames ⊆ Finset.range pmm.frameCount.toNat :=
      Finset.filter_subset _ _
    simpa using Finset.card_le_card below
  rw [state.card_release held] at total
  have small := pmm.addressable
  rw [release_usableFrames,BitVec.toNat_add,Nat.mod_eq_of_lt (by omega)]

theorem RunInvariant.released {initial pmm : PhysicalMemoryManager} {outstanding : Finset Nat} {first : Nat}
    {pageCount : Word} (state : RunInvariant initial pmm outstanding)
    (held : ∀ k, first ≤ k → k < first + pageCount.toNat → pmm.Held k) :
    RunInvariant initial (pmm.release first pageCount)
      (outstanding \ Finset.Ico first (first + pageCount.toNat)) where
  frameCount := state.frameCount
  reservedBitmap := state.reservedBitmap
  handedOut := by
    intro page inside
    simp only [release_allocated,Bool.and_eq_true,decide_eq_true_eq,Finset.mem_sdiff,Finset.mem_Ico,
      state.handedOut page inside]
    exact and_comm
  owned := by
    intro page member
    exact state.owned page (Finset.mem_sdiff.mp member).1
  counted := by rw [state.usableFrames_release held,state.card_release held]

theorem reaches_invariant {initial pmm : PhysicalMemoryManager} {outstanding : Finset Nat}
    (started : Initialized initial) (reached : Reaches initial pmm outstanding) :
    RunInvariant initial pmm outstanding := by
  induction reached with
  | start => exact .start started
  | @allocate pmm next outstanding pageCount answer _ ok state =>
    rcases allocatePages_spec pmm pageCount with ⟨first,positive,found,taken⟩ | ⟨_,nothing⟩
    · rw [taken] at ok
      cases ok
      obtain ⟨nonzero,pages⟩ := found_answer (reserved_zero started state) positive found
      rw [if_neg nonzero,pages]
      exact state.taken found
    · rw [nothing] at ok
      cases ok
      simpa using state
  | @free pmm next outstanding start pageCount fits _ ok state =>
    obtain ⟨_,held,rfl⟩ := freePages_inv pmm next start pageCount fits ok
    exact state.released held

/-- Over every run of calls that return, the reserved bitmap stays, the counter
is exact, the allocatable bits are the outstanding frames, and every allocation
hands out frames that nobody else holds. -/
theorem allocator_run_invariant (initial pmm : PhysicalMemoryManager) (outstanding : Finset Nat)
    (started : Initialized initial) (reached : Reaches initial pmm outstanding) :
    pmm.reservedBitmap = initial.reservedBitmap ∧
    (∀ page < pmm.frameCount.toNat, pmm.reserved page = true → pmm.allocated page = false) ∧
    pmm.usableFrames.toNat = ((Finset.range pmm.frameCount.toNat).filter fun page =>
      pmm.reserved page = false ∧ pmm.allocated page = false).card ∧
    (∀ pageCount answer next, allocatePages pageCount pmm = .ok answer next → answer ≠ 0 →
      ∀ page ∈ pagesOf answer pageCount,
        page < pmm.frameCount.toNat ∧ pmm.reserved page = false ∧ page ∉ outstanding) ∧
    (∀ page < pmm.frameCount.toNat, pmm.allocated page = true ↔ page ∈ outstanding) ∧
    (∀ page ∈ outstanding, page < pmm.frameCount.toNat) := by
  have state := reaches_invariant started reached
  refine ⟨state.reservedBitmap,?_,?_,?_,state.handedOut,fun page member => (state.owned page member).1⟩
  · intro page inside reserved
    cases taken : pmm.allocated page with
    | false => rfl
    | true =>
      have unreserved := (state.owned page ((state.handedOut page inside).mp taken)).2
      simp [reserved] at unreserved
  · rw [state.counted]
    congr 1
    ext page
    simp [mem_freeFrames]
  · intro pageCount answer next ok nonzero page member
    rcases allocatePages_spec pmm pageCount with ⟨first,positive,found,taken⟩ | ⟨_,nothing⟩
    · rw [taken] at ok
      cases ok
      rw [(found_answer (reserved_zero started state) positive found).2] at member
      have free := (pmm.mem_freeFrames page).mp (run_subset_freeFrames found member)
      refine ⟨free.1,free.2.1,?_⟩
      intro held
      have taken := (state.handedOut page free.1).mpr held
      simp [free.2.2] at taken
    · rw [nothing] at ok
      cases ok
      exact absurd rfl nonzero

def eightFrames : PhysicalMemoryManager where
  frameCount := 8
  usableFrames := 7
  bitmapSize := 1
  allocatableBitmap := ⟨0x1000,fun _ => 0⟩
  reservedBitmap := ⟨0x1001,fun _ => 1⟩
  sized := by decide
  addressable := by decide

/-- Two pages are handed out and the first of them is given back. -/
theorem allocator_run_invariant_eightFrames :
    ((eightFrames.take 1 2).release 1 1).usableFrames.toNat = ((Finset.range 8).filter fun page =>
      ((eightFrames.take 1 2).release 1 1).reserved page = false ∧
      ((eightFrames.take 1 2).release 1 1).allocated page = false).card ∧
    ((eightFrames.take 1 2).release 1 1).allocated 2 = true := by
  have started : Initialized eightFrames := ⟨by decide,by decide,by decide⟩
  have first : allocatePages 2 eightFrames = .ok 4096 (eightFrames.take 1 2) := rfl
  have second : freePages 4096 1 (eightFrames.take 1 2) = .ok () ((eightFrames.take 1 2).release 1 1) := rfl
  have reached := Reaches.free 4096 1 (by decide) (Reaches.allocate 2 4096 .start first) second
  have holds := allocator_run_invariant _ _ _ started reached
  exact ⟨holds.2.2.1,(holds.2.2.2.2.1 2 (by decide)).mpr (by decide)⟩

end BorealOS.Memory.PhysicalMemoryManager
