import BorealOS.Memory.PhysicalMemoryManager

/-! The manager's calls as operations on sets of frames. Each call has one
specification here: which frames it takes or gives back, what it answers and
when it stops. Later modules use these specifications and never the loops or
the packed bytes. -/
namespace BorealOS.Memory.PhysicalMemoryManager

open PackedBitmap Execution

def reserved (pmm : PhysicalMemoryManager) (page : Nat) : Bool := bit pmm.reservedBitmap.bytes page

def allocated (pmm : PhysicalMemoryManager) (page : Nat) : Bool := bit pmm.allocatableBitmap.bytes page

def isFree (pmm : PhysicalMemoryManager) (page : Nat) : Bool := !pmm.reserved page && !pmm.allocated page

def freeFrames (pmm : PhysicalMemoryManager) : Finset Nat :=
  (Finset.range pmm.frameCount.toNat).filter fun page => pmm.isFree page = true

structure Held (pmm : PhysicalMemoryManager) (page : Nat) : Prop where
  inside : page < pmm.frameCount.toNat
  unreserved : pmm.reserved page = false
  taken : pmm.allocated page = true

theorem mem_freeFrames (pmm : PhysicalMemoryManager) (page : Nat) :
    page ∈ pmm.freeFrames ↔ page < pmm.frameCount.toNat ∧
      pmm.reserved page = false ∧ pmm.allocated page = false := by
  simp [freeFrames,isFree]

private theorem byte_inside (pmm : PhysicalMemoryManager) (page : Nat) :
    ¬ pmm.bitmapSize.toNat ≤ page / 8 ↔ page < pmm.frameCount.toNat := by
  have := pmm.sized
  omega

private theorem bne_zero_eq_bit (bytes : Nat → BitVec 8) (page : Nat) :
    (bytes (page / 8) &&& mask page != 0) = bit bytes page := by
  have tested := and_mask_ne_zero bytes page
  cases set : bit bytes page with
  | true => simpa using tested.mpr set
  | false =>
    have zero : ¬ (bytes (page / 8) &&& mask page ≠ 0) := fun nonzero => by simp [tested.mp nonzero] at set
    simpa using zero

theorem isPageReserved_eq (pmm : PhysicalMemoryManager) (page : Nat) (inside : page < pmm.frameCount.toNat) :
    pmm.isPageReserved page = .ok (pmm.reserved page) := by
  rw [isPageReserved,if_neg ((pmm.byte_inside page).mpr inside),bne_zero_eq_bit]
  rfl

theorem isPageAllocated_eq (pmm : PhysicalMemoryManager) (page : Nat) (inside : page < pmm.frameCount.toNat) :
    pmm.isPageAllocated page = .ok (pmm.allocated page) := by
  rw [isPageAllocated,if_neg ((pmm.byte_inside page).mpr inside),bne_zero_eq_bit]
  rfl

/-- Inside the frame count the search never panics: it is the first-fit pass. -/
theorem findRun_eq_scan (pmm : PhysicalMemoryManager) (pageCount remaining page runStart runLength : Nat)
    (inside : page + remaining ≤ pmm.frameCount.toNat) :
    pmm.findRun pageCount remaining page runStart runLength =
      .ok (FirstFit.scan pmm.isFree pageCount remaining page runStart runLength) := by
  induction remaining generalizing page runStart runLength with
  | zero => rfl
  | succ remaining ih =>
    have here : page < pmm.frameCount.toNat := by omega
    rw [findRun,FirstFit.scan,isPageReserved_eq _ _ here,isPageAllocated_eq _ _ here]
    simp only [bind,Except.bind]
    change (if pmm.isFree page = true then _ else _) = _
    split
    · split
      · rfl
      · exact ih _ _ _ (by omega)
    · exact ih _ _ _ (by omega)

section Take
variable (pmm : PhysicalMemoryManager) (runStart : Nat) (pageCount : Word)

@[simp] theorem take_frameCount : (pmm.take runStart pageCount).frameCount = pmm.frameCount := rfl

@[simp] theorem take_reservedBitmap :
    (pmm.take runStart pageCount).reservedBitmap = pmm.reservedBitmap := rfl

@[simp] theorem take_usableFrames :
    (pmm.take runStart pageCount).usableFrames = pmm.usableFrames - pageCount := rfl

@[simp] theorem take_reserved (page : Nat) :
    (pmm.take runStart pageCount).reserved page = pmm.reserved page := rfl

@[simp] theorem take_allocated (page : Nat) : (pmm.take runStart pageCount).allocated page =
    (decide (runStart ≤ page ∧ page < runStart + pageCount.toNat) || pmm.allocated page) := by
  simp only [take,allocated,bit_foldl_setBit]
  congr 1
  simp [List.mem_range'_1]

end Take

/-- `AllocatePages` never panics. It takes the least run of free frames and
answers its address, or it answers zero and changes nothing. -/
theorem allocatePages_spec (pmm : PhysicalMemoryManager) (pageCount : Word) :
    (∃ first, 0 < pageCount.toNat ∧
      FirstFit.IsFirst pmm.isFree pmm.frameCount.toNat first pageCount.toNat ∧
      allocatePages pageCount pmm =
        .ok (BitVec.ofNat 64 first * Architecture.pageSize) (pmm.take first pageCount)) ∨
    ((pageCount.toNat = 0 ∨ ∀ first, first + pageCount.toNat ≤ pmm.frameCount.toNat →
        ¬ FirstFit.Run pmm.isFree first pageCount.toNat) ∧
      allocatePages pageCount pmm = .ok 0 pmm) := by
  by_cases none : pageCount = 0
  · subst none
    exact Or.inr ⟨Or.inl rfl,rfl⟩
  · have positive : 0 < pageCount.toNat := by
      rcases Nat.eq_zero_or_pos pageCount.toNat with zero | positive
      · exact absurd (BitVec.eq_of_toNat_eq (by simpa using zero)) none
      · exact positive
    have searched := pmm.findRun_eq_scan pageCount.toNat pmm.frameCount.toNat 0 0 0 (by omega)
    have run : allocatePages pageCount pmm =
        (if (FirstFit.scan pmm.isFree pageCount.toNat pmm.frameCount.toNat 0 0 0).2 < pageCount.toNat
          then .ok 0 pmm
          else .ok (BitVec.ofNat 64 (FirstFit.scan pmm.isFree pageCount.toNat pmm.frameCount.toNat 0 0 0).1 *
              Architecture.pageSize)
            (pmm.take (FirstFit.scan pmm.isFree pageCount.toNat pmm.frameCount.toNat 0 0 0).1 pageCount)) := by
      simp only [allocatePages,none,if_false,bind,EStateM.bind,get,getThe,MonadStateOf.get,EStateM.get,
        searched,MonadExcept.ofExcept,pure,EStateM.pure]
      split <;> rfl
    rcases FirstFit.scan_spec pmm.isFree positive pmm.frameCount.toNat with ⟨enough,first⟩ | ⟨short,absent⟩
    · refine Or.inl ⟨_,positive,first,?_⟩
      rw [run,if_neg (by omega)]
    · refine Or.inr ⟨Or.inr absent,?_⟩
      rw [run,if_pos short]

def clear (pmm : PhysicalMemoryManager) (first count : Nat) : PhysicalMemoryManager :=
  { pmm with allocatableBitmap := { pmm.allocatableBitmap with
      bytes := (List.range' first count).foldl clearBit pmm.allocatableBitmap.bytes } }

/-- The pages from `first` on are given back: cleared and counted again. -/
def release (pmm : PhysicalMemoryManager) (first : Nat) (pageCount : Word) : PhysicalMemoryManager :=
  { pmm.clear first pageCount.toNat with usableFrames := pmm.usableFrames + pageCount }

section Release
variable (pmm : PhysicalMemoryManager) (first : Nat) (pageCount : Word)

@[simp] theorem release_frameCount : (pmm.release first pageCount).frameCount = pmm.frameCount := rfl

@[simp] theorem release_reservedBitmap :
    (pmm.release first pageCount).reservedBitmap = pmm.reservedBitmap := rfl

@[simp] theorem release_usableFrames :
    (pmm.release first pageCount).usableFrames = pmm.usableFrames + pageCount := rfl

@[simp] theorem release_reserved (page : Nat) :
    (pmm.release first pageCount).reserved page = pmm.reserved page := rfl

@[simp] theorem release_allocated (page : Nat) : (pmm.release first pageCount).allocated page =
    (decide (¬ (first ≤ page ∧ page < first + pageCount.toNat)) && pmm.allocated page) := by
  simp only [release,clear,allocated,bit_foldl_clearBit]
  congr 1
  simp [List.mem_range'_1]

end Release

theorem freeLoop_held (pmm : PhysicalMemoryManager) (remaining page : Nat) (held : pmm.Held page) :
    freeLoop (remaining + 1) page pmm = freeLoop remaining (page + 1) (pmm.clear page 1) := by
  simp only [freeLoop,bind,EStateM.bind,get,getThe,MonadStateOf.get,EStateM.get,
    if_neg ((pmm.byte_inside page).mpr held.inside),isPageReserved_eq _ _ held.inside,
    isPageAllocated_eq _ _ held.inside,MonadExcept.ofExcept,pure,EStateM.pure,held.unreserved,
    held.taken,Bool.false_eq_true,if_false,Bool.not_true]
  rfl

theorem freeLoop_unheld (pmm : PhysicalMemoryManager) (remaining page : Nat) (unheld : ¬ pmm.Held page) :
    ∃ panic, freeLoop (remaining + 1) page pmm = .error panic pmm := by
  by_cases inside : page < pmm.frameCount.toNat
  · cases reserved : pmm.reserved page with
    | true =>
      refine ⟨.freeReservedPage,?_⟩
      simp only [freeLoop,bind,EStateM.bind,get,getThe,MonadStateOf.get,EStateM.get,
        if_neg ((pmm.byte_inside page).mpr inside),isPageReserved_eq _ _ inside,MonadExcept.ofExcept,
        pure,EStateM.pure,reserved,if_true]
      rfl
    | false =>
      have unallocated : pmm.allocated page = false := by
        cases taken : pmm.allocated page with
        | true => exact absurd ⟨inside,reserved,taken⟩ unheld
        | false => rfl
      refine ⟨.freeUnallocatedPage,?_⟩
      simp only [freeLoop,bind,EStateM.bind,get,getThe,MonadStateOf.get,EStateM.get,
        if_neg ((pmm.byte_inside page).mpr inside),isPageReserved_eq _ _ inside,
        isPageAllocated_eq _ _ inside,MonadExcept.ofExcept,pure,EStateM.pure,reserved,unallocated,
        Bool.false_eq_true,if_false,Bool.not_false,if_true]
      rfl
  · refine ⟨.pageIndexOutOfBounds,?_⟩
    have outside : pmm.bitmapSize.toNat ≤ page / 8 := by
      by_contra byte
      exact inside ((pmm.byte_inside page).mp byte)
    simp only [freeLoop,bind,EStateM.bind,get,getThe,MonadStateOf.get,EStateM.get,if_pos outside]
    rfl

private theorem clear_succ (pmm : PhysicalMemoryManager) (page count : Nat) :
    (pmm.clear page 1).clear (page + 1) count = pmm.clear page (count + 1) := rfl

private theorem clear_held {pmm : PhysicalMemoryManager} {page other : Nat} (different : other ≠ page) :
    (pmm.clear page 1).Held other ↔ pmm.Held other := by
  have bits : (pmm.clear page 1).allocated other = pmm.allocated other := by
    simp [clear,allocated,different]
  constructor
  · intro held
    exact ⟨held.inside,held.unreserved,bits ▸ held.taken⟩
  · intro held
    exact ⟨held.inside,held.unreserved,bits.trans held.taken⟩

theorem freeLoop_ok (pmm : PhysicalMemoryManager) (remaining page : Nat)
    (held : ∀ k, page ≤ k → k < page + remaining → pmm.Held k) :
    freeLoop remaining page pmm = .ok () (pmm.clear page remaining) := by
  induction remaining generalizing page pmm with
  | zero => rfl
  | succ remaining ih =>
    rw [freeLoop_held pmm remaining page (held page (by omega) (by omega)),ih,clear_succ]
    intro k low high
    exact (clear_held (by omega)).mpr (held k (by omega) (by omega))

theorem freeLoop_stops (pmm : PhysicalMemoryManager) (remaining page k : Nat)
    (low : page ≤ k) (high : k < page + remaining) (unheld : ¬ pmm.Held k) :
    Stops (freeLoop remaining page pmm) := by
  induction remaining generalizing page pmm with
  | zero => omega
  | succ remaining ih =>
    by_cases here : pmm.Held page
    · rw [freeLoop_held pmm remaining page here]
      have different : k ≠ page := fun same => unheld (same ▸ here)
      exact ih _ _ (by omega) (by omega) (fun held => unheld ((clear_held different).mp held))
    · obtain ⟨panic,stopped⟩ := freeLoop_unheld pmm remaining page here
      simp [stopped]

private theorem freePages_eq (start pageCount : Word) (aligned : start.toNat % 4096 = 0)
    (fits : start.toNat / 4096 + pageCount.toNat < 2^64) :
    freePages start pageCount = (do
      freeLoop pageCount.toNat (start.toNat / 4096)
      modify fun pmm => { pmm with usableFrames := pmm.usableFrames + pageCount }) := by
  have page : start % Architecture.pageSize = 0 := by
    apply BitVec.eq_of_toNat_eq
    simpa using aligned
  have first : (start / Architecture.pageSize).toNat = start.toNat / 4096 := by simp
  have count : (start / Architecture.pageSize + pageCount).toNat - (start / Architecture.pageSize).toNat =
      pageCount.toNat := by
    rw [BitVec.toNat_add,first,Nat.mod_eq_of_lt fits]
    omega
  simp only [freePages,page,ne_eq,not_true_eq_false,if_false]
  rw [count,first]

theorem freePages_ok (pmm : PhysicalMemoryManager) (start pageCount : Word)
    (aligned : start.toNat % 4096 = 0) (fits : start.toNat / 4096 + pageCount.toNat < 2^64)
    (held : ∀ k, start.toNat / 4096 ≤ k → k < start.toNat / 4096 + pageCount.toNat → pmm.Held k) :
    freePages start pageCount pmm = .ok () (pmm.release (start.toNat / 4096) pageCount) := by
  rw [freePages_eq start pageCount aligned fits,
    bind_of_ok (freeLoop_ok pmm pageCount.toNat (start.toNat / 4096) held)]
  rfl

theorem freePages_one_unheld (pmm : PhysicalMemoryManager) (start : Word) (aligned : start.toNat % 4096 = 0)
    (unheld : ¬ pmm.Held (start.toNat / 4096)) : ∃ panic, freePages start 1 pmm = .error panic pmm := by
  have one : (1 : Word).toNat = 1 := by decide
  have fits : start.toNat / 4096 + (1 : Word).toNat < 2^64 := by
    have := start.isLt
    omega
  obtain ⟨panic,stopped⟩ := freeLoop_unheld pmm 0 (start.toNat / 4096) unheld
  refine ⟨panic,?_⟩
  rw [freePages_eq start 1 aligned fits,one,bind_of_error stopped]

theorem freePages_misaligned {start : Word} (misaligned : start.toNat % 4096 ≠ 0) (pageCount : Word)
    (pmm next : PhysicalMemoryManager) : freePages start pageCount pmm ≠ .ok () next := by
  have page : start % Architecture.pageSize ≠ 0 := by
    intro zero
    have read := congrArg BitVec.toNat zero
    simp at read
    omega
  intro ok
  simp only [freePages,page,ne_eq,not_false_eq_true,if_true] at ok
  cases ok

theorem freePages_inv (pmm final : PhysicalMemoryManager) (start pageCount : Word)
    (fits : start.toNat / 4096 + pageCount.toNat < 2^64)
    (ok : freePages start pageCount pmm = .ok () final) :
    start.toNat % 4096 = 0 ∧
    (∀ k, start.toNat / 4096 ≤ k → k < start.toNat / 4096 + pageCount.toNat → pmm.Held k) ∧
    final = pmm.release (start.toNat / 4096) pageCount := by
  have aligned : start.toNat % 4096 = 0 := by
    by_contra misaligned
    exact freePages_misaligned misaligned pageCount pmm final ok
  have held : ∀ k, start.toNat / 4096 ≤ k → k < start.toNat / 4096 + pageCount.toNat → pmm.Held k := by
    intro k low high
    by_contra unheld
    have stops := freeLoop_stops pmm pageCount.toNat (start.toNat / 4096) k low high unheld
    rw [freePages_eq start pageCount aligned fits] at ok
    obtain ⟨_,middle,loop,_⟩ := (bind_ok _ _ _ _ _).mp ok
    simp [loop] at stops
  refine ⟨aligned,held,?_⟩
  rw [freePages_ok pmm start pageCount aligned fits held] at ok
  cases ok
  rfl

/-! The same calls seen on the set of free frames. -/

theorem freeFrames_take (pmm : PhysicalMemoryManager) (first : Nat) (pageCount : Word) :
    (pmm.take first pageCount).freeFrames = pmm.freeFrames \ Finset.Ico first (first + pageCount.toNat) := by
  ext page
  simp only [mem_freeFrames,take_frameCount,take_reserved,take_allocated,Finset.mem_sdiff,Finset.mem_Ico,
    Bool.or_eq_false_iff,decide_eq_false_iff_not]
  tauto

theorem freeFrames_take_one (pmm : PhysicalMemoryManager) (page : Nat) :
    (pmm.take page 1).freeFrames = pmm.freeFrames.erase page := by
  have single : Finset.Ico page (page + 1) = {page} := Nat.Ico_succ_singleton page
  rw [freeFrames_take,Finset.erase_eq,← single]
  rfl

theorem freeFrames_release (pmm : PhysicalMemoryManager) (first : Nat) (pageCount : Word)
    (held : ∀ k, first ≤ k → k < first + pageCount.toNat → pmm.Held k) :
    (pmm.release first pageCount).freeFrames = pmm.freeFrames ∪ Finset.Ico first (first + pageCount.toNat) := by
  ext page
  simp only [mem_freeFrames,release_frameCount,release_reserved,release_allocated,Finset.mem_union,
    Finset.mem_Ico,Bool.and_eq_false_iff,decide_eq_false_iff_not,not_not]
  constructor
  · rintro ⟨inside,unreserved,given | untaken⟩
    · exact Or.inr given
    · exact Or.inl ⟨inside,unreserved,untaken⟩
  · rintro (⟨inside,unreserved,untaken⟩ | given)
    · exact ⟨inside,unreserved,Or.inr untaken⟩
    · have here := held page given.1 given.2
      exact ⟨here.inside,here.unreserved,Or.inl given⟩

theorem run_subset_freeFrames {pmm : PhysicalMemoryManager} {first count : Nat}
    (found : FirstFit.IsFirst pmm.isFree pmm.frameCount.toNat first count) :
    Finset.Ico first (first + count) ⊆ pmm.freeFrames := by
  intro page member
  obtain ⟨low,high⟩ := Finset.mem_Ico.mp member
  have free := found.run page low high
  have inside := found.inside
  simp only [isFree,Bool.and_eq_true,Bool.not_eq_true'] at free
  exact (pmm.mem_freeFrames page).mpr ⟨by omega,free⟩

theorem address_toNat {pmm : PhysicalMemoryManager} {page : Nat} (inside : page < pmm.frameCount.toNat) :
    (BitVec.ofNat 64 page * Architecture.pageSize).toNat = page * 4096 := by
  have small := pmm.addressable
  rw [BitVec.toNat_mul,BitVec.toNat_ofNat,Architecture.pageSize_toNat,Nat.mod_eq_of_lt (by omega : page < 2^64)]
  exact Nat.mod_eq_of_lt (by omega)

theorem allocatePages_one (pmm : PhysicalMemoryManager) :
    (∃ frame ∈ pmm.freeFrames, (∀ other ∈ pmm.freeFrames, frame ≤ other) ∧
      allocatePages 1 pmm = .ok (BitVec.ofNat 64 frame * Architecture.pageSize) (pmm.take frame 1)) ∨
    (pmm.freeFrames = ∅ ∧ allocatePages 1 pmm = .ok 0 pmm) := by
  have one : (1 : Word).toNat = 1 := by decide
  have single : ∀ page, FirstFit.Run pmm.isFree page 1 ↔ pmm.isFree page = true := by
    intro page
    constructor
    · intro run
      exact run page (by omega) (by omega)
    · intro free k low high
      have same : k = page := by omega
      rw [same]
      exact free
  have member : ∀ page, page ∈ pmm.freeFrames ↔ page < pmm.frameCount.toNat ∧ pmm.isFree page = true := by
    intro page
    simp [freeFrames]
  rcases allocatePages_spec pmm 1 with ⟨frame,_,found,taken⟩ | ⟨absent,nothing⟩
  · rw [one] at found
    have inside := found.inside
    refine Or.inl ⟨frame,(member frame).mpr ⟨by omega,(single frame).mp found.run⟩,?_,taken⟩
    intro other free
    by_contra before
    exact found.least other (by omega) ((single other).mpr ((member other).mp free).2)
  · refine Or.inr ⟨?_,nothing⟩
    rw [Finset.eq_empty_iff_forall_notMem]
    intro page free
    obtain ⟨inside,isFree⟩ := (member page).mp free
    rcases absent with zero | none
    · simp at zero
    · rw [one] at none
      exact none page (by omega) ((single page).mpr isFree)

end BorealOS.Memory.PhysicalMemoryManager
