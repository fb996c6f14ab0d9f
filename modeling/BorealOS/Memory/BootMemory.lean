import BorealOS.Memory.MemoryMap
import BorealOS.Memory.AllocationCalls
import BorealOS.Memory.Replay

/-! From the memory map of the boot loader to the running manager. The self-test at the
end of `Initialize` leaves no trace, and from then on the usable pages are split into
those that were handed out and those that are free. -/
namespace BorealOS.Memory.PhysicalMemoryManager
open PackedBitmap Execution MemmapEntry

/-- A page above the first MiB, inside of one usable entry, and off the two bitmaps. -/
def Available (memmap : List MemmapEntry) (pmm : PhysicalMemoryManager) (page : Nat) : Prop :=
  256 ≤ page ∧ (∃ entry ∈ memmap, entry.Usable ∧ entry.Contains page) ∧
    (4096 * page + 4096 ≤ pmm.allocatableBitmap.address.toNat ∨
      pmm.allocatableBitmap.address.toNat + 2 * pmm.bitmapSize.toNat ≤ 4096 * page)

variable {memmap : List MemmapEntry} {offset : Word} {memory : Nat → BitVec 8} {pmm : PhysicalMemoryManager}

theorem initializeBitmaps_available (guaranteed : Guaranteed memmap)
    (ok : initializeBitmaps (some memmap) (some offset) memory = .ok pmm) :
    Initialized pmm ∧ ∀ page, page < pmm.frameCount.toNat ∧ pmm.reserved page = false ↔ Available memmap pmm page := by
  obtain ⟨placed⟩ := initializeBitmaps_placement ok
  have size : pmm.bitmapSize.toNat = bitmapSizeOf memmap := by rw [placed.size,bitmapSizeOf]
  have frames := pmm.sized
  have exact : ∀ page, page < pmm.frameCount.toNat ∧ pmm.reserved page = false ↔ Available memmap pmm page := by
    intro page
    constructor
    · rintro ⟨inside,free⟩
      have available := (placed.unreserved_iff guaranteed page inside).mp free
      rwa [← size] at available
    · rintro ⟨above,⟨entry,listed,usable,contains⟩,avoids⟩
      have high := guaranteed.high entry listed usable
      have inside : page < pmm.frameCount.toNat := by
        have bound := page_lt_frameCount listed usable high (by have := contains.2; omega) contains
        omega
      rw [size] at avoids
      exact ⟨inside,(placed.unreserved_iff guaranteed page inside).mpr ⟨above,⟨entry,listed,usable,contains⟩,avoids⟩⟩
  refine ⟨⟨?_,?_,?_⟩,exact⟩
  · intro page inside
    rw [allocated,bit,placed.allocatable (page / 8) (by omega)]
    simp
  · have small := bitmapSizeFor_toNat (collectRegions memmap).2
    have bound := (collectRegions memmap).2.isLt
    have two : (2 : Word).toNat = 2 := by decide
    have product : (bitmapSizeFor (collectRegions memmap).2 * 2).toNat ≤ (bitmapSizeFor (collectRegions memmap).2).toNat * 2 := by
      rw [BitVec.toNat_mul,two]
      exact Nat.mod_le _ _
    have address := pmm.allocatableBitmap.address.isLt
    rw [reserved,placed.reserved,reserveBitmaps_bit _ _ _ _ (by omega),reserveFirstMiB_bit]
    exact .inr (.inl (by omega))
  · rw [placed.usable,countUsable_toNat _ _ (by have := pmm.addressable; omega)]
    rfl

theorem reserved_of_called {later : PhysicalMemoryManager} (zero : pmm.reserved 0 = true) (called : Called pmm later) :
    later.reserved 0 = true := by
  rw [reserved,called_reservedBitmap called]
  exact zero

/-- Address zero, the answer of an allocation that failed, cannot be given back. -/
theorem freePages_null {later : PhysicalMemoryManager} {pageCount : Word} (zero : pmm.reserved 0 = true)
    (positive : 0 < pageCount.toNat) (ok : freePages 0 pageCount pmm = .ok () later) : False := by
  obtain ⟨_,held,_⟩ := freePages_inv pmm later 0 pageCount (by simp [pageCount.isLt]) ok
  have first := (held 0 (by simp) (by simpa using positive)).unreserved
  simp [zero] at first

/-- The self-test returns only where its allocations succeed, and leaves no trace. -/
theorem testAllocationAndFreeing_ok {later : PhysicalMemoryManager} {passed : Bool} (zero : pmm.reserved 0 = true)
    (ok : testAllocationAndFreeing pmm = .ok passed later) : later = pmm ∧ passed = true := by
  have parts := ok
  simp only [testAllocationAndFreeing,bind_ok] at parts
  obtain ⟨onePage,first,one,twoPages,second,two,megabytes,third,ten,⟨_⟩,fourth,freeOne,⟨_⟩,fifth,freeTwo,⟨_⟩,sixth,freeTen,_⟩ := parts
  have taken : Called pmm third := .allocate _ _ (.allocate _ _ (.allocate _ _ .start one) two) ten
  have freed : Called pmm fourth := .free _ _ taken freeOne
  have nonzero : ∀ answer ∈ [onePage,twoPages,megabytes], answer ≠ 0 := by
    simp only [List.mem_cons,List.not_mem_nil,or_false]
    rintro answer (rfl | rfl | rfl) rfl
    · exact freePages_null (reserved_of_called zero taken) (by decide) freeOne
    · exact freePages_null (reserved_of_called zero freed) (by decide) freeTwo
    · exact freePages_null (reserved_of_called zero (.free _ _ freed freeTwo)) (by decide) freeTen
  have all : allocateAll [1,2,10 * Constants.miB / Architecture.pageSize] pmm = .ok [onePage,twoPages,megabytes] third := by
    simp only [allocateAll,bind_ok]
    exact ⟨onePage,first,one,[twoPages,megabytes],third,
      ⟨twoPages,second,two,[megabytes],third,⟨megabytes,third,ten,[],third,rfl,rfl⟩,rfl⟩,rfl⟩
  rw [testAllocationAndFreeing_passes all nonzero] at ok
  cases ok
  exact ⟨rfl,rfl⟩

theorem initializeManager_ok (guaranteed : Guaranteed memmap)
    (ok : initializeManager (some memmap) (some offset) memory = .ok pmm) :
    initializeBitmaps (some memmap) (some offset) memory = .ok pmm := by
  rw [initializeManager] at ok
  cases built : initializeBitmaps (some memmap) (some offset) memory with
  | error panic => simp [built,bind,Except.bind] at ok
  | ok started =>
    rw [built] at ok
    simp only [bind,Except.bind] at ok
    cases tested : testAllocationAndFreeing started with
    | error panic state => simp [tested,throw,throwThe,MonadExceptOf.throw] at ok
    | ok passed state =>
      obtain ⟨rfl,rfl⟩ := testAllocationAndFreeing_ok (initializeBitmaps_available guaranteed built).1.firstReserved tested
      simp only [tested,if_true,pure,Except.pure,Except.ok.injEq] at ok
      rw [ok]

/-- First fit takes nothing from behind the first pages of a free run. -/
theorem allocateAll_run {pageCounts : List Word} {first : Nat} (zero : pmm.reserved 0 = true)
    (positive : ∀ pageCount ∈ pageCounts, 0 < pageCount.toNat)
    (run : Finset.Ico first (first + (pageCounts.map BitVec.toNat).sum) ⊆ pmm.freeFrames) :
    ∃ answers taken, allocateAll pageCounts pmm = .ok answers taken ∧ ∀ answer ∈ answers, answer ≠ 0 := by
  induction pageCounts generalizing pmm first with
  | nil => exact ⟨[],pmm,rfl,by simp⟩
  | cons pageCount pageCounts ih =>
    rw [List.forall_mem_cons] at positive
    simp only [List.map_cons,List.sum_cons] at run
    have free : FirstFit.Run pmm.isFree first pageCount.toNat := by
      intro page low high
      have member := (pmm.mem_freeFrames page).mp (run (Finset.mem_Ico.mpr ⟨low,by omega⟩))
      simp [isFree,member.2.1,member.2.2]
    have last := (pmm.mem_freeFrames _).mp (run (Finset.mem_Ico.mpr
      ⟨Nat.le_add_right first (pageCount.toNat - 1),by have := positive.1; omega⟩))
    rcases allocatePages_spec pmm pageCount with ⟨start,_,found,searched⟩ | ⟨absent,_⟩
    · have early : start ≤ first := by
        by_contra later
        exact found.least first (by omega) free
      have reserved : (pmm.take start pageCount).reserved 0 = true := by simpa using zero
      have rest : Finset.Ico (first + pageCount.toNat) (first + pageCount.toNat + (pageCounts.map BitVec.toNat).sum) ⊆
          (pmm.take start pageCount).freeFrames := by
        rw [freeFrames_take]
        intro page member
        have place := Finset.mem_Ico.mp member
        refine Finset.mem_sdiff.mpr ⟨run (Finset.mem_Ico.mpr ⟨by omega,by omega⟩),?_⟩
        rw [Finset.mem_Ico]
        omega
      obtain ⟨answers,taken,ok,nonzero⟩ := ih reserved positive.2 rest
      refine ⟨BitVec.ofNat 64 start * Architecture.pageSize :: answers,taken,?_,?_⟩
      · rw [allocateAll,bind_of_ok searched,bind_of_ok ok]
        rfl
      · exact List.forall_mem_cons.mpr ⟨(found_answer zero positive.1 found).1,nonzero⟩
    · rcases absent with none | none
      · exact absurd none (Nat.ne_of_gt positive.1)
      · exact absurd free (none first (by have := positive.1; omega))

/-- `Initialize` returns wherever the bitmaps have room and a run of available pages is
long enough for the self-test. -/
theorem initializeManager_returns {first : Nat} (guaranteed : Guaranteed memmap)
    (built : initializeBitmaps (some memmap) (some offset) memory = .ok pmm)
    (run : ∀ page, first ≤ page → page < first + 2563 → Available memmap pmm page) :
    initializeManager (some memmap) (some offset) memory = .ok pmm := by
  obtain ⟨initialized,available⟩ := initializeBitmaps_available guaranteed built
  have megabytes : (10 * Constants.miB / Architecture.pageSize : Word).toNat = 2560 := by decide
  have one : (1 : Word).toNat = 1 := by decide
  have two : (2 : Word).toNat = 2 := by decide
  have pages : Finset.Ico first (first + (([1,2,10 * Constants.miB / Architecture.pageSize] : List Word).map BitVec.toNat).sum) ⊆
      pmm.freeFrames := by
    intro page member
    simp only [List.map_cons,List.map_nil,List.sum_cons,List.sum_nil,megabytes,one,two,Finset.mem_Ico] at member
    obtain ⟨inside,unreserved⟩ := (available page).mpr (run page member.1 (by omega))
    exact (pmm.mem_freeFrames page).mpr ⟨inside,unreserved,initialized.unallocated page inside⟩
  have counts : ∀ pageCount ∈ ([1,2,10 * Constants.miB / Architecture.pageSize] : List Word), 0 < pageCount.toNat := by
    simp only [List.forall_mem_cons,megabytes,one,two]
    simp
  obtain ⟨answers,taken,ok,nonzero⟩ := allocateAll_run initialized.firstReserved counts pages
  have parts := ok
  simp only [allocateAll,bind_ok] at parts
  obtain ⟨_,_,_,_,_,⟨_,_,_,_,_,⟨_,_,_,_,_,⟨_⟩,⟨_⟩⟩,⟨_⟩⟩,⟨_⟩⟩ := parts
  rw [initializeManager,built]
  simp only [bind,Except.bind]
  rw [testAllocationAndFreeing_passes ok nonzero]
  rfl

/-- From a boot on which `Initialize` returns, over every run of calls, the pages above the
first MiB that lie inside one usable entry and off the bitmaps are split into those handed
out and not given back, and the free ones; the counter counts the free ones; and an
allocation takes a run of these wherever there is one. -/
theorem boot_memory_partition {later : PhysicalMemoryManager} {outstanding : Finset Nat} (guaranteed : Guaranteed memmap)
    (ok : initializeManager (some memmap) (some offset) memory = .ok pmm) (reached : Reaches pmm later outstanding) :
    (∀ page, page ∈ outstanding ∨ page ∈ later.freeFrames ↔ Available memmap pmm page) ∧
      Disjoint outstanding later.freeFrames ∧ later.usableFrames.toNat = later.freeFrames.card ∧
      ∀ pageCount, 0 < pageCount.toNat → ∃ answer next, allocatePages pageCount later = .ok answer next ∧
        (answer ≠ 0 ↔ ∃ first, Finset.Ico first (first + pageCount.toNat) ⊆ later.freeFrames) ∧
        (answer ≠ 0 → answer.toNat % 4096 = 0 ∧ pagesOf answer pageCount ⊆ later.freeFrames) := by
  obtain ⟨initialized,available⟩ := initializeBitmaps_available guaranteed (initializeManager_ok guaranteed ok)
  have state := reaches_invariant initialized reached
  have reserved : ∀ page, later.reserved page = pmm.reserved page := by
    intro page
    rw [PhysicalMemoryManager.reserved,state.reservedBitmap]
    rfl
  refine ⟨?_,?_,state.counted,?_⟩
  · intro page
    rw [← available,mem_freeFrames,reserved,← state.frameCount]
    constructor
    · rintro (held | ⟨inside,free,_⟩)
      · obtain ⟨inside,free⟩ := state.owned page held
        rw [reserved] at free
        exact ⟨inside,free⟩
      · exact ⟨inside,free⟩
    · rintro ⟨inside,free⟩
      cases taken : later.allocated page with
      | true => exact .inl ((state.handedOut page inside).mp taken)
      | false => exact .inr ⟨inside,free,rfl⟩
  · rw [Finset.disjoint_left]
    intro page held free
    obtain ⟨inside,_,untaken⟩ := (later.mem_freeFrames page).mp free
    have taken := (state.handedOut page inside).mpr held
    simp [untaken] at taken
  · intro pageCount positive
    have zero : later.reserved 0 = true := by
      rw [reserved]
      exact initialized.firstReserved
    rcases allocatePages_spec later pageCount with ⟨first,_,found,searched⟩ | ⟨absent,nothing⟩
    · obtain ⟨nonzero,pages⟩ := found_answer zero positive found
      have inside : first < later.frameCount.toNat := by
        have := found.inside
        omega
      refine ⟨_,_,searched,⟨fun _ => ⟨first,run_subset_freeFrames found⟩,fun _ => nonzero⟩,fun _ => ⟨?_,?_⟩⟩
      · rw [address_toNat inside]
        omega
      · rw [pages]
        exact run_subset_freeFrames found
    · refine ⟨_,_,nothing,⟨fun impossible => absurd rfl impossible,?_⟩,fun impossible => absurd rfl impossible⟩
      rintro ⟨first,run⟩
      have free : ∀ page, first ≤ page → page < first + pageCount.toNat → page ∈ later.freeFrames :=
        fun page low high => run (Finset.mem_Ico.mpr ⟨low,high⟩)
      have last := ((later.mem_freeFrames _).mp (free (first + (pageCount.toNat - 1)) (by omega) (by omega))).1
      rcases absent with none | none
      · omega
      · refine absurd ?_ (none first (by omega))
        intro page low high
        obtain ⟨_,unreserved,untaken⟩ := (later.mem_freeFrames page).mp (free page low high)
        simp [isFree,unreserved,untaken]

/-- One usable entry of 64 MiB behind the first MiB. -/
def sixtyFourMiB : List MemmapEntry := [⟨0x100000,0x4000000,memmapUsable⟩]

theorem boot_memory_partition_sixtyFourMiB : ∃ pmm,
    initializeManager (some sixtyFourMiB) (some 0) (fun _ => 0) = .ok pmm ∧
      ∀ page, page ∈ pmm.freeFrames ↔ Available sixtyFourMiB pmm page := by
  have guaranteed : Guaranteed sixtyFourMiB := by
    refine ⟨?_,?_,?_⟩
    · simp [sixtyFourMiB]
    · simp [sixtyFourMiB,MemmapEntry.stop]
    · simp [sixtyFourMiB,MemmapEntry.Usable]
  have size : bitmapSizeOf sixtyFourMiB = 4096 := by decide
  cases built : initializeBitmaps (some sixtyFourMiB) (some 0) (fun _ => 0) with
  | error panic =>
    have small := (initializeBitmaps_panics_iff sixtyFourMiB 0 (fun _ => 0) guaranteed).mp ⟨panic,built⟩
      ⟨0x100000,0x4000000,memmapUsable⟩ (by simp [sixtyFourMiB]) rfl (by decide)
    rw [size] at small
    exact absurd small (by decide)
  | ok pmm =>
    obtain ⟨placed⟩ := initializeBitmaps_placement built
    obtain ⟨_,_,near,_⟩ := placed.storage guaranteed
    have listed := (List.mem_filter.mp ((placed.mem_split _).mpr (Or.inr rfl))).1
    have base : placed.chosen.base.toNat = 0x100000 := by
      rw [List.mem_singleton.mp listed]
      rfl
    have bytes : pmm.bitmapSize.toNat = 4096 := by
      rw [placed.size]
      exact size
    have run : ∀ page, 300 ≤ page → page < 300 + 2563 → Available sixtyFourMiB pmm page := by
      intro page low high
      refine ⟨by omega,⟨_,List.mem_singleton.mpr rfl,rfl,?_,?_⟩,.inr (by omega)⟩
      · change 0x100000 ≤ 4096 * page
        omega
      · change 4096 * page + 4096 ≤ 0x4100000
        omega
    have ok := initializeManager_returns guaranteed built run
    obtain ⟨partition,_⟩ := boot_memory_partition guaranteed ok .start
    exact ⟨pmm,ok,fun page => by simpa using partition page⟩

end BorealOS.Memory.PhysicalMemoryManager
