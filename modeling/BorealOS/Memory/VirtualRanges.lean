import BorealOS.Memory.MappedPages
import BorealOS.Library.FirstFit

/-! `FindAvailableVirtualAddressRange` as a first-fit search over the pages between two
addresses, and what its result is good for: its pages can be mapped in any order. -/
namespace BorealOS.Memory

open Execution Paging Machine

def cursor (start : Word) (k : Nat) : Word := start + BitVec.ofNat 64 k * Architecture.pageSize

theorem cursor_zero (start : Word) : cursor start 0 = start := by simp [cursor]

theorem cursor_succ (start : Word) (k : Nat) : cursor start (k + 1) = cursor start k + Architecture.pageSize := by
  rw [cursor,BitVec.ofNat_add,BitVec.add_mul,← BitVec.add_assoc]
  simp [cursor]

theorem cursor_toNat {start : Word} {k : Nat} (fits : start.toNat + 4096 * k < 2^64) :
    (cursor start k).toNat = start.toNat + 4096 * k := by
  rw [cursor,BitVec.toNat_add,BitVec.toNat_mul,BitVec.toNat_ofNat,Architecture.pageSize_toNat]
  omega

section Search
variable {machine : Machine} {state : State} {start stop pageCount : Word}

/-- The pages that the search takes for free, by their distance from `start`. -/
def unmapped (machine : Machine) (state : State) (start : Word) (k : Nat) : Bool := !isMapped machine state (cursor start k)

def pagesBelow (start stop : Word) : Nat := (stop.toNat - start.toNat) / 4096

theorem cursor_toNat_of_le {k : Nat} (bound : k ≤ pagesBelow start stop) : (cursor start k).toNat = start.toNat + 4096 * k := by
  have first := start.isLt
  have last := stop.isLt
  unfold pagesBelow at bound
  exact cursor_toNat (by omega)

theorem cursor_lt_iff (startAligned : start.toNat % 4096 = 0) (stopAligned : stop.toNat % 4096 = 0) {k : Nat}
    (bound : k ≤ pagesBelow start stop) : cursor start k < stop ↔ k < pagesBelow start stop := by
  rw [BitVec.lt_def,cursor_toNat_of_le bound]
  unfold pagesBelow at *
  omega

theorem rangeStart_eq {k : Nat} (counted : pageCount.toNat ≤ k + 1) (positive : 0 < pageCount.toNat)
    (bound : k < pagesBelow start stop) :
    cursor start k - (pageCount - 1#64) * Architecture.pageSize = cursor start (k + 1 - pageCount.toNat) := by
  have last := stop.isLt
  have less : (pageCount - 1#64).toNat = pageCount.toNat - 1 := BitVec.toNat_sub_of_le positive
  have inside : k + 1 - pageCount.toNat ≤ pagesBelow start stop := by omega
  have product : ((pageCount - 1#64) * Architecture.pageSize).toNat = 4096 * (pageCount.toNat - 1) := by
    unfold pagesBelow at bound
    rw [BitVec.toNat_mul,less,Architecture.pageSize_toNat]
    omega
  have below : (pageCount - 1#64) * Architecture.pageSize ≤ cursor start k := by
    rw [BitVec.le_def,product,cursor_toNat_of_le (Nat.le_of_lt bound)]
    omega
  apply BitVec.eq_of_toNat_eq
  rw [BitVec.toNat_sub_of_le below,product,cursor_toNat_of_le (Nat.le_of_lt bound),cursor_toNat_of_le inside]
  omega

theorem rangeStop_eq (start pageCount : Word) (k : Nat) :
    cursor start k + pageCount * Architecture.pageSize = cursor start (k + pageCount.toNat) := by
  simp only [cursor,BitVec.ofNat_add,BitVec.add_mul,BitVec.add_assoc,BitVec.ofNat_toNat,BitVec.setWidth_eq]

/-- The loop is the first-fit pass over the pages, with the start of the run left out. -/
theorem findAvailableFrom_eq (startAligned : start.toNat % 4096 = 0) (stopAligned : stop.toNat % 4096 = 0)
    (remaining place first length : Nat) (whole : place + remaining = pagesBelow start stop)
    (scanning : FirstFit.Scanning (unmapped machine state start) pageCount.toNat place first length) :
    let found := FirstFit.scan (unmapped machine state start) pageCount.toNat remaining place first length
    findAvailableFrom machine state stop pageCount (remaining + 1) (cursor start place) (BitVec.ofNat 64 length) =
      some (if found.2 = pageCount.toNat then .ok ⟨cursor start found.1,cursor start (found.1 + pageCount.toNat)⟩
        else .error .noVirtualAddressRange) := by
  induction remaining generalizing place first length with
  | zero =>
    have ended : ¬ cursor start place < stop := by
      rw [cursor_lt_iff startAligned stopAligned (by omega)]
      omega
    intro found
    have short : found.2 ≠ pageCount.toNat := Nat.ne_of_lt scanning.short
    rw [findAvailableFrom,if_neg ended,if_neg short]
  | succ remaining ih =>
    have more : cursor start place < stop := by
      rw [cursor_lt_iff startAligned stopAligned (by omega)]
      omega
    rw [findAvailableFrom,if_pos more,FirstFit.scan]
    cases here : unmapped machine state start place with
    | false =>
      have mapped : isMapped machine state (cursor start place) = true := by simpa [unmapped] using here
      simp only [mapped,Bool.not_true,Bool.false_eq_true,if_false]
      rw [← cursor_succ]
      exact ih (place + 1) first 0 (by omega) (scanning.taken_step here)
    | true =>
      have free : isMapped machine state (cursor start place) = false := by simpa [unmapped] using here
      have counted : BitVec.ofNat 64 length + 1#64 = BitVec.ofNat 64 (length + 1) := (BitVec.ofNat_add _ _).symm
      have enough : BitVec.ofNat 64 (length + 1) = pageCount ↔ length + 1 = pageCount.toNat := by
        have short := scanning.short
        have small := pageCount.isLt
        rw [← BitVec.toNat_inj,BitVec.toNat_ofNat]
        omega
      simp only [free,Bool.not_false,if_true,counted,enough]
      -- the source has no memory of where the run began: it steps back from the cursor
      split
      · rename_i long
        have fits := scanning.fits
        have begun : place - length = place + 1 - pageCount.toNat := by omega
        rw [rangeStart_eq (by omega) (by omega) (by omega : place < pagesBelow start stop),rangeStop_eq,scanning.first_eq,begun]
      · rename_i short
        rw [← cursor_succ]
        exact ih (place + 1) _ (length + 1) (by omega) (scanning.free_step here short)

/-- The `pageCount` pages from `address` on are unmapped and end at or below `stop`, and
`address` is some pages away from `start`. -/
structure FitsAt (machine : Machine) (state : State) (start stop pageCount : Word) (address : Nat) : Prop where
  aligned : ∃ k, address = start.toNat + 4096 * k
  below : address + 4096 * pageCount.toNat ≤ stop.toNat
  free : ∀ j < pageCount.toNat, machine.leafEntry state (BitVec.ofNat 64 (address + 4096 * j)) = none

def NoZeroFrame (machine : Machine) (state : State) : Prop :=
  ∀ vaddr entry, machine.leafEntry state vaddr = some entry → entry &&& pointerMask ≠ 0#64

theorem unmapped_iff (flat : machine.Flat state) (nonzero : NoZeroFrame machine state) (start : Word) (k : Nat) :
    unmapped machine state start k = true ↔ machine.leafEntry state (cursor start k) = none := by
  have mapped := isMapped_iff flat (cursor start k)
  cases read : machine.leafEntry state (cursor start k) with
  | none => simpa [unmapped,read] using mapped
  | some entry => simpa [unmapped,read,nonzero _ entry read] using mapped

theorem cursor_add {k j : Nat} (fits : start.toNat + 4096 * (k + j) < 2^64) :
    BitVec.ofNat 64 (start.toNat + 4096 * k + 4096 * j) = cursor start (k + j) := by
  apply BitVec.eq_of_toNat_eq
  rw [cursor_toNat fits,BitVec.toNat_ofNat]
  omega

theorem fitsAt_iff (flat : machine.Flat state) (nonzero : NoZeroFrame machine state) (startAligned : start.toNat % 4096 = 0)
    (stopAligned : stop.toNat % 4096 = 0) (positive : 0 < pageCount.toNat) (k : Nat) :
    FitsAt machine state start stop pageCount (start.toNat + 4096 * k) ↔
      k + pageCount.toNat ≤ pagesBelow start stop ∧ FirstFit.Run (unmapped machine state start) k pageCount.toNat := by
  have last := stop.isLt
  have bounds : start.toNat + 4096 * k + 4096 * pageCount.toNat ≤ stop.toNat ↔
      k + pageCount.toNat ≤ pagesBelow start stop := by
    unfold pagesBelow
    omega
  constructor
  · intro fits
    refine ⟨bounds.mp fits.below,?_⟩
    intro place low high
    have page := fits.free (place - k) (by omega)
    have inside := fits.below
    rw [cursor_add (by omega),Nat.add_sub_cancel' low] at page
    exact (unmapped_iff flat nonzero start place).mpr page
  · rintro ⟨inside,run⟩
    have below := bounds.mpr inside
    refine ⟨⟨k,rfl⟩,below,?_⟩
    intro j bound
    rw [cursor_add (by omega)]
    exact (unmapped_iff flat nonzero start (k + j)).mp (run (k + j) (by omega) (by omega))

end Search

section Use
variable {machine final : Machine} {state : State}

def mapAll (order : List (Word × Word × List Flag)) : List Request :=
  order.map fun page => .map page.1 page.2.1 page.2.2

/-- Different unmapped pages can be mapped one after the other: none of them is found
mapped. -/
theorem mapAll_never_alreadyMapped (wf : machine.WellFormed state) (flat : machine.Flat state)
    (order : List (Word × Word × List Flag)) (distinct : (order.map fun page => pageOf page.1).Nodup)
    (free : ∀ page ∈ order, machine.leafEntry state page.1 = none) (stopped : Machine) :
    runAll (Request.perform state) (mapAll order) machine ≠ .error .alreadyMapped stopped := by
  induction order generalizing machine with
  | nil => nofun
  | cons page order ih =>
    obtain ⟨apart,distinct⟩ := List.nodup_cons.mp distinct
    intro error
    have smooth := flat.smooth page.1
    cases made : (Request.map page.1 page.2.1 page.2.2).perform state machine with
    | ok value next =>
      have leaves := (leafEntry_mapPage wf smooth made).2
      have edited := (Request.map page.1 page.2.1 page.2.2).edited wf smooth made
      refine ih (Edited.wellFormed wf edited) (Edited.preserves wf (fun _ _ wf edit => edit.flat wf) edited flat) distinct ?_ ?_
      · intro other member
        have different : pageOf other.1 ≠ pageOf page.1 := fun same =>
          apart (List.mem_map.mpr ⟨other,member,same⟩)
        rw [leaves,if_neg different]
        exact free other (List.mem_cons_of_mem _ member)
      · rw [← runAll_cons_of_ok _ made]
        exact error
    | error panic halted =>
      have run : runAll (Request.perform state) (mapAll (page::order)) machine = .error panic halted := bind_of_error made
      rw [run] at error
      cases error
      exact mapped_of_alreadyMapped wf smooth made (free page List.mem_cons_self)

theorem pageOf_inj_of_half {low high : Nat} (half : high ≤ 2^47 ∨ 2^64 - 2^47 ≤ low) {first second : Word}
    (firstInside : low ≤ first.toNat ∧ first.toNat < high) (secondInside : low ≤ second.toNat ∧ second.toNat < high)
    (firstAligned : first.toNat % 4096 = 0) (secondAligned : second.toNat % 4096 = 0)
    (same : pageOf first = pageOf second) : first = second := by
  have numbers := congrArg BitVec.toNat same
  have firstBound := first.isLt
  have secondBound := second.isLt
  rw [pageOf_toNat,pageOf_toNat] at numbers
  apply BitVec.eq_of_toNat_eq
  omega

def rangePages (first count : Nat) : List Word := (List.range count).map fun j => BitVec.ofNat 64 (first + 4096 * j)

variable {start stop pageCount : Word}

theorem FitsAt.page_toNat {address : Nat} (fits : FitsAt machine state start stop pageCount address) {j : Nat}
    (bound : j < pageCount.toNat) : (BitVec.ofNat 64 (address + 4096 * j)).toNat = address + 4096 * j := by
  have below := fits.below
  have last := stop.isLt
  rw [BitVec.toNat_ofNat]
  omega

theorem FitsAt.nodup_pages {address : Nat} (fits : FitsAt machine state start stop pageCount address)
    (startAligned : start.toNat % 4096 = 0) (half : stop.toNat ≤ 2^47 ∨ 2^64 - 2^47 ≤ start.toNat) :
    ((rangePages address pageCount.toNat).map pageOf).Nodup := by
  obtain ⟨k,rfl⟩ := fits.aligned
  have below := fits.below
  rw [rangePages,List.map_map]
  apply List.Nodup.map_on _ List.nodup_range
  intro first firstBound second secondBound same
  rw [Function.comp_apply,Function.comp_apply] at same
  rw [List.mem_range] at firstBound secondBound
  have firstPage := fits.page_toNat firstBound
  have secondPage := fits.page_toNat secondBound
  have equal := pageOf_inj_of_half half (by omega) (by omega) (by omega) (by omega) same
  rw [equal] at firstPage
  omega

theorem FitsAt.mapAll_never_alreadyMapped {address : Nat} (fits : FitsAt machine state start stop pageCount address)
    (wf : machine.WellFormed state) (flat : machine.Flat state) (startAligned : start.toNat % 4096 = 0)
    (half : stop.toNat ≤ 2^47 ∨ 2^64 - 2^47 ≤ start.toNat) {order : List (Word × Word × List Flag)}
    (pages : (order.map Prod.fst).Perm (rangePages address pageCount.toNat)) (stopped : Machine) :
    runAll (Request.perform state) (mapAll order) machine ≠ .error .alreadyMapped stopped := by
  apply Memory.mapAll_never_alreadyMapped wf flat
  · have distinct := (pages.map pageOf).nodup_iff.mpr (fits.nodup_pages startAligned half)
    rwa [List.map_map] at distinct
  · intro page member
    have inside : page.1 ∈ rangePages address pageCount.toNat := pages.mem_iff.mp (List.mem_map_of_mem member)
    obtain ⟨j,bound,same⟩ := List.mem_map.mp inside
    rw [← same]
    exact fits.free j (List.mem_range.mp bound)

end Use

structure IsFirstFit (machine : Machine) (state : State) (start stop pageCount : Word) (range : AvailableVirtualAddressRange) :
    Prop where
  fits : FitsAt machine state start stop pageCount range.start.toNat
  least : ∀ address, FitsAt machine state start stop pageCount address → range.start.toNat ≤ address
  length : range.stop.toNat = range.start.toNat + 4096 * pageCount.toNat

section Result
variable {machine : Machine} {state : State} {start stop pageCount : Word}

theorem findAvailableVirtualAddressRange_outcome (flat : machine.Flat state) (nonzero : NoZeroFrame machine state)
    (startAligned : start.toNat % 4096 = 0) (stopAligned : stop.toNat % 4096 = 0) (positive : 0 < pageCount.toNat) :
    (∃ range, findAvailableVirtualAddressRange (pagesBelow start stop + 1) machine state start stop pageCount =
      some (.ok range) ∧ IsFirstFit machine state start stop pageCount range) ∨
    (findAvailableVirtualAddressRange (pagesBelow start stop + 1) machine state start stop pageCount =
      some (.error .noVirtualAddressRange) ∧ ∀ address, ¬ FitsAt machine state start stop pageCount address) := by
  have fits := fitsAt_iff flat nonzero startAligned stopAligned positive
  have loop := findAvailableFrom_eq startAligned stopAligned (pagesBelow start stop) 0 0 0 (Nat.zero_add _)
    (FirstFit.Scanning.initial (unmapped machine state start) positive)
  rw [cursor_zero] at loop
  unfold findAvailableVirtualAddressRange
  rw [loop]
  have searched := FirstFit.scan_spec (unmapped machine state start) positive (pagesBelow start stop)
  generalize FirstFit.scan (unmapped machine state start) pageCount.toNat (pagesBelow start stop) 0 0 0 = found at searched ⊢
  obtain ⟨enough,first⟩ | ⟨short,none⟩ := searched
  · refine Or.inl ⟨_,congrArg some (if_pos enough),?_⟩
    have inside := first.inside
    have startsAt : (cursor start found.1).toNat = start.toNat + 4096 * found.1 :=
      cursor_toNat_of_le (by omega : found.1 ≤ pagesBelow start stop)
    have stopsAt := cursor_toNat_of_le inside
    refine ⟨?_,?_,?_⟩
    · rw [startsAt]
      exact (fits _).mpr ⟨inside,first.run⟩
    · intro address here
      obtain ⟨k,rfl⟩ := here.aligned
      have notBefore : ¬ k < found.1 := fun earlier => first.least k earlier ((fits k).mp here).2
      rw [startsAt]
      omega
    · rw [startsAt,stopsAt]
      omega
  · refine Or.inr ⟨congrArg some (if_neg (Nat.ne_of_lt short)),?_⟩
    intro address here
    obtain ⟨k,rfl⟩ := here.aligned
    obtain ⟨inside,run⟩ := (fits k).mp here
    exact none k inside run

/-- The search is first fit in every range of one canonical half, its cursor does not wrap
on the way, and the pages of its result can be mapped in every order. -/
theorem findAvailableVirtualAddressRange_first_fit (wf : machine.WellFormed state) (flat : machine.Flat state)
    (nonzero : NoZeroFrame machine state) (startAligned : start.toNat % 4096 = 0) (stopAligned : stop.toNat % 4096 = 0)
    (half : stop.toNat ≤ 2^47 ∨ 2^64 - 2^47 ≤ start.toNat) (positive : 0 < pageCount.toNat) :
    (∀ k ≤ pagesBelow start stop, (cursor start k).toNat = start.toNat + 4096 * k) ∧
    ((∃ range, findAvailableVirtualAddressRange (pagesBelow start stop + 1) machine state start stop pageCount =
        some (.ok range) ∧ IsFirstFit machine state start stop pageCount range ∧
        ∀ order : List (Word × Word × List Flag),
          (order.map Prod.fst).Perm (rangePages range.start.toNat pageCount.toNat) →
          ∀ stopped, runAll (Request.perform state) (mapAll order) machine ≠ .error .alreadyMapped stopped) ∨
      (findAvailableVirtualAddressRange (pagesBelow start stop + 1) machine state start stop pageCount =
        some (.error .noVirtualAddressRange) ∧ ∀ address, ¬ FitsAt machine state start stop pageCount address)) ∧
    ∀ rounds, findAvailableVirtualAddressRangeKernel rounds machine state pageCount =
      findAvailableVirtualAddressRange rounds machine state 0xFFFFFFFF80000000#64 0xFFFFFFFFFFFFF000#64 pageCount := by
  refine ⟨fun k bound => cursor_toNat_of_le bound,?_,fun rounds => rfl⟩
  obtain ⟨range,found,first⟩ | failed :=
    findAvailableVirtualAddressRange_outcome flat nonzero startAligned stopAligned positive
  · refine Or.inl ⟨range,found,first,?_⟩
    intro order pages stopped
    exact first.fits.mapAll_never_alreadyMapped wf flat startAligned half pages stopped
  · exact Or.inr failed

end Result

/-- The second page of the range is mapped already, so the first run of two pages begins
behind it. -/
theorem findAvailableVirtualAddressRange_first_fit_behindMappedPage : ∃ machine range,
    runAll (Request.perform topAtFrameOne) [.map 0x401000 0x7000 []] emptyMachine = .ok () machine ∧
    findAvailableVirtualAddressRange 257 machine topAtFrameOne 0x400000 0x500000 2 = some (.ok range) ∧
    range.start.toNat = 0x402000 ∧ range.stop.toNat = 0x404000 ∧
    ∀ stopped, runAll (Request.perform topAtFrameOne)
      (mapAll [(0x403000,0x7000,[.readWrite]),(0x402000,0x6000,[])]) machine ≠ .error .alreadyMapped stopped := by
  have returns : ¬ Stops (mapPage topAtFrameOne 0x401000 0x7000 (Flag.union []) emptyMachine) := by
    rw [mapPage_stops_iff emptyMachine_regular.wellFormed (emptyMachine_regular.flat.smooth _) emptyMachine_regular.zero_not_free]
    decide
  obtain ⟨_,machine,ok⟩ := (not_stops_iff _).mp returns
  have ended : runAll (Request.perform topAtFrameOne) [.map 0x401000 0x7000 []] emptyMachine = .ok () machine :=
    (runAll_cons_ok _ _ _ _ _).mpr ⟨machine,ok,rfl⟩
  obtain ⟨represents,regular⟩ := (emptyMachine.represents_pageMap topAtFrameOne).run emptyMachine_regular
    (by simp [Request.Bounded]) ended
  have leaves : ∀ vaddr, machine.leafEntry topAtFrameOne vaddr =
      if pageOf vaddr = pageOf 0x401000 then some (leafWord 0x7000 (Flag.union [])) else none := by
    intro vaddr
    rw [represents.leaves,List.foldl_cons,List.foldl_nil,PageMap.apply,Function.update_apply]
    split
    · rfl
    · rw [Machine.pageMap,emptyMachine_leafEntry]
      rfl
  have nonzero : NoZeroFrame machine topAtFrameOne := by
    intro vaddr entry read
    rw [leaves,Option.ite_none_right_eq_some] at read
    rw [← Option.some.inj read.2]
    decide
  have fits : FitsAt machine topAtFrameOne 0x400000 0x500000 2 0x402000 := by
    refine ⟨⟨2,by decide⟩,by decide,fun j bound => ?_⟩
    have places : ∀ j < (2 : Word).toNat, pageOf (BitVec.ofNat 64 (0x402000 + 4096 * j)) ≠ pageOf 0x401000 := by decide
    rw [leaves,if_neg (places j bound)]
  have mapped : machine.leafEntry topAtFrameOne 0x401000 ≠ none := by
    rw [leaves,if_pos rfl]
    exact Option.some_ne_none _
  obtain ⟨_,⟨range,found,first,maps⟩ | ⟨_,none⟩,_⟩ :=
    @findAvailableVirtualAddressRange_first_fit machine topAtFrameOne 0x400000 0x500000 2
      regular.wellFormed regular.flat nonzero (by decide) (by decide) (Or.inl (by decide)) (by decide)
  · have low := first.least _ fits
    have free := first.fits.free
    obtain ⟨k,aligned⟩ := first.fits.aligned
    have start : (0x400000 : Word).toNat = 0x400000 := by decide
    have here : range.start.toNat = 0x402000 := by
      obtain rfl | rfl | two : k = 0 ∨ k = 1 ∨ 2 ≤ k := by omega
      · have second := free 1 (by decide)
        rw [aligned] at second
        exact absurd second mapped
      · have first := free 0 (by decide)
        rw [aligned] at first
        exact absurd first mapped
      · omega
    refine ⟨machine,range,ended,found,here,?_,?_⟩
    · rw [first.length,here]
      rfl
    · apply maps
      rw [here]
      exact .swap _ _ _
  · exact absurd fits (none _)

end BorealOS.Memory
