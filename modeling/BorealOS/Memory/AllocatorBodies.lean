import BorealOS.Memory.AllocatorRuns
import BorealOS.Threading.Sections

/-! `AllocatePages` and `FreePages` step by step, each access to a bitmap or to the
counter a step of its own, as they run under the lock of the manager. The marking of a
page and the change of the counter are each a load and a later store. -/
namespace BorealOS.Memory.PhysicalMemoryManager

open PackedBitmap Threading

inductive AllocatorCall where
  | allocatePages (pageCount : Word)
  | freePages (start pageCount : Word)
deriving DecidableEq, Repr

inductive AllocatorAnswer where
  | address (address : Word)
  | freed
deriving DecidableEq, Repr

/-- Where a body is. `remaining` counts the pages that its loop has still to visit from
`page` on. -/
inductive AllocatorPoint where
  | allocate (pageCount : Word)
  | testReserved (pageCount : Word) (remaining page runStart runLength : Nat)
  | testAllocated (pageCount : Word) (remaining page runStart runLength : Nat)
  | searched (pageCount : Word) (runStart runLength : Nat)
  | loadByte (pageCount : Word) (runStart remaining page : Nat)
  | storeByte (pageCount : Word) (runStart remaining page : Nat) (byte : BitVec 8)
  | loadUsable (pageCount : Word) (runStart : Nat)
  | storeUsable (runStart : Nat) (usableFrames : Word)
  | free (start pageCount : Word)
  | freeReserved (pageCount : Word) (remaining page : Nat)
  | freeAllocated (pageCount : Word) (remaining page : Nat)
  | freeLoad (pageCount : Word) (remaining page : Nat)
  | freeStore (pageCount : Word) (remaining page : Nat) (byte : BitVec 8)
  | loadFreed (pageCount : Word)
  | storeFreed (usableFrames : Word)
  | done (answer : AllocatorAnswer)
  | panicked (panic : Panic)
deriving DecidableEq, Repr

def storeAllocatable (pmm : PhysicalMemoryManager) (page : Nat) (byte : BitVec 8) : PhysicalMemoryManager :=
  { pmm with allocatableBitmap := { pmm.allocatableBitmap with
      bytes := Function.update pmm.allocatableBitmap.bytes (page / 8) byte } }

def pageAddress (page : Nat) : Word := BitVec.ofNat 64 page * Architecture.pageSize

/-- A call that panics stays where it is, with the lock held. -/
def AllocatorPoint.advance (point : AllocatorPoint) (pmm : PhysicalMemoryManager) :
    Option (AllocatorPoint × PhysicalMemoryManager) :=
  match point with
  | .allocate pageCount =>
    some (if pageCount = 0 then .done (.address 0) else .testReserved pageCount pmm.frameCount.toNat 0 0 0,pmm)
  | .testReserved pageCount 0 _ runStart runLength => some (.searched pageCount runStart runLength,pmm)
  | .testReserved pageCount (remaining + 1) page runStart runLength =>
    match pmm.isPageReserved page with
    | .error panic => some (.panicked panic,pmm)
    | .ok true => some (.testReserved pageCount remaining (page + 1) runStart 0,pmm)
    | .ok false => some (.testAllocated pageCount remaining page runStart runLength,pmm)
  | .testAllocated pageCount remaining page runStart runLength =>
    match pmm.isPageAllocated page with
    | .error panic => some (.panicked panic,pmm)
    | .ok true => some (.testReserved pageCount remaining (page + 1) runStart 0,pmm)
    | .ok false =>
      let runStart := if runLength = 0 then page else runStart
      some (if runLength + 1 = pageCount.toNat then .searched pageCount runStart (runLength + 1)
        else .testReserved pageCount remaining (page + 1) runStart (runLength + 1),pmm)
  | .searched pageCount runStart runLength =>
    some (if runLength < pageCount.toNat then .done (.address 0) else .loadByte pageCount runStart pageCount.toNat runStart,pmm)
  | .loadByte pageCount runStart 0 _ => some (.loadUsable pageCount runStart,pmm)
  | .loadByte pageCount runStart (remaining + 1) page =>
    some (.storeByte pageCount runStart remaining page (pmm.allocatableBitmap.bytes (page / 8)),pmm)
  | .storeByte pageCount runStart remaining page byte =>
    some (.loadByte pageCount runStart remaining (page + 1),pmm.storeAllocatable page (byte ||| mask page))
  | .loadUsable pageCount runStart => some (.storeUsable runStart (pmm.usableFrames - pageCount),pmm)
  | .storeUsable runStart usableFrames =>
    some (.done (.address (pageAddress runStart)),{ pmm with usableFrames := usableFrames })
  | .free start pageCount =>
    some (if start % Architecture.pageSize ≠ 0 then .panicked .invalidPageStart
      else
        let startPage := start / Architecture.pageSize
        let endPage := startPage + pageCount
        .freeReserved pageCount (endPage.toNat - startPage.toNat) startPage.toNat,pmm)
  | .freeReserved pageCount 0 _ => some (.loadFreed pageCount,pmm)
  | .freeReserved pageCount (remaining + 1) page =>
    if pmm.bitmapSize.toNat ≤ page / 8 then some (.panicked .pageIndexOutOfBounds,pmm)
    else
      match pmm.isPageReserved page with
      | .error panic => some (.panicked panic,pmm)
      | .ok true => some (.panicked .freeReservedPage,pmm)
      | .ok false => some (.freeAllocated pageCount remaining page,pmm)
  | .freeAllocated pageCount remaining page =>
    match pmm.isPageAllocated page with
    | .error panic => some (.panicked panic,pmm)
    | .ok true => some (.freeLoad pageCount remaining page,pmm)
    | .ok false => some (.panicked .freeUnallocatedPage,pmm)
  | .freeLoad pageCount remaining page =>
    some (.freeStore pageCount remaining page (pmm.allocatableBitmap.bytes (page / 8)),pmm)
  | .freeStore pageCount remaining page byte =>
    some (.freeReserved pageCount remaining (page + 1),pmm.storeAllocatable page (byte &&& ~~~ mask page))
  | .loadFreed pageCount => some (.storeFreed (pmm.usableFrames + pageCount),pmm)
  | .storeFreed usableFrames => some (.done .freed,{ pmm with usableFrames := usableFrames })
  | .done _ => none
  | .panicked _ => none

def allocatorBody : Exclusive.Body AllocatorCall AllocatorPoint PhysicalMemoryManager AllocatorAnswer where
  start
    | .allocatePages pageCount => .allocate pageCount
    | .freePages start pageCount => .free start pageCount
  advance := AllocatorPoint.advance
  answer
    | .done answer => some answer
    | _ => none

/-- The two functions as they are without concurrency. -/
def performCall (call : AllocatorCall) : PhysicalMemoryManager → EStateM.Result Panic PhysicalMemoryManager AllocatorAnswer :=
  match call with
  | .allocatePages pageCount => AllocatorAnswer.address <$> allocatePages pageCount
  | .freePages start pageCount => (fun _ => AllocatorAnswer.freed) <$> freePages start pageCount

/-! What a body has still to do. -/

def searchEnds (pageCount : Word) (pmm : PhysicalMemoryManager) :
    Except Panic (Nat × Nat) → EStateM.Result Panic PhysicalMemoryManager AllocatorAnswer
  | .error panic => .error panic pmm
  | .ok (runStart,runLength) =>
    if runLength < pageCount.toNat then .ok (.address 0) pmm
    else .ok (.address (pageAddress runStart)) (pmm.take runStart pageCount)

def freeEnds (pageCount : Word) :
    EStateM.Result Panic PhysicalMemoryManager Unit → EStateM.Result Panic PhysicalMemoryManager AllocatorAnswer
  | .error panic pmm => .error panic pmm
  | .ok _ pmm => .ok .freed { pmm with usableFrames := pmm.usableFrames + pageCount }

def marked (pmm : PhysicalMemoryManager) (page count : Nat) : PhysicalMemoryManager :=
  { pmm with allocatableBitmap := { pmm.allocatableBitmap with
      bytes := (List.range' page count).foldl setBit pmm.allocatableBitmap.bytes } }

def AllocatorPoint.rest (point : AllocatorPoint) (pmm : PhysicalMemoryManager) :
    EStateM.Result Panic PhysicalMemoryManager AllocatorAnswer :=
  match point with
  | .allocate pageCount => performCall (.allocatePages pageCount) pmm
  | .testReserved pageCount remaining page runStart runLength =>
    searchEnds pageCount pmm (pmm.findRun pageCount.toNat remaining page runStart runLength)
  | .testAllocated pageCount remaining page runStart runLength =>
    searchEnds pageCount pmm (do
      if !(← pmm.isPageAllocated page) then
        let runStart := if runLength = 0 then page else runStart
        if runLength + 1 = pageCount.toNat then pure (runStart,runLength + 1)
        else findRun pmm pageCount.toNat remaining (page + 1) runStart (runLength + 1)
      else findRun pmm pageCount.toNat remaining (page + 1) runStart 0)
  | .searched pageCount runStart runLength => searchEnds pageCount pmm (.ok (runStart,runLength))
  | .loadByte pageCount runStart remaining page =>
    .ok (.address (pageAddress runStart)) { pmm.marked page remaining with usableFrames := pmm.usableFrames - pageCount }
  | .storeByte pageCount runStart remaining page byte =>
    .ok (.address (pageAddress runStart)) { (pmm.storeAllocatable page (byte ||| mask page)).marked (page + 1) remaining with
      usableFrames := pmm.usableFrames - pageCount }
  | .loadUsable pageCount runStart =>
    .ok (.address (pageAddress runStart)) { pmm with usableFrames := pmm.usableFrames - pageCount }
  | .storeUsable runStart usableFrames => .ok (.address (pageAddress runStart)) { pmm with usableFrames := usableFrames }
  | .free start pageCount => performCall (.freePages start pageCount) pmm
  | .freeReserved pageCount remaining page => freeEnds pageCount (freeLoop remaining page pmm)
  | .freeAllocated pageCount remaining page =>
    match pmm.isPageAllocated page with
    | .error panic => .error panic pmm
    | .ok true =>
      freeEnds pageCount (freeLoop remaining (page + 1)
        (pmm.storeAllocatable page (pmm.allocatableBitmap.bytes (page / 8) &&& ~~~ mask page)))
    | .ok false => .error .freeUnallocatedPage pmm
  | .freeLoad pageCount remaining page =>
    freeEnds pageCount (freeLoop remaining (page + 1)
      (pmm.storeAllocatable page (pmm.allocatableBitmap.bytes (page / 8) &&& ~~~ mask page)))
  | .freeStore pageCount remaining page byte =>
    freeEnds pageCount (freeLoop remaining (page + 1) (pmm.storeAllocatable page (byte &&& ~~~ mask page)))
  | .loadFreed pageCount => .ok .freed { pmm with usableFrames := pmm.usableFrames + pageCount }
  | .storeFreed usableFrames => .ok .freed { pmm with usableFrames := usableFrames }
  | .done answer => .ok answer pmm
  | .panicked panic => .error panic pmm

/-- A bound on the steps that a body has left. -/
def AllocatorPoint.left (point : AllocatorPoint) (pmm : PhysicalMemoryManager) : Nat :=
  match point with
  | .allocate pageCount => 2 * pmm.frameCount.toNat + 2 * pageCount.toNat + 6
  | .testReserved pageCount remaining _ _ _ => 2 * remaining + 2 * pageCount.toNat + 5
  | .testAllocated pageCount remaining _ _ _ => 2 * remaining + 2 * pageCount.toNat + 6
  | .searched pageCount _ _ => 2 * pageCount.toNat + 4
  | .loadByte _ _ remaining _ => 2 * remaining + 3
  | .storeByte _ _ remaining _ _ => 2 * remaining + 4
  | .loadUsable _ _ => 2
  | .storeUsable _ _ => 1
  | .free start pageCount =>
    4 * ((start / Architecture.pageSize + pageCount).toNat - (start / Architecture.pageSize).toNat) + 4
  | .freeReserved _ remaining _ => 4 * remaining + 3
  | .freeAllocated _ remaining _ => 4 * remaining + 6
  | .freeLoad _ remaining _ => 4 * remaining + 5
  | .freeStore _ remaining _ _ => 4 * remaining + 4
  | .loadFreed _ => 2
  | .storeFreed _ => 1
  | .done _ => 0
  | .panicked _ => 0

end BorealOS.Memory.PhysicalMemoryManager
