import BorealOS.Kernel
import BorealOS.Library.Execution
import BorealOS.Library.FirstFit
import BorealOS.Library.PackedBitmap

/-! `PhysicalMemoryManager` as the source computes it: two packed bitmaps, a
frame count and a counter of usable frames. The bitmaps are the two byte arrays
behind the source's pointers; loop counters that the source bounds by the frame
count are natural numbers, every other number is a 64-bit word. The spinlock
makes each call one step, so it does not appear. -/
namespace BorealOS.Memory

open PackedBitmap

/-- A bitmap of the manager: the physical address its pointer holds and the
bytes stored from there on. -/
structure Bitmap where
  address : Word
  bytes : Nat → BitVec 8

/-- The manager's fields. Both bitmaps have eight frames to a byte, and a frame
is a page of the 64-bit physical address space; `initializeBitmaps` establishes
the two facts and no later call changes the fields they speak about. -/
structure PhysicalMemoryManager where
  frameCount : Word
  usableFrames : Word
  bitmapSize : Word
  allocatableBitmap : Bitmap
  reservedBitmap : Bitmap
  sized : frameCount.toNat = 8 * bitmapSize.toNat
  addressable : frameCount.toNat ≤ 2^52

namespace PhysicalMemoryManager

def isPageReserved (pmm : PhysicalMemoryManager) (page : Nat) : Except Panic Bool :=
  if pmm.bitmapSize.toNat ≤ page / 8 then throw .pageIndexOutOfBounds
  else pure (pmm.reservedBitmap.bytes (page / 8) &&& mask page != 0)

def isPageAllocated (pmm : PhysicalMemoryManager) (page : Nat) : Except Panic Bool :=
  if pmm.bitmapSize.toNat ≤ page / 8 then throw .pageIndexOutOfBounds
  else pure (pmm.allocatableBitmap.bytes (page / 8) &&& mask page != 0)

/-- The search loop of `AllocatePages` from `page` on, with `remaining` pages
left below the frame count. It ends early when the run is long enough. -/
def findRun (pmm : PhysicalMemoryManager) (pageCount : Nat) :
    (remaining page runStart runLength : Nat) → Except Panic (Nat × Nat)
  | 0, _, runStart, runLength => pure (runStart,runLength)
  | remaining + 1, page, runStart, runLength => do
    if !(← pmm.isPageReserved page) && !(← pmm.isPageAllocated page) then
      let runStart := if runLength = 0 then page else runStart
      if runLength + 1 = pageCount then pure (runStart,runLength + 1)
      else findRun pmm pageCount remaining (page + 1) runStart (runLength + 1)
    else findRun pmm pageCount remaining (page + 1) runStart 0

/-- The pages from `runStart` on get their allocatable bits, and the counter
loses them. -/
def take (pmm : PhysicalMemoryManager) (runStart : Nat) (pageCount : Word) : PhysicalMemoryManager :=
  { pmm with
    allocatableBitmap := { pmm.allocatableBitmap with
      bytes := (List.range' runStart pageCount.toNat).foldl setBit pmm.allocatableBitmap.bytes }
    usableFrames := pmm.usableFrames - pageCount }

def allocatePages (pageCount : Word) : EStateM Panic PhysicalMemoryManager Word := do
  if pageCount = 0 then return 0
  let pmm ← get
  let (runStart,runLength) ←
    MonadExcept.ofExcept (pmm.findRun pageCount.toNat pmm.frameCount.toNat 0 0 0)
  if runLength < pageCount.toNat then return 0
  set (pmm.take runStart pageCount)
  return BitVec.ofNat 64 runStart * Architecture.pageSize

/-- The loop of `FreePages` from `page` on. Each page is checked and cleared
before the next one is looked at, so a panic leaves the earlier pages free. -/
def freeLoop : (remaining page : Nat) → EStateM Panic PhysicalMemoryManager Unit
  | 0, _ => pure ()
  | remaining + 1, page => do
    let pmm ← get
    if pmm.bitmapSize.toNat ≤ page / 8 then throw .pageIndexOutOfBounds
    if ← MonadExcept.ofExcept (pmm.isPageReserved page) then throw .freeReservedPage
    if !(← MonadExcept.ofExcept (pmm.isPageAllocated page)) then throw .freeUnallocatedPage
    set { pmm with allocatableBitmap := { pmm.allocatableBitmap with
      bytes := clearBit pmm.allocatableBitmap.bytes page } }
    freeLoop remaining (page + 1)

/-- `endPage` is computed in 64 bits, so an enormous `pageCount` can make the
loop empty while the counter still grows. -/
def freePages (start pageCount : Word) : EStateM Panic PhysicalMemoryManager Unit := do
  if start % Architecture.pageSize ≠ 0 then throw .invalidPageStart
  let startPage := start / Architecture.pageSize
  let endPage := startPage + pageCount
  freeLoop (endPage.toNat - startPage.toNat) startPage.toNat
  modify fun pmm => { pmm with usableFrames := pmm.usableFrames + pageCount }

end PhysicalMemoryManager

end BorealOS.Memory
