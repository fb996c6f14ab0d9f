import BorealOS.Memory.AllocatorRuns
import BorealOS.Utility.Math

/-! `PhysicalMemoryManager::Initialize`: from the boot loader's memory map to
the two bitmaps. The bitmaps are placed in the first region with room for both,
so the bytes they start from are whatever physical memory held there. -/
namespace BorealOS.Memory

open PackedBitmap Utility.Math

structure MemmapEntry where
  base : Word
  length : Word
  type : Word
deriving DecidableEq

def memmapUsable : Word := 0

structure Region where
  addr : Word
  length : Word

namespace PhysicalMemoryManager

def collectRegion (collected : List Region × Word) (entry : MemmapEntry) : List Region × Word :=
  if entry.type ≠ memmapUsable then collected
  else if entry.base + entry.length ≤ 1 * Constants.miB then collected
  else (collected.1 ++ [⟨entry.base,entry.length⟩],
    if collected.2 < entry.base + entry.length then entry.base + entry.length else collected.2)

def collectRegions (memmap : List MemmapEntry) : List Region × Word := memmap.foldl collectRegion ([],0)

def bitmapSizeFor (endAddr : Word) : Word :=
  alignUp ((endAddr / Architecture.pageSize + 7) / 8) Architecture.pageSize

def interiorSize (region : Region) : Word :=
  let start := alignUp region.addr Architecture.pageSize
  let stop := alignDown (region.addr + region.length) Architecture.pageSize
  if start < stop then stop - start else 0

/-- The loop that places the bitmaps. The region that holds them is shortened in
place and the loop ends there. -/
def placeBitmaps (required : Word) : List Region → Option (Word × List Region)
  | [] => none
  | region :: rest =>
    if required ≤ interiorSize region then
      some (alignUp region.addr Architecture.pageSize,
        ⟨region.addr + required,region.length - required⟩ :: rest)
    else (placeBitmaps required rest).map fun placed => (placed.1,region :: placed.2)

def fillBytes (value : BitVec 8) (count : Nat) (bytes : Nat → BitVec 8) : Nat → BitVec 8 :=
  (List.range count).foldl (fun bytes i => Function.update bytes i value) bytes

/-- `for (addr = start; addr < end; addr += PageSize)`. An address space of 64
bits has `2^52` pages, so a loop that needs more rounds does not end at all. -/
def clearPages : (rounds : Nat) → (addr stop : Word) → (Nat → BitVec 8) → Nat → BitVec 8
  | 0, _, _, bytes => bytes
  | rounds + 1, addr, stop, bytes =>
    if addr < stop then
      clearPages rounds (addr + Architecture.pageSize) stop
        (clearBit bytes (addr / Architecture.pageSize).toNat)
    else bytes

def clearRegion (bytes : Nat → BitVec 8) (region : Region) : Nat → BitVec 8 :=
  clearPages (2^52) (alignUp region.addr Architecture.pageSize)
    (alignDown (region.addr + region.length) Architecture.pageSize) bytes

def reserveFirstMiB (bytes : Nat → BitVec 8) : Nat → BitVec 8 :=
  (List.range (1 * Constants.miB / Architecture.pageSize).toNat).foldl setBit bytes

/-- The step commented `Reserve the 2 bitmaps`. Its end adds a size in bytes to
a page number. -/
def reserveBitmaps (bitmapMemory required : Word) (bytes : Nat → BitVec 8) : Nat → BitVec 8 :=
  let bitmapStart := bitmapMemory / Architecture.pageSize
  let bitmapEnd := alignUp (bitmapStart + required) Architecture.pageSize / Architecture.pageSize
  (List.range' bitmapStart.toNat (bitmapEnd.toNat - bitmapStart.toNat)).foldl setBit bytes

def countUsable (bytes : Nat → BitVec 8) (frameCount : Nat) : Word :=
  (List.range frameCount).foldl
    (fun usable i => if bytes (i / 8) &&& mask i = 0 then usable + 1 else usable) 0

theorem bitmapSizeFor_toNat (endAddr : Word) :
    (bitmapSizeFor endAddr).toNat = ((endAddr.toNat / 4096 + 7) / 8 + 4095) / 4096 * 4096 := by
  have bound := endAddr.isLt
  have frames : ((endAddr / Architecture.pageSize + 7) / 8).toNat = (endAddr.toNat / 4096 + 7) / 8 := by
    simp only [BitVec.toNat_udiv,BitVec.toNat_add,Architecture.pageSize_toNat]
    have seven : (7 : Word).toNat = 7 := by decide
    have eight : (8 : Word).toNat = 8 := by decide
    rw [seven,eight,Nat.mod_eq_of_lt (by omega)]
  rw [bitmapSizeFor,alignUp_page _ (by omega),frames]

theorem frameCount_toNat (endAddr : Word) :
    (bitmapSizeFor endAddr * 8).toNat = 8 * (bitmapSizeFor endAddr).toNat ∧
      (bitmapSizeFor endAddr * 8).toNat ≤ 2^52 := by
  have size := bitmapSizeFor_toNat endAddr
  have bound := endAddr.isLt
  have eight : (8 : Word).toNat = 8 := by decide
  have product : (bitmapSizeFor endAddr * 8).toNat = 8 * (bitmapSizeFor endAddr).toNat := by
    rw [BitVec.toNat_mul,eight,Nat.mod_eq_of_lt (by omega)]
    omega
  omega

/-- Everything `Initialize` does before its self-test. -/
def initializeBitmaps (memmap : Option (List MemmapEntry)) (hhdm : Option Word)
    (memory : Nat → BitVec 8) : Except Panic PhysicalMemoryManager :=
  match memmap with
  | none => throw .memoryMapNotAvailable
  | some memmap =>
    if hhdm.isNone then throw .hhdmNotAvailable
    else
      let (validRegions,endAddr) := collectRegions memmap
      let bitmapSize := bitmapSizeFor endAddr
      let requiredMapStorageSize := bitmapSize * 2
      match placeBitmaps requiredMapStorageSize validRegions with
      | none => throw .noRegionForBitmaps
      | some (bitmapMemory,regions) =>
        if bitmapMemory = 0 then throw .noRegionForBitmaps
        else
          let allocatable := fillBytes 0xFF bitmapSize.toNat fun i => memory (bitmapMemory.toNat + i)
          let reserved := fillBytes 0xFF bitmapSize.toNat fun i =>
            memory (bitmapMemory.toNat + bitmapSize.toNat + i)
          let reserved := regions.foldl clearRegion reserved
          let reserved := reserveFirstMiB reserved
          let reserved := reserveBitmaps bitmapMemory requiredMapStorageSize reserved
          let allocatable := fillBytes 0x00 bitmapSize.toNat allocatable
          pure {
            frameCount := bitmapSize * 8
            usableFrames := countUsable reserved (bitmapSize * 8).toNat
            bitmapSize := bitmapSize
            allocatableBitmap := ⟨bitmapMemory,allocatable⟩
            reservedBitmap := ⟨bitmapMemory + bitmapSize,reserved⟩
            sized := (frameCount_toNat endAddr).1
            addressable := (frameCount_toNat endAddr).2 }

/-- The self-test. Its comparisons of old and new addresses only log. -/
def testAllocationAndFreeing : EStateM Panic PhysicalMemoryManager Bool := do
  let amount : Word := 10
  let pages := amount * Constants.miB / Architecture.pageSize
  let onePage ← allocatePages 1
  let twoPages ← allocatePages 2
  let megabytes ← allocatePages pages
  freePages onePage 1
  freePages twoPages 2
  freePages megabytes pages
  let onePage ← allocatePages 1
  let twoPages ← allocatePages 2
  let megabytes ← allocatePages pages
  freePages onePage 1
  freePages twoPages 2
  freePages megabytes pages
  return true

def initializeManager (memmap : Option (List MemmapEntry)) (hhdm : Option Word)
    (memory : Nat → BitVec 8) : Except Panic PhysicalMemoryManager := do
  let pmm ← initializeBitmaps memmap hhdm memory
  match testAllocationAndFreeing pmm with
  | .ok passed pmm => if passed then pure pmm else throw .failedTestCase
  | .error panic _ => throw panic

end PhysicalMemoryManager

end BorealOS.Memory
