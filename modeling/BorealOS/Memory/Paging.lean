import BorealOS.Memory.PhysicalMemoryManager
import BorealOS.Library.TableTree

/-! `Paging` as the source computes it. Physical memory is a store of frames of
512 words, which the kernel reaches through the boot loader's direct map, so an
access at a physical address plus the direct-map offset is an access to that
frame. Each call holds the state's spinlock and is one step; the translation
caches are not modelled. -/
namespace BorealOS.Memory

open TableTree

abbrev PhysicalMemory := Nat → Fin 512 → Word

instance neZero_entries : NeZero 512 := ⟨by decide⟩

/-- What the paging code works on. `freed` is a history variable: the addresses
handed to `FreePages` so far. No modelled function reads it. -/
structure Machine where
  memory : PhysicalMemory
  pmm : PhysicalMemoryManager
  freed : List Word

abbrev KernelM := EStateM Panic Machine

inductive Flag where
  | present
  | readWrite
  | user
  | writeThrough
  | cacheDisable
  | accessed
  | dirty
  | hugePage
  | global
  | noExecute
deriving DecidableEq, Repr

def Flag.bit : Flag → Word
  | .present => 1 <<< 0
  | .readWrite => 1 <<< 1
  | .user => 1 <<< 2
  | .writeThrough => 1 <<< 3
  | .cacheDisable => 1 <<< 4
  | .accessed => 1 <<< 5
  | .dirty => 1 <<< 6
  | .hugePage => 1 <<< 7
  | .global => 1 <<< 8
  | .noExecute => 1 <<< 63

def Flag.union (flags : List Flag) : Word := flags.foldr (fun flag bits => flag.bit ||| bits) 0

/-- The physical address of a top-level table. -/
structure State where
  pml4 : Word
  aligned : pml4.toNat % 4096 = 0

structure PageTableIndices where
  pml4Index : Fin 512
  pdpIndex : Fin 512
  pdIndex : Fin 512
  ptIndex : Fin 512
  pageOffset : Word

namespace Paging

def pointerMask : Word := 0x000FFFFFFFFFF000

def flagsMask : Word := 0xFFF0000000000FFF

def present (entry : Word) : Bool := entry &&& Flag.present.bit != 0

def huge (entry : Word) : Bool := entry &&& Flag.hugePage.bit != 0

def frameNumber (address : Word) : Nat := address.toNat / 4096

def tableIndex (vaddr : Word) (shift : Nat) : Fin 512 :=
  ⟨((vaddr >>> shift) &&& 0x1FF).toNat,by
    rw [BitVec.toNat_and]
    exact Nat.lt_of_le_of_lt Nat.and_le_right (by decide)⟩

def extractPageTableIndices (vaddr : Word) : PageTableIndices where
  pml4Index := tableIndex vaddr 39
  pdpIndex := tableIndex vaddr 30
  pdIndex := tableIndex vaddr 21
  ptIndex := tableIndex vaddr 12
  pageOffset := vaddr &&& 0xFFF

def readEntry (table : Word) (index : Fin 512) : KernelM Word := do
  return (← get).memory (frameNumber table) index

def writeEntry (table : Word) (index : Fin 512) (entry : Word) : KernelM Unit :=
  modify fun machine => { machine with memory := write machine.memory (frameNumber table) index entry }

def clearTable (table : Word) : KernelM Unit :=
  modify fun machine => { machine with memory := fill machine.memory (frameNumber table) 0 }

def allocatePage : KernelM Word := fun machine =>
  match PhysicalMemoryManager.allocatePages 1 machine.pmm with
  | .ok address pmm => .ok address { machine with pmm := pmm }
  | .error panic pmm => .error panic { machine with pmm := pmm }

def freePage (address : Word) : KernelM Unit := fun machine =>
  match PhysicalMemoryManager.freePages address 1 machine.pmm with
  | .ok _ pmm => .ok () { machine with pmm := pmm, freed := machine.freed ++ [address] }
  | .error panic pmm => .error panic { machine with pmm := pmm, freed := machine.freed ++ [address] }

def isTableEmpty (table : Word) : KernelM Bool := do
  let machine ← get
  return (List.finRange 512).all fun i => !present (machine.memory (frameNumber table) i)

def directoryFlags : Word := Flag.present.bit ||| Flag.readWrite.bit ||| Flag.user.bit

/-- One level of the descent in `MapPage`, which the source writes out for each
of the three directories: a zero entry gets a fresh cleared table. -/
def ensureTable (failure : Panic) (table : Word) (index : Fin 512) : KernelM Word := do
  if (← readEntry table index) = 0 then
    let newTable ← allocatePage
    if newTable = 0 then throw failure
    clearTable newTable
    writeEntry table index (newTable ||| directoryFlags)
  return (← readEntry table index) &&& pointerMask

def mapPage (state : State) (virtualAddress physicalAddress flags : Word) : KernelM Unit := do
  if virtualAddress &&& (Architecture.pageSize - 1) ≠ 0 then throw .virtualAddressNotAligned
  if physicalAddress &&& (Architecture.pageSize - 1) ≠ 0 then throw .physicalAddressNotAligned
  let entryFlags := flags ||| Flag.present.bit
  let indices := extractPageTableIndices virtualAddress
  let pdp ← ensureTable .pdpAllocationFailed state.pml4 indices.pml4Index
  let pd ← ensureTable .pdAllocationFailed pdp indices.pdpIndex
  let pt ← ensureTable .ptAllocationFailed pd indices.pdIndex
  if present (← readEntry pt indices.ptIndex) then throw .alreadyMapped
  writeEntry pt indices.ptIndex ((physicalAddress &&& pointerMask) ||| entryFlags)

/-- One level of the descent in `UnmapPage`. -/
def presentTable (absent : Panic) (table : Word) (index : Fin 512) : KernelM Word := do
  let entry ← readEntry table index
  if !present entry then throw absent
  return entry &&& pointerMask

/-- The end of `UnmapPage`: tables that became empty are freed from the lowest
level upwards, but no table linked from the upper half of the top-level table. -/
def freeEmptyTables (state : State) (indices : PageTableIndices) (pdp pd pt : Word) : KernelM Unit := do
  if ← isTableEmpty pt then
    freePage pt
    writeEntry pd indices.pdIndex 0
    if ← isTableEmpty pd then
      freePage pd
      writeEntry pdp indices.pdpIndex 0
      if (← isTableEmpty pdp) && indices.pml4Index.val < 256 then
        freePage pdp
        writeEntry state.pml4 indices.pml4Index 0

def unmapPage (state : State) (virtualAddress : Word) : KernelM Unit := do
  let indices := extractPageTableIndices virtualAddress
  let pdp ← presentTable .pml4EntryNotPresent state.pml4 indices.pml4Index
  let pd ← presentTable .pdpEntryNotPresent pdp indices.pdpIndex
  let pt ← presentTable .pdEntryNotPresent pd indices.pdIndex
  if !present (← readEntry pt indices.ptIndex) then throw .ptEntryNotPresent
  writeEntry pt indices.ptIndex 0
  freeEmptyTables state indices pdp pd pt

/-- The software walk. It only reads, so it is a function of the machine. -/
def getPhysicalAddress (machine : Machine) (state : State) (virtualAddress : Word) : Word :=
  let indices := extractPageTableIndices virtualAddress
  let pml4Entry := machine.memory (frameNumber state.pml4) indices.pml4Index
  if !present pml4Entry then 0
  else
    let pdpEntry := machine.memory (frameNumber (pml4Entry &&& pointerMask)) indices.pdpIndex
    if !present pdpEntry then 0
    else
      let pdEntry := machine.memory (frameNumber (pdpEntry &&& pointerMask)) indices.pdIndex
      if !present pdEntry then 0
      else
        let ptEntry := machine.memory (frameNumber (pdEntry &&& pointerMask)) indices.ptIndex
        if !present ptEntry then 0
        else (ptEntry &&& pointerMask) ||| indices.pageOffset

def isMapped (machine : Machine) (state : State) (virtualAddress : Word) : Bool :=
  getPhysicalAddress machine state virtualAddress != 0#64

structure AvailableVirtualAddressRange where
  start : Word
  stop : Word
deriving DecidableEq, Repr

/-- The loop over the pages below `stop`, which only reads. It has no result while it
still runs after so many rounds. -/
def findAvailableFrom (machine : Machine) (state : State) (stop pageCount : Word) :
    (rounds : Nat) → (current foundPages : Word) → Option (Except Panic AvailableVirtualAddressRange)
  | 0, _, _ => none
  | rounds + 1, current, foundPages =>
    if current < stop then
      if !isMapped machine state current then
        let foundPages := foundPages + 1#64
        if foundPages = pageCount then
          let rangeStart := current - (pageCount - 1#64) * Architecture.pageSize
          some (.ok ⟨rangeStart,rangeStart + pageCount * Architecture.pageSize⟩)
        else findAvailableFrom machine state stop pageCount rounds (current + Architecture.pageSize) foundPages
      else findAvailableFrom machine state stop pageCount rounds (current + Architecture.pageSize) 0#64
    else some (.error .noVirtualAddressRange)

def findAvailableVirtualAddressRange (rounds : Nat) (machine : Machine) (state : State) (start stop pageCount : Word) :
    Option (Except Panic AvailableVirtualAddressRange) :=
  findAvailableFrom machine state stop pageCount rounds start 0#64

def findAvailableVirtualAddressRangeKernel (rounds : Nat) (machine : Machine) (kernelState : State) (count : Word) :
    Option (Except Panic AvailableVirtualAddressRange) :=
  let start := 0xFFFFFFFF80000000#64
  let stop := 0xFFFFFFFFFFFFF000#64
  findAvailableVirtualAddressRange rounds machine kernelState start stop count

/-- One round of the loop that fills the upper half of a top-level table. -/
def reserveSlot (state : State) (index : Fin 512) : KernelM Unit := do
  if !present (← readEntry state.pml4 index) then
    let pdpPhys ← allocatePage
    if pdpPhys = 0 then throw .reservedPdpAllocationFailed
    clearTable pdpPhys
    writeEntry state.pml4 index (pdpPhys ||| (Flag.present.bit ||| Flag.readWrite.bit))

def reserveHigherHalfPML4Slots (state : State) : KernelM Unit :=
  ((List.finRange 512).drop 256).forM (reserveSlot state)

/-- The copy of one table of level 3, 2 or 1. The source entry is read again at
each place the source code names it, and the answer of the allocation is not
tested. A level of 0 does not occur: tables of level 1 only have leaves. -/
def deepCopyPageTables : (level : Nat) → (srcPhys dstPhys : Word) → KernelM Unit
  | 0, _, _ => pure ()
  | below + 1, srcPhys, dstPhys => (List.finRange 512).forM fun i => do
    if present (← readEntry srcPhys i) then
      if (below + 1 = 3 ∨ below + 1 = 2) ∧ huge (← readEntry srcPhys i) then
        writeEntry dstPhys i (← readEntry srcPhys i)
      else if below + 1 = 1 then
        writeEntry dstPhys i (← readEntry srcPhys i)
      else
        let newTablePhys ← allocatePage
        clearTable newTablePhys
        writeEntry dstPhys i (newTablePhys ||| ((← readEntry srcPhys i) &&& flagsMask))
        deepCopyPageTables below ((← readEntry srcPhys i) &&& pointerMask) newTablePhys

/-- One round of the loop over the boot loader's top-level table. The table
allocated here is not cleared. -/
def copySlot (state : State) (cr3 : Word) (index : Fin 512) : KernelM Unit := do
  if present (← readEntry cr3 index) then
    let srcPhys := (← readEntry cr3 index) &&& pointerMask
    let dstPhys ← allocatePage
    if dstPhys = 0 then throw .deepCopyAllocationFailed
    deepCopyPageTables 3 srcPhys dstPhys
    writeEntry state.pml4 index (((← readEntry cr3 index) &&& flagsMask) ||| dstPhys)

def copyExistingPageTableToNew (state : State) (cr3 : Word) : KernelM Unit :=
  (List.finRange 512).forM (copySlot state cr3)

end Paging

end BorealOS.Memory
