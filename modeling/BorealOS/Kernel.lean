import Mathlib

/-! The machine words, constants and panics shared by the kernel's components.
`uint64_t`, `uintptr_t` and `size_t` are all 64-bit words; a `PANIC` stops the
kernel for good, so it is the error of a computation that also keeps the state
in which the kernel stopped. -/
namespace BorealOS

abbrev Word := BitVec 64

namespace Constants

def kiB : Word := 1024
def miB : Word := kiB * 1024

end Constants

namespace Architecture

def pageSize : Word := 4 * Constants.kiB

@[simp] theorem pageSize_toNat : pageSize.toNat = 4096 := by decide

end Architecture

/-- The `PANIC` calls of the modelled functions, one constructor for each text. -/
inductive Panic where
  | memoryMapNotAvailable
  | hhdmNotAvailable
  | noRegionForBitmaps
  | failedTestCase
  | pageIndexOutOfBounds
  | invalidPageStart
  | freeReservedPage
  | freeUnallocatedPage
  | virtualAddressNotAligned
  | physicalAddressNotAligned
  | pdpAllocationFailed
  | pdAllocationFailed
  | ptAllocationFailed
  | alreadyMapped
  | pml4EntryNotPresent
  | pdpEntryNotPresent
  | pdEntryNotPresent
  | ptEntryNotPresent
  | kernelPml4AllocationFailed
  | reservedPdpAllocationFailed
  | deepCopyAllocationFailed
  | noVirtualAddressRange
  | mmioBaseNull
  | rsdpResponseNull
  | invalidXSDP
  | invalidRSDT
  | unverifiedSDT
  | fadtNotFound
  | dsdtNotFound
deriving DecidableEq, Repr

end BorealOS
