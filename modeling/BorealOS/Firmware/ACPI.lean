import BorealOS.Library.ByteObject

/-! The walks over the multiple APIC description table, as the source computes
them. The table is firmware memory: nothing is known of it but its length field,
and the entries behind its header are found by adding up their length bytes. -/
namespace BorealOS.Firmware.ACPI

open ByteObject

def sizeofSDTHeader : Nat := 4 + 4 + 1 + 1 + 6 + 8 + 4 + 4 + 4

def sizeofMADT : Nat := sizeofSDTHeader + 4 + 4

inductive MADTEntryType where
  | localAPIC
  | ioAPIC
  | irqSrcOverride
  | nmi
  | localAPICNMI
  | localAPICOverride
deriving DecidableEq, Repr

def MADTEntryType.value : MADTEntryType → UInt8
  | .localAPIC => 0
  | .ioAPIC => 1
  | .irqSrcOverride => 2
  | .nmi => 3
  | .localAPICNMI => 4
  | .localAPICOverride => 5

/-- The `uint32_t` stored at an offset, least byte first. -/
def uint32At (image : List UInt8) (offset : Nat) : Nat :=
  let byte (i : Nat) := (image.getD (offset + i) 0).toNat
  byte 0 + 2^8 * byte 1 + 2^16 * byte 2 + 2^24 * byte 3

/-- A table is the object of exactly as many bytes as its length field says. -/
structure MADT where
  image : List UInt8
  headed : sizeofMADT ≤ image.length
  sized : uint32At image 4 = image.length

namespace MADT

def read (madt : MADT) (offset : Nat) : Except Fault UInt8 := Pointer.read ⟨madt.image,0⟩ offset

def length (madt : MADT) : Except Fault Nat := do
  return (← madt.read 4).toNat + 2^8 * (← madt.read 5).toNat + 2^16 * (← madt.read 6).toNat +
    2^24 * (← madt.read 7).toNat

end MADT

/-- The loop of `FindMADTEntryCount`; `current` is the offset of an entry header
from the start of the table. -/
def countLoop (madt : MADT) (type : MADTEntryType) : (rounds current count : Nat) → Except Fault Nat
  | 0, _, _ => throw .endlessLoop
  | rounds + 1, current, count => do
    if (← madt.length) ≤ current then return count
    let count := if (← madt.read current) = type.value then count + 1 else count
    countLoop madt type rounds (current + (← madt.read (current + 1)).toNat) count

def findMADTEntryCount (rounds : Nat) (madt : MADT) (type : MADTEntryType) : Except Fault Nat :=
  countLoop madt type rounds sizeofMADT 0

/-- The loop of `FindMADTEntry`. A header that is found is its offset, and
`nullptr` is `none`. -/
def entryLoop (madt : MADT) (type : MADTEntryType) : (rounds current index : Nat) → Except Fault (Option Nat)
  | 0, _, _ => throw .endlessLoop
  | rounds + 1, current, index => do
    if (← madt.length) ≤ current then return none
    if (← madt.read current) = type.value then
      if index = 0 then return some current
      entryLoop madt type rounds (current + (← madt.read (current + 1)).toNat) (index - 1)
    else
      entryLoop madt type rounds (current + (← madt.read (current + 1)).toNat) index

def findMADTEntry (rounds : Nat) (madt : MADT) (type : MADTEntryType) (index : Nat) : Except Fault (Option Nat) :=
  entryLoop madt type rounds sizeofMADT index

end BorealOS.Firmware.ACPI
