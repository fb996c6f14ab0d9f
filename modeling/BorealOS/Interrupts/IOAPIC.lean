import BorealOS.Kernel

/-! The I/O APIC and its driver. The device has 256 registers of 32 bits behind an index
and a data window, `_mmioBase[0]` and `_mmioBase[4]`. -/
namespace BorealOS.Interrupts

inductive DeliveryMode where
  | fixed
  | lowestPriority
  | smi
  | nmi
  | init
  | extINT
deriving DecidableEq, Repr

inductive DestinationMode where
  | physical
  | logical
deriving DecidableEq, Repr

inductive Polarity where
  | activeHigh
  | activeLow
deriving DecidableEq, Repr

inductive TriggerMode where
  | edge
  | level
deriving DecidableEq, Repr

def DeliveryMode.value : DeliveryMode → BitVec 8
  | .fixed => 0b000#8
  | .lowestPriority => 0b001#8
  | .smi => 0b010#8
  | .nmi => 0b100#8
  | .init => 0b101#8
  | .extINT => 0b111#8

def DestinationMode.value : DestinationMode → BitVec 8
  | .physical => 0#8
  | .logical => 1#8

def Polarity.value : Polarity → BitVec 8
  | .activeHigh => 0#8
  | .activeLow => 1#8

def TriggerMode.value : TriggerMode → BitVec 8
  | .edge => 0#8
  | .level => 1#8

structure RedirectionEntry where
  vector : BitVec 8
  deliveryMode : DeliveryMode := .fixed
  destinationMode : DestinationMode := .physical
  polarity : Polarity := .activeHigh
  triggerMode : TriggerMode := .edge
  masked : Bool := false
  destination : BitVec 8
deriving DecidableEq, Repr

def RedirectionEntry.pack (fields : RedirectionEntry) : Word :=
  let entry := fields.vector.setWidth 64
  let entry := entry ||| fields.deliveryMode.value.setWidth 64 <<< 8
  let entry := entry ||| fields.destinationMode.value.setWidth 64 <<< 11
  let entry := entry ||| fields.polarity.value.setWidth 64 <<< 13
  let entry := entry ||| fields.triggerMode.value.setWidth 64 <<< 15
  let entry := entry ||| (if fields.masked then 1#64 <<< 16 else 0#64)
  let entry := entry ||| fields.destination.setWidth 64 <<< 56
  entry

/-- What the index window holds, and the registers that the data window shows. -/
structure IOAPICDevice where
  index : BitVec 32
  registers : BitVec 8 → BitVec 32

namespace IOAPICDevice

def readRegister (device : IOAPICDevice) (reg : BitVec 32) : BitVec 32 × IOAPICDevice :=
  let device := { device with index := reg &&& 0xFF#32 }
  (device.registers (device.index.setWidth 8),device)

def writeRegister (device : IOAPICDevice) (reg value : BitVec 32) : IOAPICDevice :=
  let device := { device with index := reg &&& 0xFF#32 }
  { device with registers := Function.update device.registers (device.index.setWidth 8) value }

end IOAPICDevice

namespace IOAPICRegister

def ver : BitVec 32 := 0x01#32
def redirectionTableBase : BitVec 32 := 0x10#32

end IOAPICRegister

def RedirectionFlags.masked : Word := 1#64 <<< 16

/-- The members that the driver reads back, with the device it drives. -/
structure IOAPIC where
  gsiBase : BitVec 32
  ioApicId : BitVec 8
  version : BitVec 16
  maxRedirectionEntries : BitVec 32
  device : IOAPICDevice

namespace IOAPIC

/-- The register number is a `uint8_t`; an index that is out of bounds is only logged. -/
def setRedirectionEntryInternal (ioApic : IOAPIC) (index : BitVec 32) (entry : Word) : IOAPIC :=
  if ioApic.maxRedirectionEntries ≤ index then ioApic
  else
    let regLow := (IOAPICRegister.redirectionTableBase + index * 2#32).setWidth 8
    let regHigh := regLow + 1#8
    let device := ioApic.device.writeRegister (regHigh.setWidth 32) ((entry >>> 32 &&& 0xFFFFFFFF#64).setWidth 32)
    let device := device.writeRegister (regLow.setWidth 32) ((entry &&& 0xFFFFFFFF#64).setWidth 32)
    { ioApic with device }

def hasGSI (ioApic : IOAPIC) (gsi : BitVec 32) : Bool :=
  ioApic.gsiBase ≤ gsi && gsi < ioApic.gsiBase + ioApic.maxRedirectionEntries

def setRawRedirectionEntry (ioApic : IOAPIC) (gsi : BitVec 32) (entry : Word) : IOAPIC :=
  if ioApic.hasGSI gsi then ioApic.setRedirectionEntryInternal (gsi - ioApic.gsiBase) entry
  else ioApic

def setRedirectionEntry (ioApic : IOAPIC) (gsi : BitVec 32) (entry : RedirectionEntry) : IOAPIC :=
  ioApic.setRawRedirectionEntry gsi entry.pack

/-- `IOAPIC::Initialize` on a device whose registers are mapped at `ioApicAddr`. -/
def initializeAt (device : IOAPICDevice) (ioApicAddr : Word) (gsiBase : BitVec 32) (ioApicId : BitVec 8) :
    Except Panic IOAPIC :=
  if ioApicAddr = 0#64 then .error .mmioBaseNull
  else
    let (versionReg,device) := device.readRegister IOAPICRegister.ver
    let version := (versionReg &&& 0xFF#32).setWidth 16
    let maxRedirectionEntries := (versionReg >>> 16 &&& 0xFF#32) + 1#32
    let ioApic := ⟨gsiBase,ioApicId,version,maxRedirectionEntries,device⟩
    .ok ((List.range maxRedirectionEntries.toNat).foldl
      (fun ioApic i => ioApic.setRedirectionEntryInternal (BitVec.ofNat 32 i) RedirectionFlags.masked) ioApic)

end IOAPIC

end BorealOS.Interrupts
