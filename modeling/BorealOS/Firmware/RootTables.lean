import BorealOS.Firmware.ACPI
import BorealOS.Logging.LogFmt
import BorealOS.Library.Execution
import BorealOS.Utility.Formatter

/-! `ACPI::Initialize`: from the root pointer that the boot loader hands over to the fixed
description table. Nothing is known of the memory that the firmware left, so it is any
function from addresses to bytes. -/
namespace BorealOS.Firmware.ACPI
open ByteObject Logging Execution Utility Formatter

/-- The constant tables of strings that a byte of the firmware's is used as an index for. -/
inductive StringTable where
  | sdpRevisionStrings
  | powerProfileStrings
deriving DecidableEq, Repr

def StringTable.strings : StringTable → List String
  | .sdpRevisionStrings => ["ACPI 1.0","Unknown","ACPI 2.0+"]
  | .powerProfileStrings =>
    ["Unspecified","Desktop","Mobile","Workstation","Enterprise Server","SOHO Server","Appliance PC","Performance Server"]

/-- What a run is watched for: a look into a table of strings, and the search for the
FADT in a root table. -/
inductive Event where
  | lookup (table : StringTable) (index : Nat)
  | search (sdt : Word)
deriving DecidableEq, Repr

/-- A run ends early with a panic or a fault, or waits for the firmware for good. -/
inductive Stop where
  | panic (panic : Panic)
  | fault (fault : Fault)
  | waiting
deriving DecidableEq, Repr

abbrev InitM := EStateM Stop (List Event)

/-- What `ACPI::Initialize` depends on. The response of the boot loader may be null, and
`controlReads` are the words read from the port `PM1aControlBlock`, one after the other. -/
structure Platform where
  memory : Word → UInt8
  higherHalf : Word
  rsdpResponse : Option Word
  minimumLogLevel : LogLevel
  controlReads : Nat → BitVec 16

structure Tables where
  rsdp : Word
  rsdt : Word
  xsdp : Word
  xsdt : Word
  fadt : Word
  dsdt : Word
deriving DecidableEq, Repr

namespace Platform

variable (platform : Platform)

def byteAt (address : Word) (offset : Nat) : UInt8 := platform.memory (address + BitVec.ofNat 64 offset)

def uint32 (address : Word) (offset : Nat) : BitVec 32 :=
  (platform.byteAt address (offset + 3)).toBitVec ++ (platform.byteAt address (offset + 2)).toBitVec ++
    (platform.byteAt address (offset + 1)).toBitVec ++ (platform.byteAt address offset).toBitVec

def uint64 (address : Word) (offset : Nat) : Word :=
  platform.uint32 address (offset + 4) ++ platform.uint32 address offset

def revision (rsdp : Word) : UInt8 := platform.byteAt rsdp 15
def rsdtAddress (rsdp : Word) : BitVec 32 := platform.uint32 rsdp 16
def xsdpLength (xsdp : Word) : BitVec 32 := platform.uint32 xsdp 20
def xsdtAddress (xsdp : Word) : Word := platform.uint64 xsdp 24
def sdtLength (sdt : Word) : BitVec 32 := platform.uint32 sdt 4

def sizeofRSDP : Nat := 8 + 1 + 6 + 1 + 4
def sizeofXSDP : Nat := sizeofRSDP + 4 + 8 + 1 + 3

/-- The `uint8_t` sum of the loops over the bytes of a structure. -/
def sumBytes (address : Word) (length : Nat) : UInt8 :=
  (List.range length).foldl (fun sum i => sum + platform.byteAt address i) 0

def validateRSDP (rsdp : Word) : Bool :=
  if rsdp = 0#64 then false
  else if platform.sumBytes rsdp sizeofRSDP ≠ 0 then false
  else true

def validateXSDP (xsdp : Word) : Bool :=
  if xsdp = 0#64 then false
  else if ¬ platform.validateRSDP xsdp then false
  else if (platform.xsdpLength xsdp).toNat < sizeofXSDP then false
  else if platform.sumBytes xsdp (platform.xsdpLength xsdp).toNat ≠ 0 then false
  else true

def validateSDT (sdt : Word) : Bool :=
  if sdt = 0#64 then false
  else if (platform.sdtLength sdt).toNat < sizeofSDTHeader then false
  else if platform.sumBytes sdt (platform.sdtLength sdt).toNat ≠ 0 then false
  else true

/-- The arguments of a message are evaluated only where the message is logged. -/
def logLookup (table : StringTable) (index : Nat) : InitM Unit :=
  if logMessage platform.minimumLogLevel .debug then modify (· ++ [.lookup table index]) else pure ()

def rootEntry (rsdp sdt : Word) (entry : Nat) : Word :=
  if 0 < platform.revision rsdp then platform.uint64 sdt (sizeofSDTHeader + 8 * entry)
  else (platform.uint32 sdt (sizeofSDTHeader + 4 * entry)).setWidth 64

def signatureView (table : Word) : StringView := ⟨⟨(List.range 4).map (platform.byteAt table),0⟩,4⟩

def findFADTFrom (rsdp sdt : Word) : (remaining entry : Nat) → Except Fault Word
  | 0, _ => return 0#64
  | remaining + 1, entry => do
    let table := platform.rootEntry rsdp sdt entry
    if ← (platform.signatureView (table + platform.higherHalf)).equal (.literal (ascii ['F','A','C','P'])) then
      return table + platform.higherHalf
    findFADTFrom rsdp sdt remaining (entry + 1)

/-- How many pointers the length field makes room for. The field has 32 bits and `sizeof`
has 64, so the difference is one of 64 bits. -/
def entryCount (rsdp sdt : Word) : Word :=
  ((platform.sdtLength sdt).setWidth 64 - BitVec.ofNat 64 sizeofSDTHeader) / (if 0 < platform.revision rsdp then 8#64 else 4#64)

def findFADT (rsdp sdt : Word) : InitM Word := do
  modify (· ++ [.search sdt])
  match platform.findFADTFrom rsdp sdt (platform.entryCount rsdp sdt).toNat 0 with
  | .ok fadt => return fadt
  | .error fault => throw (.fault fault)

def waitEnabled : (rounds reads : Nat) → InitM Unit
  | 0, _ => throw .waiting
  | rounds + 1, reads =>
    if platform.controlReads reads &&& 1#16 ≠ 0#16 then pure () else waitEnabled rounds (reads + 1)

def writeByteCommand (rounds : Nat) : InitM Unit :=
  if platform.controlReads 0 &&& 1#16 ≠ 0#16 then pure () else platform.waitEnabled rounds 1

/-- The root table, validated, with the pointers set on the way. -/
def selectRoot (rsdp : Word) : InitM (Tables × Word) := do
  let mut tables : Tables := ⟨rsdp,0#64,0#64,0#64,0#64,0#64⟩
  if 0 < platform.revision rsdp then
    tables := { tables with xsdp := rsdp }
    if ¬ platform.validateXSDP rsdp then throw (.panic .invalidXSDP)
    tables := { tables with xsdt := platform.xsdtAddress rsdp + platform.higherHalf }
  else
    tables := { tables with rsdt := (platform.rsdtAddress rsdp).setWidth 64 + platform.higherHalf }
    if ¬ platform.validateSDT tables.rsdt then throw (.panic .invalidRSDT)
  let sdtAddrPhys := if 0 < platform.revision rsdp then platform.xsdtAddress rsdp else (platform.rsdtAddress rsdp).setWidth 64
  let sdt := sdtAddrPhys + platform.higherHalf
  if ¬ platform.validateSDT sdt then throw (.panic .unverifiedSDT)
  return (tables,sdt)

/-- In the FADT `dsdt` is at offset 40, the power profile at 45 and `xDsdt` at 140. -/
def dsdtPhys (fadt : Word) : Word :=
  if 140 + 8 ≤ (platform.sdtLength fadt).toNat ∧ platform.uint64 fadt 140 ≠ 0#64 then platform.uint64 fadt 140
  else (platform.uint32 fadt 40).setWidth 64

def logProfile (fadt : Word) : InitM Unit :=
  let profile := platform.byteAt fadt 45
  if 7 < profile then pure () else platform.logLookup .powerProfileStrings profile.toNat

def useFADT (rounds : Nat) (tables : Tables) (fadt : Word) : InitM Tables :=
  if fadt = 0#64 then throw (.panic .fadtNotFound)
  else if platform.dsdtPhys fadt = 0#64 then throw (.panic .dsdtNotFound)
  else do
    platform.writeByteCommand rounds
    platform.logProfile fadt
    return { tables with fadt, dsdt := platform.dsdtPhys fadt + platform.higherHalf }

def initializeTables (rounds : Nat) : InitM Tables :=
  match platform.rsdpResponse with
  | none => throw (.panic .rsdpResponseNull)
  | some rsdp => do
    platform.logLookup .sdpRevisionStrings (platform.revision rsdp).toNat
    let (tables,sdt) ← platform.selectRoot rsdp
    let fadt ← platform.findFADT rsdp sdt
    platform.useFADT rounds tables fadt

end Platform

end BorealOS.Firmware.ACPI
