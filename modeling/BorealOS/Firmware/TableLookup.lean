import BorealOS.Firmware.RootTrust

/-! `GetTable` and `FindFADT`: searches through the pointers of a root table, which have
32 bits in an RSDT and 64 bits in an XSDT. Both answer by the list of the
pointers alone, whichever way it is stored. -/
namespace BorealOS.Firmware.ACPI.Platform

open ByteObject Utility Formatter

variable (platform : Platform)

/-- The loop of `GetTable` for either kind of pointer. -/
def tableLoop (pointer : Nat → Word) (signature : StringView) : (remaining i index : Nat) → Except Fault Word
  | 0, _, _ => return 0#64
  | remaining + 1, i, index => do
    let table := pointer i + platform.higherHalf
    if ← (platform.signatureView table).equal signature then
      if index = 0 then return table
      tableLoop pointer signature remaining (i + 1) (index - 1)
    else tableLoop pointer signature remaining (i + 1) index

def rootOf (tables : Tables) : Word := if 0 < platform.revision tables.rsdp then tables.xsdt else tables.rsdt

def getTable (tables : Tables) (signature : StringView) (index : Nat) : Except Fault Word := do
  if ← signature.equal (.literal (ascii ['D','S','D','T'])) then return tables.dsdt
  if ← signature.equal (.literal (ascii ['F','A','C','P'])) then return tables.fadt
  if ← signature.equal (.literal (ascii ['R','S','D','T'])) then return tables.rsdt
  if ← signature.equal (.literal (ascii ['X','S','D','T'])) then return tables.xsdt
  let root := platform.rootOf tables
  platform.tableLoop (platform.rootEntry tables.rsdp root) signature (platform.entryCount tables.rsdp root).toNat 0 index

def memberSignatures : List (List UInt8) :=
  [ascii ['D','S','D','T'],ascii ['F','A','C','P'],ascii ['R','S','D','T'],ascii ['X','S','D','T']]

/-! The search of `GetTable` on the list of pointers. -/

section Signature
variable {signature : StringView} (readable : signature.Readable) (unbroken : 0 ∉ signature.text)
include readable unbroken

theorem tableLoop_eq (pointer : Nat → Word) (remaining i index : Nat) :
    platform.tableLoop pointer signature remaining i index =
      .ok (platform.mapped (platform.withSignature signature.text ((List.range' i remaining).map pointer))[index]?) := by
  induction remaining generalizing i index with
  | zero => rfl
  | succ remaining ih =>
    obtain ⟨inside,text⟩ := platform.signatureView_text (pointer i + platform.higherHalf)
    rw [tableLoop,inside.equal_spec readable unbroken,text,List.range'_succ,List.map_cons,withSignature,List.filter_cons]
    by_cases same : platform.signatureOf (pointer i + platform.higherHalf) = signature.text
    · simp only [same,decide_true,ok_bind,if_true]
      cases index with
      | zero => rfl
      | succ index =>
        rw [if_neg (Nat.succ_ne_zero index),Nat.add_sub_cancel,ih,List.getElem?_cons_succ]
        rfl
    · simp only [same,decide_false,ok_bind,Bool.false_eq_true,if_false]
      exact ih (i + 1) index

theorem getTable_eq (tables : Tables) (other : signature.text ∉ memberSignatures) (index : Nat) : platform.getTable tables signature index =
      .ok (platform.mapped (platform.withSignature signature.text
        (platform.pointersOf tables.rsdp (platform.rootOf tables)))[index]?) := by
  simp only [memberSignatures,List.mem_cons,List.not_mem_nil,or_false,not_or] at other
  obtain ⟨dsdt,facp,rsdt,xsdt⟩ := other
  rw [getTable,readable.equal_literal (by decide),readable.equal_literal (by decide),readable.equal_literal (by decide),
    readable.equal_literal (by decide)]
  simp only [dsdt,facp,rsdt,xsdt,decide_false,ok_bind,Bool.false_eq_true,if_false]
  rw [platform.tableLoop_eq readable unbroken,pointersOf,List.range_eq_range']

end Signature

/-! How the pointers are stored. -/

def pointerSize (rsdp : Word) : Nat := if 0 < platform.revision rsdp then 8 else 4

theorem pointerSize_pos (rsdp : Word) : 0 < platform.pointerSize rsdp := by
  unfold pointerSize
  split <;> decide

theorem entryCount_toNat {rsdp root : Word} (long : sizeofSDTHeader ≤ (platform.sdtLength root).toNat) :
    (platform.entryCount rsdp root).toNat = ((platform.sdtLength root).toNat - sizeofSDTHeader) / platform.pointerSize rsdp := by
  have bits := (platform.sdtLength root).isLt
  have wide : ((platform.sdtLength root).setWidth 64).toNat = (platform.sdtLength root).toNat := by
    rw [BitVec.toNat_setWidth]
    exact Nat.mod_eq_of_lt (by omega)
  have header : (BitVec.ofNat 64 sizeofSDTHeader).toNat = sizeofSDTHeader := by decide
  have room : ((platform.sdtLength root).setWidth 64 - BitVec.ofNat 64 sizeofSDTHeader).toNat =
      (platform.sdtLength root).toNat - sizeofSDTHeader := by
    rw [BitVec.toNat_sub_of_le (by rw [BitVec.le_def,wide,header]; exact long),wide,header]
  rw [entryCount,BitVec.toNat_udiv,room,pointerSize]
  split <;> rfl

theorem pointer_inside {rsdp root : Word} (long : sizeofSDTHeader ≤ (platform.sdtLength root).toNat) {i : Nat}
    (counted : i < (platform.entryCount rsdp root).toNat) :
    sizeofSDTHeader + platform.pointerSize rsdp * (i + 1) ≤ (platform.sdtLength root).toNat := by
  rw [platform.entryCount_toNat long] at counted
  have whole : (i + 1) * platform.pointerSize rsdp ≤ (platform.sdtLength root).toNat - sizeofSDTHeader :=
    Nat.mul_le_of_le_div _ _ _ counted
  rw [Nat.mul_comm]
  omega

private theorem append_bytes (address : Word) (start : Nat) :
    (address.extractLsb' (start + 24) 8 ++ address.extractLsb' (start + 16) 8 ++ address.extractLsb' (start + 8) 8 ++
      address.extractLsb' start 8 : BitVec 32) = address.extractLsb' start 32 := by
  rw [BitVec.extractLsb'_append_extractLsb'_eq_extractLsb' (by omega),
    BitVec.extractLsb'_append_extractLsb'_eq_extractLsb' (by omega),
    BitVec.extractLsb'_append_extractLsb'_eq_extractLsb' (by omega)]

private theorem append_halves (address : Word) : (address.extractLsb' 32 32 ++ address.extractLsb' 0 32 : Word) = address := by
  rw [BitVec.extractLsb'_append_extractLsb'_eq_extractLsb' (by omega)]
  exact BitVec.extractLsb'_eq_self

/-- The root table is a list of addresses below 4 GiB, least byte first. -/
structure Stores (tables : Tables) (addresses : List Word) : Prop where
  length : (platform.sdtLength (platform.rootOf tables)).toNat =
    sizeofSDTHeader + platform.pointerSize tables.rsdp * addresses.length
  bytes : ∀ k address, addresses[k]? = some address → ∀ i < platform.pointerSize tables.rsdp,
    platform.byteAt (platform.rootOf tables) (sizeofSDTHeader + platform.pointerSize tables.rsdp * k + i) =
      UInt8.ofBitVec (address.extractLsb' (8 * i) 8)
  below : ∀ address ∈ addresses, address.toNat < 2^32

section Stores
variable {platform} {tables : Tables} {addresses : List Word} (stores : platform.Stores tables addresses)
include stores

private theorem Stores.uint32_eq {k : Nat} {address : Word} (listed : addresses[k]? = some address) (start : Nat)
    (inside : start + 4 ≤ platform.pointerSize tables.rsdp) :
    platform.uint32 (platform.rootOf tables) (sizeofSDTHeader + platform.pointerSize tables.rsdp * k + start) =
      address.extractLsb' (8 * start) 32 := by
  have byte : ∀ i, start + i < platform.pointerSize tables.rsdp →
      (platform.byteAt (platform.rootOf tables) (sizeofSDTHeader + platform.pointerSize tables.rsdp * k + start + i)).toBitVec =
        address.extractLsb' (8 * start + 8 * i) 8 := by
    intro i within
    rw [Nat.add_assoc,stores.bytes k address listed (start + i) within,Nat.mul_add]
  rw [uint32,byte 3 (by omega),byte 2 (by omega),byte 1 (by omega)]
  exact (congrArg _ (byte 0 (by omega))).trans (append_bytes address (8 * start))

theorem Stores.rootEntry_eq {k : Nat} {address : Word} (listed : addresses[k]? = some address) :
    platform.rootEntry tables.rsdp (platform.rootOf tables) k = address := by
  have word := stores.uint32_eq listed
  rw [rootEntry]
  by_cases extended : 0 < platform.revision tables.rsdp
  · have size : platform.pointerSize tables.rsdp = 8 := if_pos extended
    rw [size] at word
    have low := word 0 (by decide)
    have high := word 4 (by decide)
    rw [if_pos extended,uint64]
    rw [Nat.add_zero] at low
    rw [low,high]
    exact append_halves address
  · have size : platform.pointerSize tables.rsdp = 4 := if_neg extended
    have small := stores.below address (List.mem_of_getElem? listed)
    rw [size] at word
    have low := word 0 (by decide)
    rw [Nat.add_zero] at low
    rw [if_neg extended,low]
    apply BitVec.eq_of_toNat_eq
    rw [BitVec.toNat_setWidth,BitVec.extractLsb'_toNat,Nat.mul_zero,Nat.shiftRight_zero,Nat.mod_eq_of_lt small]
    exact Nat.mod_eq_of_lt (by omega)

theorem Stores.pointersOf_eq : platform.pointersOf tables.rsdp (platform.rootOf tables) = addresses := by
  have count : (platform.entryCount tables.rsdp (platform.rootOf tables)).toNat = addresses.length := by
    rw [platform.entryCount_toNat (by rw [stores.length]; omega),stores.length,Nat.add_sub_cancel_left,
      Nat.mul_div_cancel_left _ (platform.pointerSize_pos _)]
  apply List.ext_getElem?
  intro k
  rw [pointersOf,count,List.getElem?_map]
  by_cases inside : k < addresses.length
  · rw [List.getElem?_range inside,List.getElem?_eq_getElem inside]
    exact congrArg some (stores.rootEntry_eq (List.getElem?_eq_getElem inside))
  · rw [List.getElem?_eq_none (by simpa using inside),List.getElem?_eq_none (by omega)]
    rfl

end Stores

theorem withSignature_congr {platform other : Platform} (mapping : other.higherHalf = platform.higherHalf) {pointers : List Word}
    (same : ∀ pointer ∈ pointers,
      other.signatureOf (pointer + platform.higherHalf) = platform.signatureOf (pointer + platform.higherHalf))
    (signature : List UInt8) : other.withSignature signature pointers = platform.withSignature signature pointers := by
  apply List.filter_congr
  intro pointer member
  rw [mapping,same pointer member]

theorem mapped_congr {platform other : Platform} (mapping : other.higherHalf = platform.higherHalf) : other.mapped = platform.mapped := by
  unfold mapped
  rw [mapping]

/-- `GetTable` answers the table with an index among those with the signature, and `FindFADT`
the first one with the signature `FACP`, for either kind of root table and alike for
both. In a root table that passes its checks the count of pointers does not wrap, all
counted pointers lie inside, and the searches see no other. -/
theorem lookup_same_in_either_root (platform : Platform) (tables : Tables) (addresses : List Word)
    (stores : platform.Stores tables addresses) (signature : StringView) (readable : signature.Readable)
    (unbroken : 0 ∉ signature.text) (other : signature.text ∉ memberSignatures) (index : Nat) (events : List Event) :
    platform.getTable tables signature index = .ok (platform.mapped (platform.withSignature signature.text addresses)[index]?) ∧
    platform.findFADT tables.rsdp (platform.rootOf tables) events =
      .ok (platform.mapped (platform.withSignature (ascii ['F','A','C','P']) addresses)[0]?)
        (events ++ [.search (platform.rootOf tables)]) ∧
    (∀ (second : Platform) (others : Tables), second.Stores others addresses → second.higherHalf = platform.higherHalf →
      (∀ address ∈ addresses,
        second.signatureOf (address + platform.higherHalf) = platform.signatureOf (address + platform.higherHalf)) →
      second.getTable others signature index = platform.getTable tables signature index ∧
      ∃ fadt, platform.findFADT tables.rsdp (platform.rootOf tables) events = .ok fadt (events ++ [.search (platform.rootOf tables)]) ∧
        second.findFADT others.rsdp (second.rootOf others) events = .ok fadt (events ++ [.search (second.rootOf others)])) ∧
    (∀ rsdp root, platform.validateSDT root = true →
      sizeofSDTHeader ≤ (platform.sdtLength root).toNat ∧
      (platform.entryCount rsdp root).toNat = ((platform.sdtLength root).toNat - sizeofSDTHeader) / platform.pointerSize rsdp ∧
      (∀ i < (platform.entryCount rsdp root).toNat,
        sizeofSDTHeader + platform.pointerSize rsdp * (i + 1) ≤ (platform.sdtLength root).toNat) ∧
      ∀ pointer : Nat → Word, (∀ i < (platform.entryCount rsdp root).toNat, pointer i = platform.rootEntry rsdp root i) →
        platform.tableLoop (platform.rootEntry rsdp root) signature (platform.entryCount rsdp root).toNat 0 index =
          platform.tableLoop pointer signature (platform.entryCount rsdp root).toNat 0 index ∧
        platform.findFADT rsdp root events = .ok (platform.mapped (platform.withSignature (ascii ['F','A','C','P'])
          ((List.range (platform.entryCount rsdp root).toNat).map pointer))[0]?) (events ++ [.search root])) := by
  have found : ∀ (platform : Platform) (tables : Tables), platform.Stores tables addresses →
      platform.getTable tables signature index =
        .ok (platform.mapped (platform.withSignature signature.text addresses)[index]?) := by
    intro platform tables stores
    rw [platform.getTable_eq readable unbroken tables other,stores.pointersOf_eq]
  have fadt : ∀ (platform : Platform) (tables : Tables), platform.Stores tables addresses →
      platform.findFADT tables.rsdp (platform.rootOf tables) events =
        .ok (platform.mapped (platform.withSignature (ascii ['F','A','C','P']) addresses)[0]?)
          (events ++ [.search (platform.rootOf tables)]) := by
    intro platform tables stores
    rw [platform.findFADT_eq,stores.pointersOf_eq]
  refine ⟨found platform tables stores,fadt platform tables stores,?_,?_⟩
  · intro second others storesToo mapping same
    have signatures := withSignature_congr mapping same
    refine ⟨?_,_,fadt platform tables stores,?_⟩
    · rw [found second others storesToo,found platform tables stores,mapped_congr mapping,signatures]
    · rw [fadt second others storesToo,mapped_congr mapping,signatures]
  · intro rsdp root valid
    obtain ⟨_,long,_⟩ := (platform.validateSDT_iff root).mp valid
    refine ⟨long,platform.entryCount_toNat long,fun i => platform.pointer_inside long,fun pointer same => ?_⟩
    have pointers : platform.pointersOf rsdp root = (List.range (platform.entryCount rsdp root).toNat).map pointer := by
      apply List.map_congr_left
      intro i member
      exact (same i (List.mem_range.mp member)).symm
    constructor
    · rw [platform.tableLoop_eq readable unbroken,platform.tableLoop_eq readable unbroken,← List.range_eq_range',← pointersOf,
        pointers]
    · rw [platform.findFADT_eq,pointers]

/-! Four tables, two of them with the signature `APIC`, under an RSDT and under an XSDT. -/

def fourSignatures : List (List UInt8) :=
  [ascii ['A','P','I','C'],ascii ['F','A','C','P'],ascii ['A','P','I','C'],ascii ['S','S','D','T']]

def fourAddresses : List Word := [0x3000,0x4000,0x5000,0x6000]

/-- The RSDP is at `0x1000`, the root table with pointers of `size` bytes at `0x2000`, and each
of the four tables on a page of its own. -/
def fourTables (revision : UInt8) (size : Nat) : Platform where
  memory := fun address =>
    let offset := address.toNat % 4096
    if address.toNat / 4096 = 1 then if offset = 15 then revision else 0
    else if address.toNat / 4096 = 2 then
      if offset = 4 then UInt8.ofNat (36 + size * 4)
      else if 36 ≤ offset ∧ (offset - 36) % size = 1 then UInt8.ofNat (0x30 + 0x10 * ((offset - 36) / size))
      else 0
    else (fourSignatures.getD (address.toNat / 4096 - 3) []).getD offset 0
  higherHalf := 0#64
  rsdpResponse := some 0x1000#64
  minimumLogLevel := .info
  controlReads := fun _ => 1#16

def rsdtTables : Tables := ⟨0x1000#64,0x2000#64,0#64,0#64,0#64,0#64⟩

def xsdtTables : Tables := ⟨0x1000#64,0#64,0x1000#64,0x2000#64,0#64,0#64⟩

theorem stores_fourAddresses {platform : Platform} {tables : Tables}
    (length : (platform.sdtLength (platform.rootOf tables)).toNat = sizeofSDTHeader + platform.pointerSize tables.rsdp * 4)
    (bytes : ∀ k < 4, ∀ i < platform.pointerSize tables.rsdp,
      platform.byteAt (platform.rootOf tables) (sizeofSDTHeader + platform.pointerSize tables.rsdp * k + i) =
        UInt8.ofBitVec ((fourAddresses.getD k 0).extractLsb' (8 * i) 8)) : platform.Stores tables fourAddresses := by
  refine ⟨length,?_,by simp [fourAddresses]⟩
  intro k address listed i inside
  obtain ⟨bound,same⟩ := List.getElem?_eq_some_iff.mp listed
  rw [bytes k bound i inside,List.getD_eq_getElem?_getD,listed,Option.getD_some]

/-- The second table with a signature that occurs twice is the third one in either root. -/
theorem lookup_secondOfTwo : (fourTables 0 4).Stores rsdtTables fourAddresses ∧ (fourTables 2 8).Stores xsdtTables fourAddresses ∧
    (fourTables 0 4).getTable rsdtTables (.literal (ascii ['A','P','I','C'])) 1 = .ok 0x5000#64 ∧
    (fourTables 2 8).getTable xsdtTables (.literal (ascii ['A','P','I','C'])) 1 = .ok 0x5000#64 ∧
    (fourTables 2 8).findFADT 0x1000#64 0x2000#64 [] = .ok 0x4000#64 [.search 0x2000#64] := by
  have narrow : (fourTables 0 4).Stores rsdtTables fourAddresses :=
    stores_fourAddresses (by decide +kernel) (by decide +kernel)
  have wide : (fourTables 2 8).Stores xsdtTables fourAddresses :=
    stores_fourAddresses (by decide +kernel) (by decide +kernel)
  obtain ⟨found,fadt,alike,_⟩ := lookup_same_in_either_root (fourTables 0 4) rsdtTables fourAddresses narrow
    (.literal (ascii ['A','P','I','C'])) (StringView.readable_literal _) (by rw [StringView.text_literal]; decide)
    (by rw [StringView.text_literal]; decide) 1 []
  have signatures : ∀ address ∈ fourAddresses, (fourTables 2 8).signatureOf (address + (fourTables 0 4).higherHalf) =
      (fourTables 0 4).signatureOf (address + (fourTables 0 4).higherHalf) := by
    simp only [fourAddresses,List.forall_mem_cons]
    exact ⟨by decide +kernel,by decide +kernel,by decide +kernel,by decide +kernel,fun _ => by simp⟩
  obtain ⟨same,table,first,second⟩ := alike (fourTables 2 8) xsdtTables wide rfl signatures
  have third : (fourTables 0 4).getTable rsdtTables (.literal (ascii ['A','P','I','C'])) 1 = .ok 0x5000#64 :=
    found.trans (by decide +kernel)
  have root : (fourTables 2 8).rootOf xsdtTables = 0x2000#64 := by decide +kernel
  have named : (fourTables 0 4).mapped ((fourTables 0 4).withSignature (ascii ['F','A','C','P']) fourAddresses)[0]? =
    0x4000#64 := by decide +kernel
  rw [fadt,named] at first
  cases first
  rw [root] at second
  exact ⟨narrow,wide,third,same.trans third,second⟩

end BorealOS.Firmware.ACPI.Platform
