import BorealOS.Interrupts.IOAPIC
import BorealOS.Library.BitField

/-! The redirection table as the device holds it: the two registers of an entry show all
fields of the last call for its interrupt, whatever calls were made. -/
namespace BorealOS.Interrupts

/-- The delivery mode of three bits, two values of which are reserved. -/
def DeliveryMode.ofBits (bits : BitVec 3) : Option DeliveryMode :=
  [.fixed,.lowestPriority,.smi,.nmi,.init,.extINT].find? fun mode => mode.value.setWidth 3 = bits

/-- The fields of a pair of registers at their 82093AA positions. -/
def RedirectionEntry.decode (low high : BitVec 32) : Option RedirectionEntry := do
  let deliveryMode ← DeliveryMode.ofBits (low.extractLsb' 8 3)
  some {
    vector := low.extractLsb' 0 8
    deliveryMode
    destinationMode := if low.getLsbD 11 then .logical else .physical
    polarity := if low.getLsbD 13 then .activeLow else .activeHigh
    triggerMode := if low.getLsbD 15 then .level else .edge
    masked := low.getLsbD 16
    destination := high.extractLsb' 24 8 }

/-- The two halves of an entry, as `SetRedirectionEntryInternal` writes them. -/
def lowHalf (entry : Word) : BitVec 32 := (entry &&& 0xFFFFFFFF#64).setWidth 32

def highHalf (entry : Word) : BitVec 32 := (entry >>> 32 &&& 0xFFFFFFFF#64).setWidth 32

theorem lowHalf_eq (entry : Word) : lowHalf entry = entry.extractLsb' 0 32 := BitField.setWidth_and_ones entry (by omega)

theorem highHalf_eq (entry : Word) : highHalf entry = entry.extractLsb' 32 32 :=
  (BitField.setWidth_and_ones (entry >>> 32) (by omega)).trans (BitField.extractLsb'_ushiftRight entry 32 32)

@[simp] theorem getLsbD_lowHalf (entry : Word) {k : Nat} (small : k < 32) :
    (lowHalf entry).getLsbD k = entry.getLsbD k := by
  rw [lowHalf_eq,BitVec.getLsbD_extractLsb',decide_eq_true small,Bool.true_and,Nat.zero_add]

@[simp] theorem getLsbD_highHalf (entry : Word) {k : Nat} (small : k < 32) :
    (highHalf entry).getLsbD k = entry.getLsbD (32 + k) := by
  rw [highHalf_eq,BitVec.getLsbD_extractLsb',decide_eq_true small,Bool.true_and]

namespace RedirectionEntry

private theorem deliveryMode_bit (mode : DeliveryMode) {k : Nat} (beyond : 3 ≤ k) : mode.value.getLsbD k = false := by
  by_cases inside : k < 8
  · interval_cases k <;> cases mode <;> rfl
  · exact BitVec.getLsbD_of_ge _ _ (by omega)

private theorem destinationMode_bit (mode : DestinationMode) (k : Nat) :
    mode.value.getLsbD k = (decide (k = 0) && decide (mode = .logical)) := by
  cases mode <;> simp [DestinationMode.value,BitVec.getLsbD_one]

private theorem polarity_bit (polarity : Polarity) (k : Nat) :
    polarity.value.getLsbD k = (decide (k = 0) && decide (polarity = .activeLow)) := by
  cases polarity <;> simp [Polarity.value,BitVec.getLsbD_one]

private theorem triggerMode_bit (mode : TriggerMode) (k : Nat) :
    mode.value.getLsbD k = (decide (k = 0) && decide (mode = .level)) := by
  cases mode <;> simp [TriggerMode.value,BitVec.getLsbD_one]

private theorem masked_bit (masked : Bool) {k : Nat} (small : k < 64) :
    (if masked then 1#64 <<< 16 else 0#64).getLsbD k = (decide (k = 16) && masked) := by
  cases masked with
  | false => simp
  | true =>
    simp only [if_true,BitVec.getLsbD_shiftLeft,BitVec.getLsbD_one]
    grind

private theorem field_bit (value : BitVec 8) (place : Nat) {k : Nat} (small : k < 64) :
    (value.setWidth 64 <<< place).getLsbD k = (decide (place ≤ k) && value.getLsbD (k - place)) := by
  have inside : k - place < 64 := by omega
  simp only [BitVec.getLsbD_shiftLeft,BitVec.getLsbD_setWidth,small,inside,decide_true,Bool.true_and]
  by_cases below : k < place
  · simp [below]
  · simp [below,Nat.le_of_not_lt below]

theorem getLsbD_pack (entry : RedirectionEntry) {k : Nat} (small : k < 64) :
    entry.pack.getLsbD k =
      if k < 8 then entry.vector.getLsbD k
      else if k < 11 then entry.deliveryMode.value.getLsbD (k - 8)
      else if k = 11 then decide (entry.destinationMode = .logical)
      else if k = 13 then decide (entry.polarity = .activeLow)
      else if k = 15 then decide (entry.triggerMode = .level)
      else if k = 16 then entry.masked
      else if 56 ≤ k then entry.destination.getLsbD (k - 56)
      else false := by
  have above : 8 ≤ k → entry.vector.getLsbD k = false := BitVec.getLsbD_of_ge _ _
  have delivery : 11 ≤ k → entry.deliveryMode.value.getLsbD (k - 8) = false := fun bound =>
    deliveryMode_bit entry.deliveryMode (by omega)
  simp only [pack,BitVec.getLsbD_or,field_bit _ _ small,BitVec.getLsbD_setWidth,destinationMode_bit,polarity_bit,
    triggerMode_bit,masked_bit _ small,small,decide_true,Bool.true_and]
  split_ifs with vector mode <;> grind

private theorem pack_vector (entry : RedirectionEntry) : (lowHalf entry.pack).extractLsb' 0 8 = entry.vector := by
  apply BitVec.eq_of_getLsbD_eq
  intro k bound
  rw [BitVec.getLsbD_extractLsb',Nat.zero_add,getLsbD_lowHalf _ (by omega),getLsbD_pack _ (by omega)]
  simp [bound]

private theorem pack_deliveryMode (entry : RedirectionEntry) :
    (lowHalf entry.pack).extractLsb' 8 3 = entry.deliveryMode.value.setWidth 3 := by
  apply BitVec.eq_of_getLsbD_eq
  intro k bound
  have lower : ¬ 8 + k < 8 := by omega
  have upper : 8 + k < 11 := by omega
  rw [BitVec.getLsbD_extractLsb',getLsbD_lowHalf _ (by omega),getLsbD_pack _ (by omega),if_neg lower,if_pos upper,
    Nat.add_sub_cancel_left,BitVec.getLsbD_setWidth]

private theorem pack_destination (entry : RedirectionEntry) :
    (highHalf entry.pack).extractLsb' 24 8 = entry.destination := by
  apply BitVec.eq_of_getLsbD_eq
  intro k bound
  have place : 32 + (24 + k) = 56 + k := by omega
  rw [BitVec.getLsbD_extractLsb',getLsbD_highHalf _ (by omega),getLsbD_pack _ (by omega),place]
  grind

theorem ofBits_value (mode : DeliveryMode) : DeliveryMode.ofBits (mode.value.setWidth 3) = some mode := by
  cases mode <;> rfl

theorem decode_pack (entry : RedirectionEntry) : decode (lowHalf entry.pack) (highHalf entry.pack) = some entry := by
  have bits : ∀ k, k < 32 → (lowHalf entry.pack).getLsbD k = entry.pack.getLsbD k := fun k => getLsbD_lowHalf entry.pack
  simp only [decode,pack_vector,pack_deliveryMode,pack_destination,ofBits_value,bits 11 (by omega),bits 13 (by omega),
    bits 15 (by omega),bits 16 (by omega),getLsbD_pack entry (by omega : 11 < 64),getLsbD_pack entry (by omega : 13 < 64),
    getLsbD_pack entry (by omega : 15 < 64),getLsbD_pack entry (by omega : 16 < 64)]
  obtain ⟨vector,deliveryMode,destinationMode,polarity,triggerMode,masked,destination⟩ := entry
  cases destinationMode <;> cases polarity <;> cases triggerMode <;> rfl

def quiet : RedirectionEntry := { vector := 0#8, masked := true, destination := 0#8 }

theorem pack_quiet : quiet.pack = RedirectionFlags.masked := by decide

end RedirectionEntry

def entryRegister (i : Nat) : BitVec 8 := BitVec.ofNat 8 (0x10 + 2 * i)

def lastEntry (calls : List (BitVec 32 × RedirectionEntry)) (gsi : Nat) : RedirectionEntry :=
  calls.foldl (fun entry call => if call.1.toNat = gsi then call.2 else entry) .quiet

def IOAPICDevice.reportedEntries (device : IOAPICDevice) : Nat :=
  (device.registers 1#8 >>> 16 &&& 0xFF#32).toNat + 1

/-- The registers reflect the calls: each entry is that of the last call for it, and the
registers of no entry are as they were. -/
structure Reflects (before registers : BitVec 8 → BitVec 32) (gsiBase : BitVec 32) (n : Nat)
    (calls : List (BitVec 32 × RedirectionEntry)) : Prop where
  entries : ∀ i < n, RedirectionEntry.decode (registers (entryRegister i)) (registers (entryRegister i + 1#8)) =
    some (lastEntry calls (gsiBase.toNat + i))
  kept : ∀ register : BitVec 8, register.toNat < 0x10 ∨ 0x10 + 2 * n ≤ register.toNat → registers register = before register

/-- The registers show the entries that were set, and those of no entry below `n` are as
they were. -/
structure Shows (before registers : BitVec 8 → BitVec 32) (n : Nat) (entries : Nat → Option RedirectionEntry) : Prop where
  shown : ∀ i < n, ∀ entry, entries i = some entry →
    RedirectionEntry.decode (registers (entryRegister i)) (registers (entryRegister i + 1#8)) = some entry
  kept : ∀ register : BitVec 8, register.toNat < 0x10 ∨ 0x10 + 2 * n ≤ register.toNat → registers register = before register

theorem Shows.initial (registers : BitVec 8 → BitVec 32) (n : Nat) : Shows registers registers n fun _ => none where
  shown := fun i _ entry impossible => by simp at impossible
  kept := fun _ _ => rfl

theorem entryRegister_toNat {i : Nat} (bound : i < 120) : (entryRegister i).toNat = 0x10 + 2 * i := by
  rw [entryRegister,BitVec.toNat_ofNat]
  omega

theorem entryRegister_succ_toNat {i : Nat} (bound : i < 120) : (entryRegister i + 1#8).toNat = 0x11 + 2 * i := by
  rw [BitVec.toNat_add,entryRegister_toNat bound]
  simp only [BitVec.toNat_ofNat]
  omega

theorem entryRegister_ne {i j : Nat} (first : i < 120) (second : j < 120) (different : i ≠ j) :
    entryRegister i ≠ entryRegister j ∧ entryRegister i + 1#8 ≠ entryRegister j + 1#8 := by
  constructor
  · intro same
    have numbers := congrArg BitVec.toNat same
    rw [entryRegister_toNat first,entryRegister_toNat second] at numbers
    omega
  · intro same
    have numbers := congrArg BitVec.toNat same
    rw [entryRegister_succ_toNat first,entryRegister_succ_toNat second] at numbers
    omega

theorem entryRegister_ne_succ {i j : Nat} (first : i < 120) (second : j < 120) : entryRegister i ≠ entryRegister j + 1#8 := by
  intro same
  have numbers := congrArg BitVec.toNat same
  rw [entryRegister_toNat first,entryRegister_succ_toNat second] at numbers
  omega

def writeEntry (registers : BitVec 8 → BitVec 32) (i : Nat) (entry : Word) : BitVec 8 → BitVec 32 :=
  Function.update (Function.update registers (entryRegister i + 1#8) (highHalf entry)) (entryRegister i) (lowHalf entry)

theorem Shows.write {before registers : BitVec 8 → BitVec 32} {n i : Nat} {entries : Nat → Option RedirectionEntry}
    (shows : Shows before registers n entries) (few : n ≤ 120) (inside : i < n) (entry : RedirectionEntry) :
    Shows before (writeEntry registers i entry.pack) n (Function.update entries i (some entry)) where
  shown := by
    intro j bound other set
    -- up to 120 entries the register numbers do not wrap, so that no two entries share one
    by_cases same : j = i
    · rw [same,Function.update_self,Option.some.injEq] at set
      have apart := entryRegister_ne_succ (by omega : i < 120) (by omega : i < 120)
      rw [same,writeEntry,Function.update_self,Function.update_of_ne apart.symm,Function.update_self,← set]
      exact entry.decode_pack
    · rw [Function.update_of_ne same] at set
      obtain ⟨low,high⟩ := entryRegister_ne (by omega : j < 120) (by omega : i < 120) same
      have lowHigh := entryRegister_ne_succ (by omega : j < 120) (by omega : i < 120)
      have highLow := (entryRegister_ne_succ (by omega : i < 120) (by omega : j < 120)).symm
      rw [writeEntry,Function.update_of_ne low,Function.update_of_ne lowHigh,Function.update_of_ne highLow,
        Function.update_of_ne high]
      exact shows.shown j bound other set
  kept := by
    intro register outside
    have low : register ≠ entryRegister i := by
      intro same
      rw [same,entryRegister_toNat (by omega)] at outside
      omega
    have high : register ≠ entryRegister i + 1#8 := by
      intro same
      rw [same,entryRegister_succ_toNat (by omega)] at outside
      omega
    rw [writeEntry,Function.update_of_ne low,Function.update_of_ne high]
    exact shows.kept register outside

theorem IOAPICDevice.writeRegister_registers (device : IOAPICDevice) (register : BitVec 8) (value : BitVec 32) :
    (device.writeRegister (register.setWidth 32) value).registers = Function.update device.registers register value := by
  have selected : ((register.setWidth 32 &&& 0xFF#32).setWidth 8 : BitVec 8) = register := by
    revert register
    decide +kernel
  simp only [writeRegister,selected]

namespace IOAPIC

private theorem regLow_eq (index : BitVec 32) :
    (IOAPICRegister.redirectionTableBase + index * 2#32).setWidth 8 = entryRegister index.toNat := by
  apply BitVec.eq_of_toNat_eq
  simp only [entryRegister,IOAPICRegister.redirectionTableBase,BitVec.toNat_setWidth,BitVec.toNat_add,BitVec.toNat_mul,
    BitVec.toNat_ofNat]
  omega

theorem setRedirectionEntryInternal_eq {ioApic : IOAPIC} {index : BitVec 32}
    (inside : index.toNat < ioApic.maxRedirectionEntries.toNat) (entry : Word) :
    ∃ device, ioApic.setRedirectionEntryInternal index entry = { ioApic with device } ∧
      device.registers = writeEntry ioApic.device.registers index.toNat entry := by
  have present : ¬ ioApic.maxRedirectionEntries ≤ index := by
    rw [BitVec.le_def]
    omega
  simp only [setRedirectionEntryInternal,present,if_false,regLow_eq]
  refine ⟨_,rfl,?_⟩
  rw [IOAPICDevice.writeRegister_registers,IOAPICDevice.writeRegister_registers]
  rfl

/-- The driver of a device with `n` entries from `gsiBase` on, whose registers show `entries`. -/
structure Drives (before : BitVec 8 → BitVec 32) (gsiBase : BitVec 32) (n : Nat) (ioApic : IOAPIC)
    (entries : Nat → Option RedirectionEntry) : Prop where
  shows : Shows before ioApic.device.registers n entries
  base : ioApic.gsiBase = gsiBase
  size : ioApic.maxRedirectionEntries.toNat = n

variable {before : BitVec 8 → BitVec 32} {gsiBase : BitVec 32} {n : Nat} {ioApic : IOAPIC}
  {entries : Nat → Option RedirectionEntry}

theorem Drives.congr (drives : Drives before gsiBase n ioApic entries) {others : Nat → Option RedirectionEntry}
    (same : ∀ i < n, others i = entries i) : Drives before gsiBase n ioApic others where
  shows := ⟨fun i bound entry set => drives.shows.shown i bound entry (same i bound ▸ set),drives.shows.kept⟩
  base := drives.base
  size := drives.size

theorem Drives.setInternal (drives : Drives before gsiBase n ioApic entries) (few : n ≤ 120) {index : BitVec 32}
    (inside : index.toNat < n) (entry : RedirectionEntry) :
    Drives before gsiBase n (ioApic.setRedirectionEntryInternal index entry.pack)
      (Function.update entries index.toNat (some entry)) := by
  obtain ⟨device,result,registers⟩ := setRedirectionEntryInternal_eq (drives.size ▸ inside) entry.pack
  rw [result]
  refine ⟨?_,drives.base,drives.size⟩
  rw [registers]
  exact drives.shows.write few inside entry

theorem Drives.maskAll (drives : Drives before gsiBase n ioApic entries) (few : n ≤ 120) {count : Nat} (bound : count ≤ n) :
    Drives before gsiBase n ((List.range count).foldl
        (fun ioApic i => ioApic.setRedirectionEntryInternal (BitVec.ofNat 32 i) RedirectionFlags.masked) ioApic)
      (fun i => if i < count then some .quiet else entries i) := by
  induction count with
  | zero => exact drives.congr fun i _ => by simp
  | succ count ih =>
    have index : (BitVec.ofNat 32 count).toNat = count := by
      rw [BitVec.toNat_ofNat]
      omega
    rw [List.range_succ,List.foldl_append,List.foldl_cons,List.foldl_nil,← RedirectionEntry.pack_quiet]
    rw [← RedirectionEntry.pack_quiet] at ih
    refine ((ih (by omega)).setInternal few (by omega) .quiet).congr ?_
    intro i _
    rw [index,Function.update_apply]
    by_cases last : i = count
    · simp [last]
    · have step : i < count + 1 ↔ i < count := by omega
      simp [last,step]

theorem hasGSI_iff {ioApic : IOAPIC} (fits : ioApic.gsiBase.toNat + ioApic.maxRedirectionEntries.toNat < 2^32)
    (gsi : BitVec 32) : ioApic.hasGSI gsi = true ↔ ioApic.gsiBase.toNat ≤ gsi.toNat ∧
      gsi.toNat < ioApic.gsiBase.toNat + ioApic.maxRedirectionEntries.toNat := by
  have last : (ioApic.gsiBase + ioApic.maxRedirectionEntries).toNat =
      ioApic.gsiBase.toNat + ioApic.maxRedirectionEntries.toNat := BitVec.toNat_add_of_lt fits
  simp only [hasGSI,Bool.and_eq_true,decide_eq_true_eq,BitVec.le_def,BitVec.lt_def,last]

theorem Drives.set (drives : Drives before gsiBase n ioApic entries) (few : n ≤ 120) (fits : gsiBase.toNat + n < 2^32)
    (gsi : BitVec 32) (entry : RedirectionEntry) :
    Drives before gsiBase n (ioApic.setRedirectionEntry gsi entry)
      (fun i => if gsi.toNat = gsiBase.toNat + i then some entry else entries i) := by
  have owned := hasGSI_iff (by rwa [drives.base,drives.size]) gsi
  rw [drives.base,drives.size] at owned
  unfold setRedirectionEntry setRawRedirectionEntry
  split
  · rename_i here
    obtain ⟨lower,upper⟩ := owned.mp here
    have index : (gsi - ioApic.gsiBase).toNat = gsi.toNat - gsiBase.toNat := by
      rw [drives.base]
      exact BitVec.toNat_sub_of_le lower
    refine (drives.setInternal few (index ▸ by omega) entry).congr ?_
    intro i _
    rw [index,Function.update_apply]
    have place : gsi.toNat = gsiBase.toNat + i ↔ i = gsi.toNat - gsiBase.toNat := by omega
    simp only [place]
  · rename_i elsewhere
    apply drives.congr
    intro i bound
    have other : gsi.toNat ≠ gsiBase.toNat + i := fun same => elsewhere (owned.mpr (by omega))
    simp [other]

def setRedirectionEntries (ioApic : IOAPIC) (calls : List (BitVec 32 × RedirectionEntry)) : IOAPIC :=
  calls.foldl (fun ioApic call => ioApic.setRedirectionEntry call.1 call.2) ioApic

theorem Drives.setAll {shown : Nat → RedirectionEntry} (drives : Drives before gsiBase n ioApic fun i => some (shown i))
    (few : n ≤ 120) (fits : gsiBase.toNat + n < 2^32) (calls : List (BitVec 32 × RedirectionEntry)) :
    Drives before gsiBase n (ioApic.setRedirectionEntries calls) fun i =>
      some (calls.foldl (fun entry call => if call.1.toNat = gsiBase.toNat + i then call.2 else entry) (shown i)) := by
  induction calls generalizing ioApic shown with
  | nil => exact drives
  | cons call calls ih =>
    apply ih
    refine (drives.set few fits call.1 call.2).congr ?_
    intro i _
    by_cases here : call.1.toNat = gsiBase.toNat + i <;> simp [here]

theorem initializeAt_drives {device : IOAPICDevice} {ioApicAddr : Word} (mapped : ioApicAddr ≠ 0#64)
    (gsiBase : BitVec 32) (ioApicId : BitVec 8) (few : device.reportedEntries ≤ 120) :
    ∃ ioApic, initializeAt device ioApicAddr gsiBase ioApicId = .ok ioApic ∧
      Drives device.registers gsiBase device.reportedEntries ioApic fun _ => some .quiet := by
  have size : (((device.readRegister IOAPICRegister.ver).1 >>> 16 &&& 0xFF#32) + 1#32).toNat = device.reportedEntries := by
    rw [BitVec.toNat_add]
    exact Nat.mod_eq_of_lt (Nat.lt_of_le_of_lt few (by omega))
  have start : Drives device.registers gsiBase device.reportedEntries
      ⟨gsiBase,ioApicId,((device.readRegister IOAPICRegister.ver).1 &&& 0xFF#32).setWidth 16,
        ((device.readRegister IOAPICRegister.ver).1 >>> 16 &&& 0xFF#32) + 1#32,(device.readRegister IOAPICRegister.ver).2⟩
      fun _ => none :=
    ⟨Shows.initial _ _,rfl,size⟩
  simp only [initializeAt,mapped,if_false,size]
  refine ⟨_,rfl,(start.maskAll few (Nat.le_refl _)).congr ?_⟩
  intro i bound
  simp [bound]

theorem Drives.reflects {shown : Nat → RedirectionEntry} (drives : Drives before gsiBase n ioApic fun i => some (shown i))
    {calls : List (BitVec 32 × RedirectionEntry)} (last : ∀ i < n, shown i = lastEntry calls (gsiBase.toNat + i)) :
    Reflects before ioApic.device.registers gsiBase n calls where
  entries := by
    intro i bound
    rw [← last i bound]
    exact drives.shows.shown i bound (shown i) rfl
  kept := drives.shows.kept

/-- A table that ends at the last interrupt number: the end wraps to 0 and no interrupt is
below it, so that every call is dropped. -/
theorem Drives.set_wrapping (drives : Drives before gsiBase n ioApic entries) (wraps : gsiBase.toNat + n = 2^32)
    (gsi : BitVec 32) (entry : RedirectionEntry) : ioApic.setRedirectionEntry gsi entry = ioApic := by
  have last : gsiBase + ioApic.maxRedirectionEntries = 0#32 := by
    apply BitVec.eq_of_toNat_eq
    rw [BitVec.toNat_add,drives.size,wraps]
    rfl
  have elsewhere : ioApic.hasGSI gsi = false := by
    rw [hasGSI,drives.base,last,Bool.and_eq_false_iff]
    right
    exact decide_eq_false (BitVec.not_lt_zero)
  simp [setRedirectionEntry,setRawRedirectionEntry,elsewhere]

theorem Drives.not_reflects (drives : Drives before gsiBase n ioApic fun _ => some .quiet) (positive : 0 < n)
    (wraps : gsiBase.toNat + n = 2^32) :
    ¬ Reflects before (ioApic.setRedirectionEntries [(gsiBase,{ vector := 1#8, destination := 0#8 })]).device.registers
      gsiBase n [(gsiBase,{ vector := 1#8, destination := 0#8 })] := by
  intro reflects
  have expected := reflects.entries 0 positive
  have found := drives.shows.shown 0 positive .quiet rfl
  simp only [setRedirectionEntries,List.foldl_cons,List.foldl_nil,drives.set_wrapping wraps,found] at expected
  simp [lastEntry,RedirectionEntry.quiet] at expected

/-- The register file reflects every sequence of calls unless the table ends at the last
interrupt number. -/
theorem redirectionTable_reflects_iff (device : IOAPICDevice) {ioApicAddr : Word} (mapped : ioApicAddr ≠ 0#64)
    (gsiBase : BitVec 32) (ioApicId : BitVec 8) (few : device.reportedEntries ≤ 120)
    (numbered : gsiBase.toNat + device.reportedEntries ≤ 2^32) :
    (∀ calls, ∃ ioApic, initializeAt device ioApicAddr gsiBase ioApicId = .ok ioApic ∧
      Reflects device.registers (ioApic.setRedirectionEntries calls).device.registers gsiBase device.reportedEntries calls) ↔
    gsiBase.toNat + device.reportedEntries < 2^32 := by
  obtain ⟨ioApic,made,drives⟩ := initializeAt_drives mapped gsiBase ioApicId few
  constructor
  · intro always
    by_contra wraps
    obtain ⟨other,same,reflects⟩ := always [(gsiBase,{ vector := 1#8, destination := 0#8 })]
    rw [made,Except.ok.injEq] at same
    subst same
    exact drives.not_reflects (Nat.succ_pos _) (by omega) reflects
  · intro fits calls
    exact ⟨ioApic,made,(drives.setAll few fits calls).reflects fun i _ => rfl⟩

/-- A device with 24 entries, as version register `0x00170020` reports. -/
def twentyFourEntries : IOAPICDevice := ⟨0#32,Function.update (fun _ => 0#32) 1#8 0x00170020#32⟩

theorem redirectionTable_reflects_first :
    twentyFourEntries.reportedEntries = 24 ∧
    ∀ calls, ∃ ioApic, initializeAt twentyFourEntries 0x1000#64 0#32 0#8 = .ok ioApic ∧
      Reflects twentyFourEntries.registers (ioApic.setRedirectionEntries calls).device.registers 0#32 24 calls :=
  ⟨by decide,(redirectionTable_reflects_iff twentyFourEntries (by decide) 0#32 0#8 (by decide) (by decide)).mpr (by decide)⟩

/-- With the 24 last interrupt numbers, a call for the first of them changes nothing. -/
theorem redirectionTable_reflects_last :
    twentyFourEntries.reportedEntries = 24 ∧ (0xFFFFFFE8#32).toNat + 24 = 2^32 ∧
    ¬ ∀ calls, ∃ ioApic, initializeAt twentyFourEntries 0x1000#64 0xFFFFFFE8#32 0#8 = .ok ioApic ∧
      Reflects twentyFourEntries.registers (ioApic.setRedirectionEntries calls).device.registers 0xFFFFFFE8#32 24 calls := by
  refine ⟨by decide,by decide,?_⟩
  intro always
  obtain ⟨ioApic,made,drives⟩ := initializeAt_drives (by decide : 0x1000#64 ≠ 0#64) 0xFFFFFFE8#32 0#8
    (by decide : twentyFourEntries.reportedEntries ≤ 120)
  obtain ⟨other,same,reflects⟩ := always [(0xFFFFFFE8#32,{ vector := 1#8, destination := 0#8 })]
  rw [made,Except.ok.injEq] at same
  subst same
  exact drives.not_reflects (by decide) (by decide) reflects

end IOAPIC

end BorealOS.Interrupts
