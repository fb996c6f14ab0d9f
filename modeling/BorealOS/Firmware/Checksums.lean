import BorealOS.Firmware.RootTrust

/-! What the checksums of the root structures detect. The bytes of a structure sum to 0
modulo 256 for exactly one value of each of its bytes, so no single byte can
change; only the length field decides itself which bytes are summed up. -/
namespace BorealOS.Firmware.ACPI.Platform

def poke (platform : Platform) (address : Word) (offset : Nat) (byte : UInt8) : Platform :=
  { platform with memory := Function.update platform.memory (address + BitVec.ofNat 64 offset) byte }

section Poke
variable (platform : Platform) (address : Word) {i : Nat} (small : i < 2^32) (byte : UInt8)
include small

theorem byteAt_poke {offset : Nat} (inside : offset < 2^32) :
    (platform.poke address i byte).byteAt address offset = if offset = i then byte else platform.byteAt address offset := by
  have same : address + BitVec.ofNat 64 offset = address + BitVec.ofNat 64 i ↔ offset = i := by
    rw [BitVec.add_right_inj,← BitVec.toNat_inj,BitVec.toNat_ofNat,BitVec.toNat_ofNat,Nat.mod_eq_of_lt (by omega),
      Nat.mod_eq_of_lt (by omega)]
  simp only [byteAt,poke,Function.update_apply,same]

theorem uint32_poke {offset : Nat} (inside : offset + 4 ≤ 2^32) (apart : i < offset ∨ offset + 4 ≤ i) :
    (platform.poke address i byte).uint32 address offset = platform.uint32 address offset := by
  unfold uint32
  rw [byteAt_poke platform address small byte (show offset + 3 < 2^32 by omega),if_neg (by omega),
    byteAt_poke platform address small byte (show offset + 2 < 2^32 by omega),if_neg (by omega),
    byteAt_poke platform address small byte (show offset + 1 < 2^32 by omega),if_neg (by omega),
    byteAt_poke platform address small byte (show offset < 2^32 by omega),if_neg (by omega)]

omit small in
theorem poke_self (platform : Platform) (address : Word) (i : Nat) :
    platform.poke address i (platform.byteAt address i) = platform := by
  simp [poke,byteAt]

end Poke

section Sum
variable (platform : Platform) (address : Word) {length i : Nat} (inside : i < length) (long : length ≤ 2^32)

def sumOfOthers (length i : Nat) : Nat := ∑ j ∈ (Finset.range length).erase i, (platform.byteAt address j).toNat

theorem checksummed_iff_sum (length : Nat) :
    platform.Checksummed address length ↔ (∑ j ∈ Finset.range length, (platform.byteAt address j).toNat) % 256 = 0 := Iff.rfl

include inside long

theorem checksummed_poke_iff (byte : UInt8) : (platform.poke address i byte).Checksummed address length ↔
    (byte.toNat + platform.sumOfOthers address length i) % 256 = 0 := by
  have changed : ((platform.poke address i byte).byteAt address i).toNat = byte.toNat := by
    rw [byteAt_poke platform address (by omega) byte (by omega),if_pos rfl]
  have others : (platform.poke address i byte).sumOfOthers address length i = platform.sumOfOthers address length i := by
    apply Finset.sum_congr rfl
    intro j member
    obtain ⟨apart,within⟩ := Finset.mem_erase.mp member
    have bound := Finset.mem_range.mp within
    rw [byteAt_poke platform address (by omega) byte (by omega),if_neg apart]
  rw [checksummed_iff_sum,← Finset.add_sum_erase _ _ (Finset.mem_range.mpr inside),changed,← others]
  rfl

theorem existsUnique_checksummed : ∃! byte, (platform.poke address i byte).Checksummed address length := by
  simp only [checksummed_poke_iff platform address inside long]
  refine ⟨UInt8.ofNat (256 - platform.sumOfOthers address length i % 256),?_,?_⟩
  · simp only [UInt8.toNat_ofNat']
    omega
  · intro byte completes
    apply UInt8.toNat_inj.mp
    have bound := byte.toNat_lt
    simp only [UInt8.toNat_ofNat']
    omega

theorem not_checksummed_poke (valid : platform.Checksummed address length) {byte : UInt8}
    (differs : byte ≠ platform.byteAt address i) : ¬ (platform.poke address i byte).Checksummed address length := by
  intro again
  have first : (platform.poke address i (platform.byteAt address i)).Checksummed address length := by rwa [poke_self]
  exact differs ((existsUnique_checksummed platform address inside long).unique again first)

end Sum

theorem checksummed_poke_outside (platform : Platform) (address : Word) {length i : Nat} (outside : length ≤ i) (small : i < 2^32)
    (byte : UInt8) : (platform.poke address i byte).Checksummed address length ↔ platform.Checksummed address length := by
  rw [checksummed_iff_sum,checksummed_iff_sum]
  have same : ∀ j ∈ Finset.range length,
      ((platform.poke address i byte).byteAt address j).toNat = (platform.byteAt address j).toNat := by
    intro j member
    have bound := Finset.mem_range.mp member
    rw [byteAt_poke platform address small byte (by omega),if_neg (by omega)]
  rw [Finset.sum_congr rfl same]

theorem length_le (length : BitVec 32) : length.toNat ≤ 2^32 := length.isLt.le

section Validators
variable (platform : Platform) (address : Word)

theorem validateXSDP_rejects_change (valid : platform.validateXSDP address = true) {i : Nat}
    (inside : i < (platform.xsdpLength address).toNat) (apart : i < 20 ∨ 24 ≤ i) {byte : UInt8}
    (differs : byte ≠ platform.byteAt address i) : (platform.poke address i byte).validateXSDP address = false := by
  obtain ⟨_,_,_,sum⟩ := (platform.validateXSDP_iff address).mp valid
  have long := length_le (platform.xsdpLength address)
  have length : (platform.poke address i byte).xsdpLength address = platform.xsdpLength address :=
    uint32_poke platform address (by omega) byte (by omega) apart
  rw [Bool.eq_false_iff,ne_eq,validateXSDP_iff,length]
  rintro ⟨_,_,_,again⟩
  exact not_checksummed_poke platform address inside long sum differs again

theorem validateSDT_rejects_change (valid : platform.validateSDT address = true) {i : Nat}
    (inside : i < (platform.sdtLength address).toNat) (apart : i < 4 ∨ 8 ≤ i) {byte : UInt8}
    (differs : byte ≠ platform.byteAt address i) : (platform.poke address i byte).validateSDT address = false := by
  obtain ⟨_,_,sum⟩ := (platform.validateSDT_iff address).mp valid
  have long := length_le (platform.sdtLength address)
  have length : (platform.poke address i byte).sdtLength address = platform.sdtLength address :=
    uint32_poke platform address (by omega) byte (by omega) apart
  rw [Bool.eq_false_iff,ne_eq,validateSDT_iff,length]
  rintro ⟨_,_,again⟩
  exact not_checksummed_poke platform address inside long sum differs again

theorem existsUnique_validateSDT (mapped : address ≠ 0#64) (long : 36 ≤ (platform.sdtLength address).toNat) :
    ∃! byte, (platform.poke address 9 byte).validateSDT address = true := by
  have length : ∀ byte, (platform.poke address 9 byte).sdtLength address = platform.sdtLength address := fun byte =>
    uint32_poke platform address (by decide) byte (by decide) (by decide)
  simp only [validateSDT_iff,length,mapped,long,ne_eq,not_false_eq_true,true_and]
  exact existsUnique_checksummed platform address (by omega) (length_le _)

theorem existsUnique_validateXSDP (root : platform.validateRSDP address = true)
    (long : 36 ≤ (platform.xsdpLength address).toNat) :
    ∃! byte, (platform.poke address 32 byte).validateXSDP address = true := by
  obtain ⟨mapped,first⟩ := (platform.validateRSDP_iff address).mp root
  have length : ∀ byte, (platform.poke address 32 byte).xsdpLength address = platform.xsdpLength address := fun byte =>
    uint32_poke platform address (by decide) byte (by decide) (by decide)
  have part : ∀ byte, (platform.poke address 32 byte).Checksummed address 20 := fun byte =>
    (checksummed_poke_outside platform address (by decide) (by decide) byte).mpr first
  simp only [validateXSDP_iff,length,part,mapped,long,ne_eq,not_false_eq_true,true_and]
  exact existsUnique_checksummed platform address (by omega) (length_le _)

end Validators

/-- A change of one byte outside of the length field makes a validator reject what it has
accepted, and exactly one checksum byte makes it accept a structure whose length
suffices. The checksum of a table is at offset 9, the extended one at 32. -/
theorem checksums_detect_changes (platform : Platform) (address : Word) :
    (platform.validateXSDP address = true → ∀ i < (platform.xsdpLength address).toNat, (i < 20 ∨ 24 ≤ i) →
      ∀ byte, byte ≠ platform.byteAt address i → (platform.poke address i byte).validateXSDP address = false) ∧
    (platform.validateSDT address = true → ∀ i < (platform.sdtLength address).toNat, (i < 4 ∨ 8 ≤ i) →
      ∀ byte, byte ≠ platform.byteAt address i → (platform.poke address i byte).validateSDT address = false) ∧
    (address ≠ 0#64 → 36 ≤ (platform.sdtLength address).toNat →
      ∃! byte, (platform.poke address 9 byte).validateSDT address = true) ∧
    (platform.validateRSDP address = true → 36 ≤ (platform.xsdpLength address).toNat →
      ∃! byte, (platform.poke address 32 byte).validateXSDP address = true) :=
  ⟨fun valid _ inside apart _ differs => platform.validateXSDP_rejects_change address valid inside apart differs,
    fun valid _ inside apart _ differs => platform.validateSDT_rejects_change address valid inside apart differs,
    platform.existsUnique_validateSDT address,platform.existsUnique_validateXSDP address⟩

theorem checksums_detect_signature : wrongChecksum.validateSDT 0x2000#64 = true ∧
    (wrongChecksum.poke 0x2000#64 0 1).validateSDT 0x2000#64 = false := by
  have valid : wrongChecksum.validateSDT 0x2000#64 = true := by decide +kernel
  have rejects := (checksums_detect_changes wrongChecksum 0x2000#64).2.1 valid
  exact ⟨valid,rejects 0 (by decide) (by decide) 1 (by decide)⟩

end BorealOS.Firmware.ACPI.Platform
