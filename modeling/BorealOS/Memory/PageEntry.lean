import BorealOS.Memory.Paging

/-! The words of page tables: how an entry splits into the frame it points to
and its flags, and how an address splits into four indices and an offset. -/
namespace BorealOS.Memory.Paging

def frameOf (entry : Word) : Nat := frameNumber (entry &&& pointerMask)

def frameAddress (frame : Nat) : Word := BitVec.ofNat 64 frame * Architecture.pageSize

theorem and_pointerMask_toNat (entry : Word) :
    (entry &&& pointerMask).toNat = entry.toNat / 4096 % 2^40 * 4096 := by
  have mask : pointerMask.toNat = (2^40 - 1) * 2^12 := by decide
  have page : 4096 = 2^12 := by decide
  rw [BitVec.toNat_and,mask,page]
  apply Nat.eq_of_testBit_eq
  intro i
  rw [Nat.testBit_and,Nat.testBit_mul_two_pow,Nat.testBit_mul_two_pow,Nat.testBit_two_pow_sub_one,
    Nat.testBit_mod_two_pow,Nat.testBit_div_two_pow]
  by_cases low : 12 ≤ i
  · have shift : 12 + (i - 12) = i := by omega
    rw [Nat.add_comm] at shift
    simp only [low,decide_true,Bool.true_and,shift]
    exact Bool.and_comm _ _
  · simp [low]

theorem frameOf_eq (entry : Word) : frameOf entry = entry.toNat / 4096 % 2^40 := by
  rw [frameOf,frameNumber,and_pointerMask_toNat]
  omega

theorem frameAddress_toNat {frame : Nat} (small : frame < 2^40) :
    (frameAddress frame).toNat = frame * 4096 := by
  rw [frameAddress,BitVec.toNat_mul,BitVec.toNat_ofNat,Architecture.pageSize_toNat,
    Nat.mod_eq_of_lt (by omega : frame < 2^64),Nat.mod_eq_of_lt (by omega)]

theorem frameAddress_aligned (frame : Nat) : (frameAddress frame).toNat % 4096 = 0 := by
  rw [frameAddress,BitVec.toNat_mul,Architecture.pageSize_toNat]
  omega

@[simp] theorem frameNumber_frameAddress {frame : Nat} (small : frame < 2^40) :
    frameNumber (frameAddress frame) = frame := by
  rw [frameNumber,frameAddress_toNat small]
  omega

theorem and_pointerMask_of_aligned {address : Word} (aligned : address.toNat % 4096 = 0)
    (small : address.toNat < 2^52) : address &&& pointerMask = address := by
  apply BitVec.eq_of_toNat_eq
  rw [and_pointerMask_toNat]
  omega

theorem or_and_pointerMask {address flags : Word} (aligned : address.toNat % 4096 = 0)
    (small : address.toNat < 2^52) (apart : flags &&& pointerMask = 0) :
    (address ||| flags) &&& pointerMask = address := by
  rw [BitVec.and_or_distrib_right,and_pointerMask_of_aligned aligned small,apart]
  exact BitVec.or_zero

theorem pointerMask_apart (word : Word) : word &&& pointerMask &&& flagsMask = 0 := by
  rw [BitVec.and_assoc,show pointerMask &&& flagsMask = 0 from by decide]
  exact BitVec.and_zero

theorem frameAddress_apart {frame : Nat} (small : frame < 2^40) : frameAddress frame &&& flagsMask = 0 := by
  have value := frameAddress_toNat small
  rw [← and_pointerMask_of_aligned (frameAddress_aligned frame) (by omega)]
  exact pointerMask_apart _

theorem directoryFlags_apart : directoryFlags &&& pointerMask = 0 := by decide

theorem flag_apart (flag : Flag) : flag.bit &&& pointerMask = 0 := by cases flag <;> decide

theorem union_apart (flags : List Flag) : Flag.union flags &&& pointerMask = 0 := by
  induction flags with
  | nil => decide
  | cons flag flags ih =>
    rw [Flag.union,List.foldr_cons,BitVec.and_or_distrib_right,flag_apart]
    change 0 ||| (Flag.union flags &&& pointerMask) = 0
    rw [ih]
    decide

private theorem and_bit_ne_zero (entry : Word) (k : Nat) (small : k < 64) :
    (entry &&& (1#64 <<< k) != 0) = entry.getLsbD k := by
  have shifted : ∀ i, (1#64 <<< k).getLsbD i = decide (i = k) := by
    intro i
    rw [← BitVec.twoPow_eq,BitVec.getLsbD_twoPow]
    by_cases same : k = i
    · simp [same.symm,small]
    · simp [same,Ne.symm same]
  cases set : entry.getLsbD k with
  | true =>
    simp only [bne_iff_ne,ne_eq]
    intro zero
    have read := congrArg (fun word => BitVec.getLsbD word k) zero
    simp [shifted,set] at read
  | false =>
    have zero : entry &&& (1#64 <<< k) = 0 := by
      apply BitVec.eq_of_getLsbD_eq
      intro i _
      rw [BitVec.getLsbD_and,shifted]
      by_cases same : i = k
      · simp [same,set]
      · simp [same]
    simp [zero]

theorem present_eq (entry : Word) : present entry = entry.getLsbD 0 := and_bit_ne_zero entry 0 (by omega)

theorem huge_eq (entry : Word) : huge entry = entry.getLsbD 7 := and_bit_ne_zero entry 7 (by omega)

@[simp] theorem present_zero : present 0#64 = false := by decide

theorem present_or (first second : Word) : present (first ||| second) = (present first || present second) := by
  simp only [present_eq,BitVec.getLsbD_or]

theorem huge_or (first second : Word) : huge (first ||| second) = (huge first || huge second) := by
  simp only [huge_eq,BitVec.getLsbD_or]

theorem ne_zero_of_present {entry : Word} (set : present entry = true) : entry ≠ 0 := by
  rintro rfl
  exact absurd set (by decide)

private theorem low_bit_of_aligned {address : Word} (aligned : address.toNat % 4096 = 0) {k : Nat} (low : k < 12) :
    address.getLsbD k = false := by
  rw [← BitVec.testBit_toNat]
  have multiple : address.toNat = address.toNat / 4096 * 2^12 := by omega
  rw [multiple,Nat.testBit_mul_two_pow]
  simp [low]

theorem tableEntry_spec {frame : Nat} {flags : Word} (small : frame < 2^40) (apart : flags &&& pointerMask = 0)
    (set : present flags = true) :
    present (frameAddress frame ||| flags) = true ∧ huge (frameAddress frame ||| flags) = huge flags ∧
      (frameAddress frame ||| flags) &&& pointerMask = frameAddress frame ∧
      frameOf (frameAddress frame ||| flags) = frame := by
  have value := frameAddress_toNat small
  have aligned := frameAddress_aligned frame
  have pointer := or_and_pointerMask aligned (by omega) apart
  refine ⟨by rw [present_or,set,Bool.or_true],?_,pointer,?_⟩
  · rw [huge_or,huge_eq (frameAddress frame),low_bit_of_aligned aligned (by omega)]
    rfl
  · rw [frameOf,pointer,frameNumber_frameAddress small]

theorem frameAddress_eq_zero {frame : Nat} (small : frame < 2^40) : frameAddress frame = 0 ↔ frame = 0 := by
  constructor
  · intro zero
    have value := frameAddress_toNat small
    rw [zero] at value
    simp at value
    omega
  · rintro rfl
    decide

def leafWord (physicalAddress flags : Word) : Word :=
  (physicalAddress &&& pointerMask) ||| (flags ||| Flag.present.bit)

theorem present_leafWord (physicalAddress flags : Word) : present (leafWord physicalAddress flags) = true := by
  have set : present Flag.present.bit = true := by decide
  rw [leafWord,present_or,present_or,set,Bool.or_true,Bool.or_true]

theorem leafWord_and_pointerMask {physicalAddress flags : Word} (aligned : physicalAddress.toNat % 4096 = 0)
    (small : physicalAddress.toNat < 2^52) (apart : flags &&& pointerMask = 0) :
    leafWord physicalAddress flags &&& pointerMask = physicalAddress := by
  rw [leafWord,and_pointerMask_of_aligned aligned small]
  apply or_and_pointerMask aligned small
  rw [BitVec.and_or_distrib_right,apart,flag_apart]
  decide

theorem and_pageMask (address : Word) : (address &&& (Architecture.pageSize - 1) = 0) ↔ address.toNat % 4096 = 0 := by
  have mask : (Architecture.pageSize - 1).toNat = 2^12 - 1 := by decide
  have low : (address &&& (Architecture.pageSize - 1)).toNat = address.toNat % 4096 := by
    rw [BitVec.toNat_and,mask,Nat.and_two_pow_sub_one_eq_mod]
  constructor
  · intro zero
    rw [← low,zero]
    rfl
  · intro zero
    apply BitVec.eq_of_toNat_eq
    rw [low,zero]
    rfl

theorem or_pageOffset_toNat (entry address : Word) :
    ((entry &&& pointerMask) ||| (address &&& 0xFFF)).toNat =
      (entry &&& pointerMask).toNat + address.toNat % 4096 := by
  have mask : (0xFFF : Word).toNat = 2^12 - 1 := by decide
  have bound : address.toNat % 2^12 < 2^12 := Nat.mod_lt _ (by omega)
  rw [BitVec.toNat_or,BitVec.toNat_and (x := address),mask,Nat.and_two_pow_sub_one_eq_mod,
    and_pointerMask_toNat,show 4096 = 2^12 from rfl,← Nat.shiftLeft_eq,Nat.shiftLeft_add_eq_or_of_lt bound]

/-! Indices of an address. -/

theorem tableIndex_val (address : Word) (shift : Nat) :
    (tableIndex address shift).val = address.toNat / 2^shift % 512 := by
  have mask : (0x1FF : Word).toNat = 2^9 - 1 := by decide
  change ((address >>> shift) &&& 0x1FF).toNat = _
  rw [BitVec.toNat_and,mask,Nat.and_two_pow_sub_one_eq_mod,BitVec.toNat_ushiftRight,
    Nat.shiftRight_eq_div_pow]

def directoryPath (address : Word) : List (Fin 512) :=
  [tableIndex address 39,tableIndex address 30,tableIndex address 21]

def pageOf (address : Word) : BitVec 36 := address.extractLsb' 12 36

theorem pageOf_toNat (address : Word) : (pageOf address).toNat = address.toNat / 4096 % 2^36 := by
  rw [pageOf,BitVec.extractLsb'_toNat,Nat.shiftRight_eq_div_pow]

theorem path_eq_iff (first second : Word) :
    directoryPath first = directoryPath second ∧ tableIndex first 12 = tableIndex second 12 ↔
      pageOf first = pageOf second := by
  simp only [directoryPath,List.cons.injEq,and_true,Fin.ext_iff,tableIndex_val]
  rw [← BitVec.toNat_inj,pageOf_toNat,pageOf_toNat]
  omega

theorem exists_address {path : List (Fin 512)} (bottom : path.length = 3) (index : Fin 512) :
    ∃ vaddr, directoryPath vaddr = path ∧ tableIndex vaddr 12 = index := by
  obtain ⟨a,b,c,rfl⟩ := List.length_eq_three.mp bottom
  obtain ⟨vaddr,value⟩ : ∃ vaddr : Word, vaddr.toNat =
      a.val * 2^39 + b.val * 2^30 + c.val * 2^21 + index.val * 2^12 := by
    refine ⟨BitVec.ofNat 64 (a.val * 2^39 + b.val * 2^30 + c.val * 2^21 + index.val * 2^12),?_⟩
    rw [BitVec.toNat_ofNat]
    omega
  refine ⟨vaddr,?_,?_⟩
  · simp only [directoryPath,List.cons.injEq,and_true,Fin.ext_iff,tableIndex_val,value]
    omega
  · simp only [Fin.ext_iff,tableIndex_val,value]
    omega

end BorealOS.Memory.Paging
