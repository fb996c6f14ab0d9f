import BorealOS.Kernel
import BorealOS.Library.Rounding

/-! `Utility::Math`: rounding of 64-bit values to a power-of-two alignment. -/
namespace BorealOS.Utility.Math

open Rounding

def alignUp (value alignment : Word) : Word := (value + alignment - 1) &&& ~~~(alignment - 1)

def alignDown (value alignment : Word) : Word := value &&& ~~~(alignment - 1)

private theorem and_not_low (value : Word) (k : Nat) (small : k < 64) :
    value &&& ~~~(BitVec.ofNat 64 (2^k) - 1) = (value >>> k) <<< k := by
  have power : 2^k < 2^64 := Nat.pow_lt_pow_right (by omega) small
  have low : (BitVec.ofNat 64 (2^k) - 1).toNat = 2^k - 1 := by
    have positive : 0 < 2^k := Nat.two_pow_pos k
    rw [BitVec.toNat_sub_of_le]
    · simp only [BitVec.toNat_ofNat,Nat.mod_eq_of_lt power]
      rfl
    · rw [BitVec.le_def,BitVec.toNat_ofNat,Nat.mod_eq_of_lt power]
      exact positive
  apply BitVec.eq_of_getLsbD_eq
  intro i bound
  have bit : (BitVec.ofNat 64 (2^k) - 1).getLsbD i = decide (i < k) := by
    rw [← BitVec.testBit_toNat,low,Nat.testBit_two_pow_sub_one]
  simp only [BitVec.getLsbD_and,BitVec.getLsbD_not,bit,BitVec.getLsbD_shiftLeft,
    BitVec.getLsbD_ushiftRight,bound,decide_true,Bool.true_and]
  by_cases below : i < k
  · simp [below]
  · have shift : k + (i - k) = i := by omega
    simp [below,shift]

theorem alignDown_toNat (value : Word) (k : Nat) (small : k < 64) :
    (alignDown value (BitVec.ofNat 64 (2^k))).toNat = value.toNat / 2^k * 2^k := by
  have bound : value.toNat / 2^k * 2^k < 2^64 := Nat.lt_of_le_of_lt (Nat.div_mul_le_self _ _) value.isLt
  rw [alignDown,and_not_low value k small,BitVec.toNat_shiftLeft,BitVec.toNat_ushiftRight,
    Nat.shiftRight_eq_div_pow,Nat.shiftLeft_eq,Nat.mod_eq_of_lt bound]

theorem alignUp_eq_alignDown (value : Word) (alignment : Word) :
    alignUp value alignment = alignDown (value + (alignment - 1)) alignment := by
  have sum : value + alignment - 1 = value + (alignment - 1) := by
    rw [BitVec.sub_eq_add_neg,BitVec.sub_eq_add_neg,BitVec.add_assoc]
  rw [alignUp,alignDown,sum]

private theorem page_power : Architecture.pageSize = BitVec.ofNat 64 (2^12) := by decide

theorem alignDown_page (value : Word) :
    (alignDown value Architecture.pageSize).toNat = value.toNat / 4096 * 4096 := by
  rw [page_power,alignDown_toNat value 12 (by omega)]
  rfl

theorem alignUp_page (value : Word) (fits : value.toNat + 4095 < 2^64) :
    (alignUp value Architecture.pageSize).toNat = (value.toNat + 4095) / 4096 * 4096 := by
  have last : (Architecture.pageSize - 1).toNat = 4095 := by decide
  rw [alignUp_eq_alignDown,alignDown_page,BitVec.toNat_add,last,Nat.mod_eq_of_lt fits]

section Power
variable {alignment : Word} {k : Nat} (power : alignment.toNat = 2^k)
include power

private theorem eq_power : alignment = BitVec.ofNat 64 (2^k) ∧ k < 64 := by
  refine ⟨?_,(Nat.pow_lt_pow_iff_right (by decide)).mp (power ▸ alignment.isLt)⟩
  rw [← power,BitVec.ofNat_toNat,BitVec.setWidth_eq]

private theorem alignDown_of_power (value : Word) :
    (alignDown value alignment).toNat = value.toNat / alignment.toNat * alignment.toNat := by
  obtain ⟨same,small⟩ := eq_power power
  rw [power,same,alignDown_toNat value k small]

private theorem alignUp_of_power {value : Word} {multiple : Nat} (ceiling : IsCeiling alignment.toNat value.toNat multiple) :
    (alignUp value alignment).toNat = if multiple < 2^64 then multiple else 0 := by
  have positive : 0 < alignment.toNat := by
    rw [power]
    exact Nat.two_pow_pos k
  have last : (alignment - 1).toNat = alignment.toNat - 1 := BitVec.toNat_sub_of_le (by
    rw [BitVec.le_def]
    exact positive)
  have whole : alignment.toNat ∣ 2^64 := by
    rw [power]
    exact Nat.pow_dvd_pow 2 (eq_power power).2.le
  rw [alignUp_eq_alignDown,alignDown_of_power power,BitVec.toNat_add,last]
  exact ceiling.wrapping positive whole value.isLt

end Power

/-- `AlignDown` gives the greatest multiple that is not above the value, and `AlignUp` the
least one that is not below it, or 0 where that one has more than 64 bits. Whole pages
can be added before or after rounding up. -/
theorem align_rounds (alignment : Word) (k : Nat) (power : alignment.toNat = 2^k) (value : Word) :
    IsFloor alignment.toNat value.toNat (alignDown value alignment).toNat ∧
    (∃ multiple, IsCeiling alignment.toNat value.toNat multiple ∧
      (multiple < 2^64 → (alignUp value alignment).toNat = multiple) ∧
      (2^64 ≤ multiple → alignUp value alignment = 0)) ∧
    (∀ pages : Word, 4096 ∣ pages.toNat → ∀ multiple, IsCeiling 4096 (value.toNat + pages.toNat) multiple → multiple < 2^64 →
      alignUp (value + pages) Architecture.pageSize = alignUp value Architecture.pageSize + pages) := by
  have positive : 0 < alignment.toNat := by
    rw [power]
    exact Nat.two_pow_pos k
  refine ⟨?_,?_,?_⟩
  · rw [alignDown_of_power power]
    exact isFloor_div positive value.toNat
  · have ceiling := isCeiling_div positive value.toNat
    have rounded := alignUp_of_power power ceiling
    refine ⟨_,ceiling,fun inside => by rw [rounded,if_pos inside],fun outside => ?_⟩
    apply BitVec.eq_of_toNat_eq
    rw [rounded,if_neg (Nat.not_lt_of_le outside)]
    rfl
  · intro pages whole multiple ceiling inside
    have page : Architecture.pageSize.toNat = 2^12 := Architecture.pageSize_toNat
    have lower := isCeiling_div (show 0 < 4096 by decide) value.toNat
    have same := (lower.add whole).unique ceiling
    have above := ceiling.1.2
    have sum : (value + pages).toNat = value.toNat + pages.toNat := by
      rw [BitVec.toNat_add]
      exact Nat.mod_eq_of_lt (by omega)
    have rounded := @alignUp_of_power Architecture.pageSize 12 page value _ lower
    rw [if_pos (by omega)] at rounded
    apply BitVec.eq_of_toNat_eq
    rw [alignUp_of_power page (by rw [page,sum]; exact ceiling),if_pos inside,BitVec.toNat_add,rounded,same]
    exact (Nat.mod_eq_of_lt inside).symm

/-- The last byte of the address space is in no page that can be rounded up to. -/
theorem align_rounds_last : (4096#64).toNat = 2^12 ∧ IsFloor 4096 (2^64 - 1) (2^64 - 4096) := by
  have power : (4096#64).toNat = 2^12 := by decide
  have down := (align_rounds 4096#64 12 power (BitVec.allOnes 64)).1
  have floor : (alignDown (BitVec.allOnes 64) 4096#64).toNat = 2^64 - 4096 := by decide
  rw [floor] at down
  exact ⟨power,down⟩

end BorealOS.Utility.Math
