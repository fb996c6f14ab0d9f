import Mathlib

/-! Fields of machine words. A mask of ones and a shift take a field out of a word, and
the fields of a word that is put together from them are found at their places. -/
namespace BitField

variable {w : Nat}

/-- The mask of the `len` lowest bits. -/
def ones (w len : Nat) : BitVec w := BitVec.ofNat w (2^len - 1)

theorem getLsbD_ones {len k : Nat} (inside : k < w) : (ones w len).getLsbD k = decide (k < len) := by
  rw [ones,BitVec.getLsbD_ofNat,Nat.testBit_two_pow_sub_one,decide_eq_true inside,Bool.true_and]

theorem and_ones (x : BitVec w) (len : Nat) : x &&& ones w len = (x.extractLsb' 0 len).setWidth w := by
  apply BitVec.eq_of_getLsbD_eq
  intro k inside
  rw [BitVec.getLsbD_and,getLsbD_ones inside,BitVec.getLsbD_setWidth,BitVec.getLsbD_extractLsb',decide_eq_true inside,
    Bool.true_and,Nat.zero_add,Bool.and_comm]

theorem extractLsb'_ushiftRight (x : BitVec w) (start len : Nat) :
    (x >>> start).extractLsb' 0 len = x.extractLsb' start len := by
  apply BitVec.eq_of_getLsbD_eq
  intro k inside
  rw [BitVec.getLsbD_extractLsb',BitVec.getLsbD_extractLsb',BitVec.getLsbD_ushiftRight,Nat.zero_add]

theorem and_ones_shiftLeft (x : BitVec w) (start len : Nat) :
    x &&& ones w len <<< start = (x.extractLsb' start len).setWidth w <<< start := by
  apply BitVec.eq_of_getLsbD_eq
  intro k inside
  have small : k - start < w := Nat.lt_of_le_of_lt (Nat.sub_le k start) inside
  rw [BitVec.getLsbD_and,BitVec.getLsbD_shiftLeft,BitVec.getLsbD_shiftLeft,BitVec.getLsbD_setWidth,
    BitVec.getLsbD_extractLsb',getLsbD_ones small,decide_eq_true inside,decide_eq_true small]
  by_cases below : k < start
  · simp [below]
  · rw [Nat.add_sub_cancel' (Nat.le_of_not_lt below)]
    simp only [below,decide_false,Bool.not_false,Bool.true_and]
    exact Bool.and_comm _ _

theorem setWidth_and_ones (x : BitVec w) {len : Nat} (fits : len ≤ w) :
    (x &&& ones w len).setWidth len = x.extractLsb' 0 len := by
  rw [and_ones,BitVec.setWidth_setWidth_of_le _ fits,BitVec.setWidth_eq]

end BitField
