import Mathlib

/-! Rounding to multiples, downwards and upwards, and what is left of rounding upwards
when sums wrap at a multiple. -/
namespace Rounding

def IsFloor (step value multiple : Nat) : Prop := IsGreatest {m | step ∣ m ∧ m ≤ value} multiple

def IsCeiling (step value multiple : Nat) : Prop := IsLeast {m | step ∣ m ∧ value ≤ m} multiple

variable {step value multiple : Nat}

theorem isFloor_div (positive : 0 < step) (value : Nat) : IsFloor step value (value / step * step) := by
  refine ⟨⟨Nat.dvd_mul_left _ _,Nat.div_mul_le_self _ _⟩,?_⟩
  rintro m ⟨⟨count,rfl⟩,below⟩
  rw [Nat.mul_comm step count] at below ⊢
  exact Nat.mul_le_mul_right _ ((Nat.le_div_iff_mul_le positive).mpr below)

theorem isCeiling_div (positive : 0 < step) (value : Nat) : IsCeiling step value ((value + (step - 1)) / step * step) := by
  have remainder := Nat.div_add_mod (value + (step - 1)) step
  have less := Nat.mod_lt (value + (step - 1)) positive
  rw [Nat.mul_comm] at remainder
  refine ⟨⟨Nat.dvd_mul_left _ _,by omega⟩,?_⟩
  rintro m ⟨⟨count,rfl⟩,above⟩
  rw [Nat.mul_comm step count] at above ⊢
  apply Nat.mul_le_mul_right
  rw [Nat.div_le_iff_le_mul positive]
  omega

theorem IsCeiling.add (ceiling : IsCeiling step value multiple) {more : Nat} (whole : step ∣ more) :
    IsCeiling step (value + more) (multiple + more) := by
  obtain ⟨⟨divides,above⟩,least⟩ := ceiling
  refine ⟨⟨Nat.dvd_add divides whole,by omega⟩,?_⟩
  rintro m ⟨also,beyond⟩
  have below : step ∣ m - more := Nat.dvd_sub also whole
  have bound := least ⟨below,by omega⟩
  omega

theorem IsCeiling.wrapping (ceiling : IsCeiling step value multiple) (positive : 0 < step) {limit : Nat} (whole : step ∣ limit)
    (small : value < limit) : (value + (step - 1)) % limit / step * step = if multiple < limit then multiple else 0 := by
  have same := ceiling.unique (isCeiling_div positive value)
  have below := Nat.div_mul_le_self (value + (step - 1)) step
  rw [← same] at below
  by_cases inside : multiple < limit
  · have room : step ≤ limit - multiple := Nat.le_of_dvd (by omega) (Nat.dvd_sub whole ceiling.1.1)
    have above := ceiling.1.2
    rw [if_pos inside,Nat.mod_eq_of_lt (by omega),← same]
  · have rest : (value + (step - 1)) % limit = value + (step - 1) - limit := by
      rw [Nat.mod_eq_sub_mod (by omega),Nat.mod_eq_of_lt]
      have bound := Nat.le_of_dvd (by omega) whole
      omega
    rw [if_neg inside,rest,Nat.div_eq_of_lt (by omega),Nat.zero_mul]

end Rounding
