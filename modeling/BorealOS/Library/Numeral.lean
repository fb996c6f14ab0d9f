import Mathlib

/-! Numerals. A numeral is a list of digits, the most significant one first, and a
number has exactly one numeral without leading zeros in each base. -/
namespace Numeral

variable {base n : Nat} {digits : List Nat}

/-- The number that a list of digits denotes, read from the left. -/
def value (base : Nat) (digits : List Nat) : Nat := digits.foldl (fun read digit => read * base + digit) 0

structure IsNumeral (base n : Nat) (digits : List Nat) : Prop where
  nonempty : digits ≠ []
  bounded : ∀ digit ∈ digits, digit < base
  trimmed : digits.head? = some 0 → digits = [0]
  reads : value base digits = n

def numeral (base n : Nat) : List Nat := if n = 0 then [0] else (Nat.digits base n).reverse

@[simp] theorem numeral_zero (base : Nat) : numeral base 0 = [0] := rfl

theorem numeral_pos (positive : n ≠ 0) : numeral base n = (Nat.digits base n).reverse := if_neg positive

theorem value_reverse (base : Nat) (digits : List Nat) : value base digits.reverse = Nat.ofDigits base digits := by
  rw [value,List.foldl_reverse,Nat.ofDigits_eq_foldr]
  congr 1
  funext digit read
  rw [Nat.cast_id]
  ring

theorem numeral_isNumeral (large : 1 < base) (n : Nat) : IsNumeral base n (numeral base n) := by
  by_cases zero : n = 0
  · subst zero
    exact ⟨by simp,by simp; omega,fun _ => rfl,by simp [value]⟩
  · rw [numeral_pos zero]
    have nonempty : Nat.digits base n ≠ [] := Nat.digits_ne_nil_iff_ne_zero.mpr zero
    refine ⟨fun none => nonempty (List.reverse_eq_nil_iff.mp none),?_,?_,?_⟩
    · intro digit member
      exact Nat.digits_lt_base large (List.mem_reverse.mp member)
    · intro first
      rw [List.head?_reverse,List.getLast?_eq_some_getLast nonempty,Option.some.injEq] at first
      exact absurd first (Nat.getLast_digit_ne_zero base zero)
    · rw [value_reverse,Nat.ofDigits_digits]

theorem IsNumeral.eq_numeral (large : 1 < base) (numeral : IsNumeral base n digits) : digits = Numeral.numeral base n := by
  by_cases first : digits.head? = some 0
  · have single := numeral.trimmed first
    have nothing : n = 0 := by
      rw [← numeral.reads,single]
      simp [value]
    rw [single,nothing,numeral_zero]
  · have last : ∀ some : digits.reverse ≠ [], digits.reverse.getLast some ≠ 0 := by
      intro some zero
      apply first
      rw [← zero,List.getLast_reverse,List.head?_eq_some_head]
    have bounded : ∀ digit ∈ digits.reverse, digit < base := fun digit member =>
      numeral.bounded digit (List.mem_reverse.mp member)
    have back := Nat.digits_ofDigits base large digits.reverse bounded last
    rw [← value_reverse,List.reverse_reverse,numeral.reads] at back
    have positive : n ≠ 0 := by
      rintro rfl
      rw [Nat.digits_zero] at back
      exact numeral.nonempty (List.reverse_eq_nil_iff.mp back.symm)
    rw [numeral_pos positive,back,List.reverse_reverse]

theorem length_numeral_le {k : Nat} (large : 1 < base) (some : 1 ≤ k) (small : n < base^k) :
    (numeral base n).length ≤ k := by
  by_cases zero : n = 0
  · rw [zero]
    exact some
  · rw [numeral_pos zero,List.length_reverse]
    exact (Nat.digits_length_le_iff large n).mpr small

theorem le_foldl (positive : 0 < base) (start : Nat) (digits : List Nat) :
    start ≤ digits.foldl (fun read digit => read * base + digit) start := by
  induction digits generalizing start with
  | nil => exact Nat.le_refl start
  | cons digit digits ih => exact (Nat.le_mul_of_pos_right start positive).trans ((Nat.le_add_right _ digit).trans (ih _))

end Numeral
