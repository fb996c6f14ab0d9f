import Mathlib

/-! Bitmaps packed eight bits to a byte. Bit `k` is bit `k % 8` of byte `k / 8`.
The lemmas reduce the masking of one byte to membership of single bits, so that
users of a bitmap reason about the set of its bits only. -/
namespace PackedBitmap

def mask (k : Nat) : BitVec 8 := 1#8 <<< (k % 8)

def bit (bytes : Nat → BitVec 8) (k : Nat) : Bool := (bytes (k / 8)).getLsbD (k % 8)

def setBit (bytes : Nat → BitVec 8) (k : Nat) : Nat → BitVec 8 :=
  Function.update bytes (k / 8) (bytes (k / 8) ||| mask k)

def clearBit (bytes : Nat → BitVec 8) (k : Nat) : Nat → BitVec 8 :=
  Function.update bytes (k / 8) (bytes (k / 8) &&& ~~~ mask k)

theorem getLsbD_mask (k j : Nat) : (mask k).getLsbD j = decide (j = k % 8) := by
  have bound : k % 8 < 8 := Nat.mod_lt _ (by omega)
  simp only [mask,BitVec.getLsbD_shiftLeft,BitVec.getLsbD_one]
  by_cases same : j = k % 8
  · simp [same,bound]
  · by_cases below : j < k % 8
    · simp [same,below]
    · have above : j - k % 8 ≠ 0 := by omega
      simp [same,above]

theorem and_mask_ne_zero (bytes : Nat → BitVec 8) (k : Nat) :
    (bytes (k / 8) &&& mask k ≠ 0) ↔ bit bytes k = true := by
  have bound : k % 8 < 8 := Nat.mod_lt _ (by omega)
  constructor
  · intro nonzero
    by_contra clear
    apply nonzero
    apply BitVec.eq_of_getLsbD_eq
    intro j _
    simp only [BitVec.getLsbD_and,getLsbD_mask]
    by_cases same : j = k % 8
    · subst same
      simpa [bit] using clear
    · simp [same]
  · intro set zero
    have read := congrArg (fun byte => BitVec.getLsbD byte (k % 8)) zero
    simp only [BitVec.getLsbD_and,getLsbD_mask,decide_true,Bool.and_true] at read
    simp [bit] at set
    simp [set] at read

private theorem same_bit {p k : Nat} (byte : p / 8 = k / 8) : p % 8 = k % 8 ↔ p = k := by omega

@[simp] theorem bit_setBit (bytes : Nat → BitVec 8) (k p : Nat) :
    bit (setBit bytes k) p = (decide (p = k) || bit bytes p) := by
  unfold bit setBit
  by_cases byte : p / 8 = k / 8
  · have bound : p % 8 < 8 := Nat.mod_lt _ (by omega)
    simp only [byte,Function.update_self,BitVec.getLsbD_or,getLsbD_mask,same_bit byte]
    exact Bool.or_comm _ _
  · have different : p ≠ k := fun same => byte (by rw [same])
    simp [Function.update_of_ne byte,different]

@[simp] theorem bit_clearBit (bytes : Nat → BitVec 8) (k p : Nat) :
    bit (clearBit bytes k) p = (decide (p ≠ k) && bit bytes p) := by
  unfold bit clearBit
  by_cases byte : p / 8 = k / 8
  · have bound : p % 8 < 8 := Nat.mod_lt _ (by omega)
    simp only [byte,Function.update_self,BitVec.getLsbD_and,BitVec.getLsbD_not,getLsbD_mask,
      same_bit byte,bound,decide_true,Bool.true_and]
    rw [Bool.and_comm]
    simp
  · have different : p ≠ k := fun same => byte (by rw [same])
    simp [Function.update_of_ne byte,different]

theorem ext_bit {first second : Nat → BitVec 8} (same : ∀ k, bit first k = bit second k) :
    first = second := by
  funext n
  apply BitVec.eq_of_getLsbD_eq
  intro j bound
  have read := same (8 * n + j)
  have quotient : (8 * n + j) / 8 = n := by omega
  have remainder : (8 * n + j) % 8 = j := by omega
  simpa [bit,quotient,remainder] using read

theorem bit_foldl_setBit (ks : List Nat) (bytes : Nat → BitVec 8) (p : Nat) :
    bit (ks.foldl setBit bytes) p = (decide (p ∈ ks) || bit bytes p) := by
  induction ks generalizing bytes with
  | nil => simp
  | cons k ks ih =>
    rw [List.foldl_cons,ih,bit_setBit]
    by_cases here : p = k <;> simp [here]

theorem bit_foldl_clearBit (ks : List Nat) (bytes : Nat → BitVec 8) (p : Nat) :
    bit (ks.foldl clearBit bytes) p = (decide (p ∉ ks) && bit bytes p) := by
  induction ks generalizing bytes with
  | nil => simp
  | cons k ks ih =>
    rw [List.foldl_cons,ih,bit_clearBit]
    by_cases here : p = k <;> simp [here]

theorem foldl_update_range (value : BitVec 8) (n : Nat) (bytes : Nat → BitVec 8) (i : Nat) :
    (List.range n).foldl (fun bytes k => Function.update bytes k value) bytes i =
      if i < n then value else bytes i := by
  induction n with
  | zero => simp
  | succ n ih =>
    rw [List.range_succ,List.foldl_append,List.foldl_cons,List.foldl_nil]
    by_cases last : i = n
    · simp [last]
    · rw [Function.update_of_ne last,ih]
      have step : i < n + 1 ↔ i < n := by omega
      simp [step]

end PackedBitmap
