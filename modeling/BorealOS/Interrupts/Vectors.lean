import BorealOS.Library.PackedBitmap
import BorealOS.Library.Transition

/-! The vectors that `IDT` hands out: the bitmap `_allocatedVectors`, a bit for each of
the 256 vectors, with `AllocateVector` and `FreeVector`. Byte `i` of the array is
`allocatedVectors i` for `i` below 32. -/
namespace BorealOS.Interrupts
open PackedBitmap

/-- The end of `IDT::Initialize`, over the array as it was. -/
def reserveVectors (allocatedVectors : Nat → BitVec 8) : Nat → BitVec 8 :=
  [(0,0xFF#8),(1,0xFF#8),(2,0xFF#8),(3,0xFF#8),(31,0xE0#8)].foldl
    (fun vectors assignment => Function.update vectors assignment.1 assignment.2) allocatedVectors

def initialVectors : Nat → BitVec 8 := reserveVectors fun _ => 0#8

/-- `__builtin_ffs`: one more than the place of the lowest set bit, 0 without one. -/
def builtinFfs (x : BitVec 32) : BitVec 32 :=
  match (List.range 32).find? x.getLsbD with
  | some place => BitVec.ofNat 32 (place + 1)
  | none => 0#32

/-- The byte is promoted to `int` before it is complemented, which sets the 24 upper bits. -/
def freeBit (byte : BitVec 8) : BitVec 8 := (builtinFfs (~~~ byte.setWidth 32) - 1#32).setWidth 8

def allocateVectorFrom (allocatedVectors : Nat → BitVec 8) : (remaining i : Nat) → BitVec 8 × (Nat → BitVec 8)
  | 0, _ => (0#8,allocatedVectors)
  | remaining + 1, i =>
    if allocatedVectors i ≠ 0xFF#8 then
      let bit := freeBit (allocatedVectors i)
      (BitVec.ofNat 8 i <<< 3 ||| bit,Function.update allocatedVectors i (allocatedVectors i ||| 1#8 <<< bit))
    else allocateVectorFrom allocatedVectors remaining (i + 1)

def allocateVector (allocatedVectors : Nat → BitVec 8) : BitVec 8 × (Nat → BitVec 8) :=
  allocateVectorFrom allocatedVectors 32 0

def freeVector (allocatedVectors : Nat → BitVec 8) (vector : BitVec 8) : Nat → BitVec 8 :=
  let i := vector >>> 3
  let bit := vector &&& 7#8
  Function.update allocatedVectors i.toNat (allocatedVectors i.toNat &&& ~~~ (1#8 <<< bit))

theorem freeVector_eq (allocatedVectors : Nat → BitVec 8) (vector : BitVec 8) :
    freeVector allocatedVectors vector = clearBit allocatedVectors vector.toNat := by
  have byte : (vector >>> 3).toNat = vector.toNat / 8 := by
    rw [BitVec.toNat_ushiftRight,Nat.shiftRight_eq_div_pow]
  have place : (vector &&& 7#8).toNat = vector.toNat % 8 := by
    rw [BitVec.toNat_and]
    exact Nat.and_two_pow_sub_one_eq_mod vector.toNat 3
  simp only [freeVector,clearBit,mask,byte,BitVec.shiftLeft_eq',place]

theorem freeBit_spec {byte : BitVec 8} (free : byte ≠ 0xFF#8) :
    (freeBit byte).toNat < 8 ∧ byte.getLsbD (freeBit byte).toNat = false ∧
      ∀ lower < (freeBit byte).toNat, byte.getLsbD lower = true := by
  revert free
  revert byte
  decide +kernel

private theorem pushed {i bit : Nat} (first : i < 32) (second : bit < 8) :
    (BitVec.ofNat 8 i <<< 3 ||| BitVec.ofNat 8 bit).toNat = 8 * i + bit := by
  interval_cases i <;> interval_cases bit <;> rfl

private theorem full_below {allocatedVectors : Nat → BitVec 8} {i count : Nat}
    (before : ∀ k < 8 * i, bit allocatedVectors k = true) (small : count ≤ 8)
    (byte : ∀ place < count, (allocatedVectors i).getLsbD place = true) {k : Nat} (bound : k < 8 * i + count) :
    bit allocatedVectors k = true := by
  by_cases same : k < 8 * i
  · exact before k same
  · have inside : k / 8 = i := by omega
    simpa only [bit,inside] using byte (k % 8) (by omega)

/-- The byte that the loop stops at gives the lowest clear bit of the whole map, once the
bytes before it are full. -/
theorem allocateVectorFrom_spec (allocatedVectors : Nat → BitVec 8) (remaining i : Nat) (total : i + remaining = 32)
    (before : ∀ k < 8 * i, bit allocatedVectors k = true) :
    (∃ k < 256, bit allocatedVectors k = false ∧ (∀ lower < k, bit allocatedVectors lower = true) ∧
      allocateVectorFrom allocatedVectors remaining i = (BitVec.ofNat 8 k,setBit allocatedVectors k)) ∨
    (∀ k < 256, bit allocatedVectors k = true) ∧ allocateVectorFrom allocatedVectors remaining i = (0#8,allocatedVectors) := by
  induction remaining generalizing i with
  | zero =>
    right
    exact ⟨fun k bound => before k (by omega),rfl⟩
  | succ remaining ih =>
    unfold allocateVectorFrom
    split
    · rename_i free
      obtain ⟨place,clear,full⟩ := freeBit_spec free
      generalize position : (freeBit (allocatedVectors i)).toNat = bitPlace at place clear full
      have quotient : (8 * i + bitPlace) / 8 = i := by omega
      have remainder : (8 * i + bitPlace) % 8 = bitPlace := by omega
      have chosen : freeBit (allocatedVectors i) = BitVec.ofNat 8 bitPlace := by
        rw [← position,BitVec.ofNat_toNat,BitVec.setWidth_eq]
      left
      refine ⟨8 * i + bitPlace,by omega,?_,?_,?_⟩
      · simpa only [bit,quotient,remainder] using clear
      · intro lower below
        exact full_below before (Nat.le_of_lt place) full below
      · have result : BitVec.ofNat 8 i <<< 3 ||| BitVec.ofNat 8 bitPlace = BitVec.ofNat 8 (8 * i + bitPlace) := by
          apply BitVec.eq_of_toNat_eq
          rw [pushed (by omega) place,BitVec.toNat_ofNat]
          omega
        have small : (BitVec.ofNat 8 bitPlace).toNat = bitPlace := by
          rw [BitVec.toNat_ofNat]
          omega
        simp only [chosen,result,setBit,mask,quotient,remainder,BitVec.shiftLeft_eq',small]
    · rename_i full
      simp only [ne_eq,not_not] at full
      refine ih (i + 1) (by omega) ?_
      intro k bound
      refine full_below before (Nat.le_refl 8) ?_ (by omega)
      intro place small
      rw [full]
      interval_cases place <;> rfl

theorem allocateVector_cases (allocatedVectors : Nat → BitVec 8) :
    (∃ vector : BitVec 8, bit allocatedVectors vector.toNat = false ∧
      (∀ lower < vector, bit allocatedVectors lower.toNat = true) ∧
      allocateVector allocatedVectors = (vector,setBit allocatedVectors vector.toNat)) ∨
    (∀ vector : BitVec 8, bit allocatedVectors vector.toNat = true) ∧
      allocateVector allocatedVectors = (0#8,allocatedVectors) := by
  have outcome := allocateVectorFrom_spec allocatedVectors 32 0 rfl fun k bound => absurd bound (by omega)
  obtain ⟨k,bound,clear,lowest,result⟩ | ⟨full,result⟩ := outcome
  · have number : (BitVec.ofNat 8 k).toNat = k := by
      rw [BitVec.toNat_ofNat]
      omega
    refine Or.inl ⟨BitVec.ofNat 8 k,?_,?_,?_⟩
    · rw [number]
      exact clear
    · intro lower below
      rw [BitVec.lt_def,number] at below
      exact lowest lower.toNat below
    · rw [number]
      exact result
  · exact Or.inr ⟨fun vector => full vector.toNat vector.isLt,result⟩

/-- The vectors that are neither CPU exceptions nor 253, 254 or 255. -/
def Assignable (vector : BitVec 8) : Prop := 32#8 ≤ vector ∧ vector ≤ 252#8

instance decidableAssignable (vector : BitVec 8) : Decidable (Assignable vector) :=
  inferInstanceAs (Decidable (_ ∧ _))

theorem bit_initialVectors : ∀ vector : BitVec 8, bit initialVectors vector.toNat = decide (¬ Assignable vector) := by
  decide +kernel

private theorem Assignable.ne_zero {vector : BitVec 8} (assignable : Assignable vector) : vector ≠ 0#8 := by
  intro zero
  rw [zero] at assignable
  exact absurd assignable (by decide)

private theorem toNat_ne {first second : BitVec 8} (different : first ≠ second) : first.toNat ≠ second.toNat :=
  fun same => different (BitVec.eq_of_toNat_eq same)

/-- The bitmap with the vectors that callers hold. -/
structure VectorUse where
  allocatedVectors : Nat → BitVec 8
  outstanding : List (BitVec 8)

inductive VectorCall where
  | allocateVector
  | freeVector (vector : BitVec 8)
deriving DecidableEq, Repr

namespace VectorUse

def initial : VectorUse := ⟨initialVectors,[]⟩

/-- The result 0 of `AllocateVector` says that no vector was handed out. -/
def step (use : VectorUse) : VectorCall → Option VectorUse
  | .allocateVector =>
    let (vector,allocatedVectors) := allocateVector use.allocatedVectors
    some ⟨allocatedVectors,if vector = 0#8 then use.outstanding else vector::use.outstanding⟩
  | .freeVector vector => some ⟨freeVector use.allocatedVectors vector,use.outstanding.erase vector⟩

def Returned (use : VectorUse) : VectorCall → Prop
  | .allocateVector => True
  | .freeVector vector => vector ∈ use.outstanding

instance decidableReturned (use : VectorUse) : ∀ call, Decidable (use.Returned call)
  | .allocateVector => isTrue trivial
  | .freeVector vector => inferInstanceAs (Decidable (vector ∈ use.outstanding))

structure Exact (use : VectorUse) : Prop where
  bits : ∀ vector : BitVec 8, bit use.allocatedVectors vector.toNat = true ↔ ¬ Assignable vector ∨ vector ∈ use.outstanding
  assignable : ∀ vector ∈ use.outstanding, Assignable vector
  distinct : use.outstanding.Nodup

theorem Exact.initial : VectorUse.initial.Exact where
  bits := by
    intro vector
    simp [VectorUse.initial,bit_initialVectors]
  assignable := by simp [VectorUse.initial]
  distinct := List.nodup_nil

theorem Exact.allocateVector_cases {use : VectorUse} (exact : use.Exact) :
    (∃ vector, Assignable vector ∧ vector ∉ use.outstanding ∧
      (∀ other, Assignable other → other ∉ use.outstanding → vector ≤ other) ∧
      allocateVector use.allocatedVectors = (vector,setBit use.allocatedVectors vector.toNat)) ∨
    (∀ vector, Assignable vector → vector ∈ use.outstanding) ∧
      allocateVector use.allocatedVectors = (0#8,use.allocatedVectors) := by
  obtain ⟨vector,clear,lowest,result⟩ | ⟨full,result⟩ := Interrupts.allocateVector_cases use.allocatedVectors
  · have unused := mt (exact.bits vector).mpr (Bool.eq_false_iff.mp clear)
    push Not at unused
    refine Or.inl ⟨vector,unused.1,unused.2,?_,result⟩
    intro other assignable free
    by_contra below
    have taken := (exact.bits other).mp (lowest other (BitVec.not_le.mp below))
    exact taken.elim (fun reserved => reserved assignable) free
  · refine Or.inr ⟨?_,result⟩
    intro vector assignable
    exact ((exact.bits vector).mp (full vector)).resolve_left (not_not.mpr assignable)

theorem Exact.allocated {use : VectorUse} (exact : use.Exact) {vector : BitVec 8} (assignable : Assignable vector)
    (free : vector ∉ use.outstanding) :
    Exact ⟨setBit use.allocatedVectors vector.toNat,vector::use.outstanding⟩ where
  bits := by
    intro other
    rw [bit_setBit,List.mem_cons]
    by_cases same : other = vector
    · simp [same]
    · simp [same,toNat_ne same,exact.bits other]
  assignable := by
    intro other member
    obtain same | member := List.mem_cons.mp member
    · exact same ▸ assignable
    · exact exact.assignable other member
  distinct := List.nodup_cons.mpr ⟨free,exact.distinct⟩

theorem Exact.freed {use : VectorUse} (exact : use.Exact) {vector : BitVec 8} (held : vector ∈ use.outstanding) :
    Exact ⟨freeVector use.allocatedVectors vector,use.outstanding.erase vector⟩ where
  bits := by
    intro other
    rw [freeVector_eq,bit_clearBit,exact.distinct.mem_erase_iff]
    by_cases same : other = vector
    · simp [same,exact.assignable vector held]
    · simp [same,toNat_ne same,exact.bits other]
  assignable := fun other member => exact.assignable other (List.mem_of_mem_erase member)
  distinct := exact.distinct.erase vector

theorem Exact.step {use next : VectorUse} {call : VectorCall} (returned : use.Returned call) (exact : use.Exact)
    (moved : use.step call = some next) : next.Exact := by
  cases call with
  | allocateVector =>
    obtain ⟨vector,assignable,free,_,result⟩ | ⟨_,result⟩ := exact.allocateVector_cases
    · simp only [VectorUse.step,result,assignable.ne_zero,if_false,Option.some.injEq] at moved
      exact moved ▸ exact.allocated assignable free
    · simp only [VectorUse.step,result,if_true,Option.some.injEq] at moved
      exact moved ▸ exact
  | freeVector vector =>
    simp only [VectorUse.step,Option.some.injEq] at moved
    exact moved ▸ exact.freed returned

end VectorUse

open Transition VectorUse

theorem allocateVector_least_unused {calls : List VectorCall} {use : VectorUse}
    (returned : Along step Returned initial calls) (ran : run step initial calls = some use) :
    let result := allocateVector use.allocatedVectors
    use.outstanding.Nodup ∧
      (result.1 = 0#8 ↔ ∀ vector, Assignable vector → vector ∈ use.outstanding) ∧
      (result.1 = 0#8 → result.2 = use.allocatedVectors) ∧
      (result.1 ≠ 0#8 → Assignable result.1 ∧ result.1 ∉ use.outstanding ∧
        ∀ vector, Assignable vector → vector ∉ use.outstanding → result.1 ≤ vector) := by
  have exact := run_preserves step Exact Returned (fun _ _ _ => Exact.step) returned Exact.initial ran
  obtain ⟨vector,assignable,free,least,result⟩ | ⟨full,result⟩ := exact.allocateVector_cases
  · simp only [result]
    refine ⟨exact.distinct,?_,fun zero => absurd zero assignable.ne_zero,fun _ => ⟨assignable,free,least⟩⟩
    exact ⟨fun zero => absurd zero assignable.ne_zero,fun full => absurd (full vector assignable) free⟩
  · simp only [result]
    exact ⟨exact.distinct,⟨fun _ => full,fun _ => trivial⟩,fun _ => trivial,fun nonzero => absurd rfl nonzero⟩

/-- The vector that was given back is the next one handed out. -/
theorem allocateVector_least_unused_given_back :
    ∃ use, run step initial [.allocateVector,.allocateVector,.freeVector 32#8] = some use ∧ use.outstanding = [33#8] ∧
      (allocateVector use.allocatedVectors).1 = 32#8 ∧
      ∀ vector, Assignable vector → vector ∉ use.outstanding → (allocateVector use.allocatedVectors).1 ≤ vector := by
  refine ⟨_,rfl,by decide +kernel,by decide +kernel,?_⟩
  have least := @allocateVector_least_unused [.allocateVector,.allocateVector,.freeVector 32#8] _ (by decide +kernel) rfl
  exact (least.2.2.2 (by decide +kernel)).2.2

/-- There are 221 of them. -/
example : ((List.range 256).filter fun k => decide (Assignable (BitVec.ofNat 8 k))).length = 221 := by decide +kernel

def FreesAssignable (_ : VectorUse) : VectorCall → Prop
  | .allocateVector => True
  | .freeVector vector => Assignable vector

instance decidableFreesAssignable (use : VectorUse) : ∀ call, Decidable (FreesAssignable use call)
  | .allocateVector => isTrue trivial
  | .freeVector vector => inferInstanceAs (Decidable (Assignable vector))

def ReservedSet (use : VectorUse) : Prop :=
  ∀ vector : BitVec 8, ¬ Assignable vector → bit use.allocatedVectors vector.toNat = true

theorem reservedSet_initial : ReservedSet VectorUse.initial := by
  intro vector reserved
  simp [VectorUse.initial,bit_initialVectors,reserved]

theorem reservedSet_step {use next : VectorUse} {call : VectorCall} (frees : FreesAssignable use call)
    (reserved : ReservedSet use) (moved : use.step call = some next) : ReservedSet next := by
  intro other unassignable
  cases call with
  | allocateVector =>
    obtain ⟨vector,_,_,result⟩ | ⟨_,result⟩ := allocateVector_cases use.allocatedVectors
    · simp only [VectorUse.step,result,Option.some.injEq] at moved
      simp [← moved,reserved other unassignable]
    · simp only [VectorUse.step,result,Option.some.injEq] at moved
      simp [← moved,reserved other unassignable]
  | freeVector vector =>
    simp only [VectorUse.step,Option.some.injEq] at moved
    have different : other ≠ vector := fun same => unassignable (same ▸ frees)
    simp [← moved,freeVector_eq,toNat_ne different,reserved other unassignable]

/-- A run that never frees a reserved vector never hands one out. -/
theorem allocateVector_never_reserved {calls : List VectorCall} {use : VectorUse}
    (frees : Along step FreesAssignable initial calls) (ran : run step initial calls = some use) :
    let result := allocateVector use.allocatedVectors
    Assignable result.1 ∨ result = (0#8,use.allocatedVectors) := by
  have reserved := run_preserves step ReservedSet FreesAssignable (fun _ _ _ => reservedSet_step) frees reservedSet_initial ran
  obtain ⟨vector,clear,_,result⟩ | ⟨_,result⟩ := allocateVector_cases use.allocatedVectors
  · left
    rw [result]
    by_contra unassignable
    simp [reserved vector unassignable] at clear
  · right
    exact result

/-- Vector 40 is freed though it was never allocated. -/
theorem allocateVector_never_reserved_unallocated :
    ∃ use, run step initial [.freeVector 40#8,.allocateVector] = some use ∧
      (Assignable (allocateVector use.allocatedVectors).1 ∨ allocateVector use.allocatedVectors = (0#8,use.allocatedVectors)) :=
  ⟨_,rfl,@allocateVector_never_reserved [.freeVector 40#8,.allocateVector] _ (by decide +kernel) rfl⟩

/-- `FreeVector(5)` clears the bit of an exception vector, and the next `AllocateVector`
hands it out. -/
theorem allocateVector_hands_out_exception :
    ¬ ∀ (calls : List VectorCall) (use : VectorUse), run step initial calls = some use →
      Assignable (allocateVector use.allocatedVectors).1 ∨
        allocateVector use.allocatedVectors = (0#8,use.allocatedVectors) := by
  intro always
  have five : (allocateVector (freeVector initialVectors 5#8)).1 = 5#8 := by decide +kernel
  obtain assignable | failed := always [.freeVector 5#8] ⟨freeVector initialVectors 5#8,[]⟩ rfl
  · rw [five] at assignable
    exact absurd assignable (by decide)
  · have zero := five.symm.trans (congrArg Prod.fst failed)
    exact absurd zero (by decide)

end BorealOS.Interrupts
