import BorealOS.Kernel
import BorealOS.Library.Copying

/-! `memcpy` and `memmove`. Both copy byte by byte, and `memmove` chooses the direction
in which it reads every byte before it is overwritten. -/
namespace BorealOS

open Copying

/-- What every address holds. -/
abbrev Bytes := Word → UInt8

namespace MemOps

/-- The address of `p[i]`. -/
def byteAddress (p : Word) (i : Nat) : Word := p + BitVec.ofNat 64 i

def copyByte (pdest psrc : Word) (i : Nat) (memory : Bytes) : Bytes :=
  Function.update memory (byteAddress pdest i) (memory (byteAddress psrc i))

def forwardLoop (pdest psrc : Word) : (remaining i : Nat) → Bytes → Bytes
  | 0, _, memory => memory
  | remaining + 1, i, memory => forwardLoop pdest psrc remaining (i + 1) (copyByte pdest psrc i memory)

def backwardLoop (pdest psrc : Word) : (i : Nat) → Bytes → Bytes
  | 0, memory => memory
  | i + 1, memory => backwardLoop pdest psrc i (copyByte pdest psrc i memory)

def memcpy (dest src n : Word) (memory : Bytes) : Word × Bytes := (dest,forwardLoop dest src n.toNat 0 memory)

def memmove (dest src n : Word) (memory : Bytes) : Word × Bytes :=
  if src > dest then (dest,forwardLoop dest src n.toNat 0 memory)
  else if src < dest then (dest,backwardLoop dest src n.toNat memory)
  else (dest,memory)

theorem forwardLoop_eq (pdest psrc : Word) (remaining i : Nat) (memory : Bytes) :
    forwardLoop pdest psrc remaining i memory = copyAll (byteAddress pdest) (byteAddress psrc) (List.range' i remaining) memory := by
  induction remaining generalizing i memory with
  | zero => rfl
  | succ remaining ih => exact ih (i + 1) (copyByte pdest psrc i memory)

theorem backwardLoop_eq (pdest psrc : Word) (i : Nat) (memory : Bytes) :
    backwardLoop pdest psrc i memory = copyAll (byteAddress pdest) (byteAddress psrc) (List.range i).reverse memory := by
  induction i generalizing memory with
  | zero => rfl
  | succ i ih =>
    rw [backwardLoop,ih,List.range_succ,List.reverse_append]
    rfl

theorem memcpy_eq (dest src n : Word) (memory : Bytes) :
    memcpy dest src n memory = (dest,copyAll (byteAddress dest) (byteAddress src) (List.range n.toNat) memory) := by
  rw [memcpy,forwardLoop_eq,← List.range_eq_range']

theorem byteAddress_toNat {p : Word} {i : Nat} (inside : p.toNat + i < 2^64) : (byteAddress p i).toNat = p.toNat + i := by
  have small : i < 2^64 := by omega
  rw [byteAddress,BitVec.toNat_add,BitVec.toNat_ofNat,Nat.mod_eq_of_lt small,Nat.mod_eq_of_lt inside]

theorem byteAddress_ne {p q : Word} {i j : Nat} (left : p.toNat + i < 2^64) (right : q.toNat + j < 2^64)
    (different : p.toNat + i ≠ q.toNat + j) : byteAddress p i ≠ byteAddress q j := by
  intro equal
  rw [← byteAddress_toNat left,← byteAddress_toNat right,equal] at different
  exact different rfl

section Ranges
variable {dest src n : Word} (destFits : dest.toNat + n.toNat ≤ 2^64) (srcFits : src.toNat + n.toNat ≤ 2^64)
include destFits srcFits

theorem orderly_of_pairwise {order : List Nat} (inside : ∀ i ∈ order, i < n.toNat)
    (apart : order.Pairwise fun earlier later => earlier ≠ later ∧ dest.toNat + earlier ≠ src.toNat + later) :
    Orderly (byteAddress dest) (byteAddress src) order := by
  refine apart.imp_of_mem fun {i j} first second different => ?_
  have left := inside i first
  have right := inside j second
  exact ⟨byteAddress_ne (by omega) (by omega) (by omega),byteAddress_ne (by omega) (by omega) different.2⟩

theorem orderly_forward (safe : dest.toNat ≤ src.toNat ∨ src.toNat + n.toNat ≤ dest.toNat) :
    Orderly (byteAddress dest) (byteAddress src) (List.range n.toNat) := by
  refine orderly_of_pairwise destFits srcFits (fun i => List.mem_range.mp) ?_
  refine List.pairwise_lt_range.imp_of_mem fun {i j} _ second less => ?_
  have inside := List.mem_range.mp second
  omega

theorem orderly_backward (above : src.toNat < dest.toNat) :
    Orderly (byteAddress dest) (byteAddress src) (List.range n.toNat).reverse := by
  refine orderly_of_pairwise destFits srcFits (fun i => by simp) (List.pairwise_reverse.mpr ?_)
  refine List.pairwise_lt_range.imp fun {i j} less => ?_
  omega

/-- `memmove` copies the bytes in some order in which each of them is read first, unless it has
nothing to do. -/
theorem memmove_orderly (memory : Bytes) : src = dest ∧ memmove dest src n memory = (dest,memory) ∨
    ∃ order, (∀ i, i ∈ order ↔ i < n.toNat) ∧ Orderly (byteAddress dest) (byteAddress src) order ∧
      memmove dest src n memory = (dest,copyAll (byteAddress dest) (byteAddress src) order memory) := by
  rw [memmove]
  by_cases up : dest < src
  · rw [if_pos up,forwardLoop_eq,← List.range_eq_range']
    exact Or.inr ⟨_,fun i => List.mem_range,orderly_forward destFits srcFits (Or.inl (Nat.le_of_lt up)),rfl⟩
  · rw [if_neg up]
    by_cases down : src < dest
    · rw [if_pos down,backwardLoop_eq]
      exact Or.inr ⟨_,fun i => by simp,orderly_backward destFits srcFits down,rfl⟩
    · rw [if_neg down]
      exact Or.inl ⟨BitVec.le_antisymm (BitVec.not_lt.mp up) (BitVec.not_lt.mp down),rfl⟩

end Ranges

/-- `memmove` copies all bytes at once, however the ranges overlap, and `memcpy` does the same
where they are disjoint or the destination is not above the source. -/
theorem memmove_simultaneous (dest src n : Word) (memory : Bytes) (destFits : dest.toNat + n.toNat ≤ 2^64)
    (srcFits : src.toNat + n.toNat ≤ 2^64) :
    (memmove dest src n memory).1 = dest ∧
    (∀ i < n.toNat, (memmove dest src n memory).2 (byteAddress dest i) = memory (byteAddress src i)) ∧
    (∀ address : Word, (address.toNat < dest.toNat ∨ dest.toNat + n.toNat ≤ address.toNat) →
      (memmove dest src n memory).2 address = memory address) ∧
    ((dest.toNat + n.toNat ≤ src.toNat ∨ src.toNat + n.toNat ≤ dest.toNat ∨ dest.toNat ≤ src.toNat) →
      memcpy dest src n memory = memmove dest src n memory) := by
  rcases memmove_orderly destFits srcFits memory with ⟨rfl,moved⟩ | ⟨order,all,orderly,moved⟩
  · rw [moved,memcpy_eq]
    refine ⟨rfl,fun i inside => rfl,fun address outside => rfl,fun _ => ?_⟩
    rw [copyAll_self]
  · rw [moved,memcpy_eq]
    refine ⟨rfl,fun i inside => copyAll_dest orderly ((all i).mpr inside) memory,fun address outside => ?_,fun safe => ?_⟩
    · apply copyAll_frame
      intro i member equal
      have inside := (all i).mp member
      rw [equal,byteAddress_toNat (by omega)] at outside
      omega
    · have forward := orderly_forward destFits srcFits (by omega)
      rw [copyAll_congr forward orderly fun i => List.mem_range.trans (all i).symm]

/-- Four bytes move up by two, so that the source loses its last two. -/
theorem memmove_simultaneous_overlap :
    let memory : Bytes := fun address => UInt8.ofNat address.toNat
    (memmove 0x1002#64 0x1000#64 4#64 memory).1 = 0x1002#64 ∧
    ∀ i < 4, (memmove 0x1002#64 0x1000#64 4#64 memory).2 (byteAddress 0x1002#64 i) = memory (byteAddress 0x1000#64 i) := by
  intro memory
  obtain ⟨returned,copied,_⟩ := memmove_simultaneous 0x1002#64 0x1000#64 4#64 memory (by decide) (by decide)
  exact ⟨returned,copied⟩

end MemOps

end BorealOS
