import Mathlib

/-! Memory of bytes with words of eight bytes, the low byte first. Addresses wrap
around. A stack grows down: a word that is stored below a row of words becomes the
first one of the row. -/
namespace StackMemory

def Memory : Type := BitVec 64 → BitVec 8

/-- Bit `i` of a word is bit `i % 8` of its byte `i / 8`. -/
def load (memory : Memory) (address : BitVec 64) : BitVec 64 :=
  BitVec.ofFnLE fun i : Fin 64 => (memory (address + BitVec.ofNat 64 (i / 8))).getLsbD (i % 8)

def store (memory : Memory) (address value : BitVec 64) : Memory := fun other =>
  if (other - address).toNat < 8 then value.extractLsb' (8 * (other - address).toNat) 8 else memory other

def words (memory : Memory) (address : BitVec 64) (count : Nat) : List (BitVec 64) :=
  (List.range count).map fun i => load memory (address + BitVec.ofNat 64 (8 * i))

theorem load_congr {memory other : Memory} {address : BitVec 64}
    (same : ∀ i < 8, memory (address + BitVec.ofNat 64 i) = other (address + BitVec.ofNat 64 i)) :
    load memory address = load other address := by
  have bytes : ∀ i : Fin 64, memory (address + BitVec.ofNat 64 (i / 8)) = other (address + BitVec.ofNat 64 (i / 8)) :=
    fun i => same (i / 8) (by omega)
  simp only [load,bytes]

theorem load_store (memory : Memory) (address value : BitVec 64) : load (store memory address value) address = value := by
  apply BitVec.eq_of_getElem_eq
  intro i small
  have offset : (address + BitVec.ofNat 64 (i / 8) - address).toNat = i / 8 := by bv_omega
  have inside : i / 8 < 8 := by omega
  have place : 8 * (i / 8) + i % 8 = i := Nat.div_add_mod i 8
  simp only [load,BitVec.getElem_ofFnLE,store,offset,if_pos inside,BitVec.getLsbD_extractLsb',place]
  simp [Nat.mod_lt,BitVec.getLsbD_eq_getElem small]

theorem words_cons (memory : Memory) (address : BitVec 64) (count : Nat) :
    words memory address (count + 1) = load memory address :: words memory (address + 8) count := by
  rw [words,words,List.range_succ_eq_map,List.map_cons,List.map_map,Nat.mul_zero,BitVec.add_zero]
  congr 1
  apply List.map_congr_left
  intro i _
  have next : address + BitVec.ofNat 64 (8 * (i + 1)) = address + 8 + BitVec.ofNat 64 (8 * i) := by bv_omega
  simp only [Function.comp_apply,Nat.succ_eq_add_one,next]

theorem words_congr {memory other : Memory} {address : BitVec 64} {count : Nat}
    (same : ∀ offset < 8 * count, memory (address + BitVec.ofNat 64 offset) = other (address + BitVec.ofNat 64 offset)) :
    words memory address count = words other address count := by
  apply List.map_congr_left
  intro i inside
  have small := List.mem_range.mp inside
  apply load_congr
  intro j near
  have place : address + BitVec.ofNat 64 (8 * i) + BitVec.ofNat 64 j = address + BitVec.ofNat 64 (8 * i + j) := by bv_omega
  rw [place]
  exact same (8 * i + j) (by omega)

theorem words_store_apart {memory : Memory} {address other value : BitVec 64} {count : Nat}
    (above : 8 ≤ (other - address).toNat) (below : (other - address).toNat + 8 * count ≤ 2 ^ 64) :
    words (store memory address value) other count = words memory other count := by
  apply words_congr
  intro offset inside
  have far : ¬ (other + BitVec.ofNat 64 offset - address).toNat < 8 := by bv_omega
  simp only [store,if_neg far]

theorem words_push (memory : Memory) (address value : BitVec 64) {count : Nat} (room : 8 * (count + 1) ≤ 2 ^ 64) :
    words (store memory (address - 8) value) (address - 8) (count + 1) = value :: words memory address count := by
  have top : address - 8 + 8 = address := by bv_omega
  have distance : (address - (address - 8)).toNat = 8 := by bv_omega
  rw [words_cons,load_store,top,words_store_apart]
  · omega
  · omega

end StackMemory
