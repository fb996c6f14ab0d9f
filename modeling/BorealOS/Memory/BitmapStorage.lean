import BorealOS.Memory.MemoryMap

/-! The step of `Initialize` that reserves the two bitmaps, by itself: which pages it
reserves, and when these are the pages of the bitmaps. -/
namespace BorealOS.Memory.PhysicalMemoryManager

open PackedBitmap

/-- Where the bitmaps are put: whole pages of the physical address space, as the frames
that they describe are. -/
structure Storage where
  bitmapMemory : Word
  bitmapSize : Word
  aligned : bitmapMemory.toNat % 4096 = 0
  beyondFirst : 4096 ≤ bitmapMemory.toNat
  wholePages : bitmapSize.toNat % 4096 = 0
  nonempty : 0 < bitmapSize.toNat
  addressable : bitmapMemory.toNat + 2 * bitmapSize.toNat ≤ 2^64

namespace Storage

variable (storage : Storage)

def firstPage : Nat := storage.bitmapMemory.toNat / 4096

def pageCount : Nat := 2 * storage.bitmapSize.toNat / 4096

def reserve (bytes : Nat → BitVec 8) : Nat → BitVec 8 :=
  reserveBitmaps storage.bitmapMemory (storage.bitmapSize * 2) bytes

structure Protects (before after : Nat → BitVec 8) : Prop where
  inside : ∀ page, storage.firstPage ≤ page → page < storage.firstPage + storage.pageCount → bit after page = true
  outside : ∀ page, page < storage.firstPage ∨ storage.firstPage + storage.pageCount ≤ page →
    bit after page = bit before page

/-- The page at which the loop stops: the size of the storage in pages, and the number of
its first page divided by the page size. -/
def reservedEnd : Nat := storage.pageCount + (storage.firstPage + 4095) / 4096

theorem reserve_bit (bytes : Nat → BitVec 8) (page : Nat) :
    bit (storage.reserve bytes) page = true ↔
      (storage.firstPage ≤ page ∧ page < storage.reservedEnd) ∨ bit bytes page = true := by
  have small := storage.addressable
  have beyond := storage.beyondFirst
  have aligned := storage.aligned
  have whole := storage.wholePages
  have size : (storage.bitmapSize * 2).toNat = 2 * storage.bitmapSize.toNat := by
    have two : (2 : Word).toNat = 2 := by decide
    rw [BitVec.toNat_mul,two]
    omega
  rw [reserve,reserveBitmaps_bit _ _ _ _ (by omega),size]
  unfold firstPage reservedEnd firstPage pageCount
  have sum : (storage.bitmapMemory.toNat / 4096 + 2 * storage.bitmapSize.toNat + 4095) / 4096 =
      2 * storage.bitmapSize.toNat / 4096 + (storage.bitmapMemory.toNat / 4096 + 4095) / 4096 := by omega
  rw [sum]

theorem pageCount_pos : 0 < storage.pageCount := by
  have whole := storage.wholePages
  have nonempty := storage.nonempty
  unfold pageCount
  omega

theorem reservedEnd_le : storage.reservedEnd ≤ storage.firstPage + storage.pageCount := by
  have beyond := storage.beyondFirst
  unfold reservedEnd firstPage
  omega

theorem reservedEnd_eq_iff : storage.firstPage + storage.pageCount ≤ storage.reservedEnd ↔ storage.bitmapMemory = 4096#64 := by
  have beyond := storage.beyondFirst
  have aligned := storage.aligned
  rw [← BitVec.toNat_inj,BitVec.toNat_ofNat]
  unfold reservedEnd firstPage
  omega

/-- The pages of the storage that the loop misses, those from `reservedEnd` on, are reserved. -/
def MissedReserved (bytes : Nat → BitVec 8) : Prop :=
  ∀ page, storage.firstPage ≤ page → storage.reservedEnd ≤ page → page < storage.firstPage + storage.pageCount →
    bit bytes page = true

variable {storage} {bytes : Nat → BitVec 8}

theorem Protects.missedReserved (protects : storage.Protects bytes (storage.reserve bytes)) : storage.MissedReserved bytes := by
  intro page low beyond high
  obtain ⟨_,reached⟩ | set := (storage.reserve_bit bytes page).mp (protects.inside page low high)
  · omega
  · exact set

theorem MissedReserved.protects (missed : storage.MissedReserved bytes) : storage.Protects bytes (storage.reserve bytes) := by
  constructor
  · intro page low high
    rw [reserve_bit]
    by_cases reached : page < storage.reservedEnd
    · exact Or.inl ⟨low,reached⟩
    · exact Or.inr (missed page low (Nat.le_of_not_lt reached) high)
  · intro page apart
    have stop := storage.reservedEnd_le
    rw [Bool.eq_iff_iff,reserve_bit]
    refine or_iff_right ?_
    omega

/-- The step protects the storage if and only if the pages that it misses were reserved
before. -/
theorem reserve_protects_iff (storage : Storage) (bytes : Nat → BitVec 8) :
    storage.Protects bytes (storage.reserve bytes) ↔ storage.MissedReserved bytes :=
  ⟨Protects.missedReserved,MissedReserved.protects⟩

/-- Whatever was reserved before, exactly where the storage begins with the second page. -/
theorem always_protects_iff (storage : Storage) :
    (∀ bytes, storage.Protects bytes (storage.reserve bytes)) ↔ storage.bitmapMemory = 4096#64 := by
  rw [← reservedEnd_eq_iff]
  constructor
  · intro always
    by_contra short
    have pages := storage.pageCount_pos
    have missed := (always fun _ => 0#8).missedReserved (storage.firstPage + storage.pageCount - 1)
      (by omega) (by omega) (by omega)
    simp [bit] at missed
  · intro whole bytes
    apply MissedReserved.protects
    intro page _ beyond high
    omega

def thirdPage : Storage where
  bitmapMemory := 8192#64
  bitmapSize := 4096#64
  aligned := by decide
  beyondFirst := by decide
  wholePages := by decide
  nonempty := by decide
  addressable := by decide

/-- Pages 2 and 3 hold the bitmaps, and only page 2 gets reserved. -/
theorem thirdPage_is_not_protected :
    ¬ ∀ (storage : Storage) (bytes : Nat → BitVec 8), storage.Protects bytes (storage.reserve bytes) := by
  intro always
  have kept := always thirdPage fun _ => 0#8
  have last := kept.inside 3 (by decide) (by decide)
  rw [reserve_bit] at last
  exact absurd last (by decide)

end Storage

end BorealOS.Memory.PhysicalMemoryManager
