import BorealOS.Firmware.MADTWalk

/-! Tables that are lists of entries. Where entries fill the table behind its header,
both walks see exactly these entries: counting gives the number of entries of a
type, and a search gives the entry with an index among them. -/
namespace BorealOS.Firmware.ACPI

open ByteObject

/-- An entry of a table. Its length byte counts the two bytes of the header too, so it is
at least 2. -/
structure Entry where
  type : UInt8
  body : List UInt8
  short : body.length + 2 < 256
deriving DecidableEq, Repr

namespace Entry

def size (entry : Entry) : Nat := entry.body.length + 2

def bytes (entry : Entry) : List UInt8 := entry.type :: UInt8.ofNat entry.size :: entry.body

@[simp] theorem length_bytes (entry : Entry) : entry.bytes.length = entry.size := by
  simp [bytes,size]

theorem toNat_size (entry : Entry) : (UInt8.ofNat entry.size).toNat = entry.size := by
  rw [UInt8.toNat_ofNat']
  exact Nat.mod_eq_of_lt entry.short

end Entry

def placed : (offset : Nat) → List Entry → List (Nat × Entry)
  | _, [] => []
  | offset, entry :: entries => (offset,entry) :: placed (offset + entry.size) entries

namespace MADT

/-- The entries fill the table behind its header. -/
def Holds (madt : MADT) (entries : List Entry) : Prop := madt.image.drop sizeofMADT = entries.flatMap Entry.bytes

instance (madt : MADT) (entries : List Entry) : Decidable (madt.Holds entries) := inferInstanceAs (Decidable (_ = _))

def HoldsFrom (madt : MADT) (number : Nat) (entries : List Entry) : Prop :=
  madt.image.drop (madt.entryOffset number) = entries.flatMap Entry.bytes

variable {madt : MADT} {number : Nat}

theorem not_within_of_holdsFrom (holds : madt.HoldsFrom number []) : ¬ madt.Within number :=
  Nat.not_lt_of_le (List.drop_eq_nil_iff.mp holds)

section Entry
variable {entry : Entry} {entries : List Entry} (holds : madt.HoldsFrom number (entry::entries))
include holds

private theorem byte_of_holdsFrom (i : Nat) (inside : i < entry.size) :
    madt.image[madt.entryOffset number + i]? = entry.bytes[i]? := by
  rw [← List.getElem?_drop,holds,List.flatMap_cons,List.getElem?_append_left (by rw [entry.length_bytes]; exact inside)]

theorem complete_of_holdsFrom : madt.Complete number := by
  have second := byte_of_holdsFrom holds 1 (by unfold Entry.size; omega)
  exact (List.getElem?_eq_some_iff.mp second).1

theorem typeAt_of_holdsFrom : madt.typeAt (madt.entryOffset number) = entry.type := by
  have first := byte_of_holdsFrom holds 0 (by unfold Entry.size; omega)
  rw [Nat.add_zero] at first
  rw [typeAt,List.getD_eq_getElem?_getD,first]
  rfl

theorem lengthAt_of_holdsFrom : madt.lengthAt (madt.entryOffset number) = entry.size := by
  rw [lengthAt,List.getD_eq_getElem?_getD,byte_of_holdsFrom holds 1 (by unfold Entry.size; omega)]
  exact entry.toNat_size

theorem entryOffset_of_holdsFrom : madt.entryOffset (number + 1) = madt.entryOffset number + entry.size := by
  rw [entryOffset_succ,lengthAt_of_holdsFrom holds]

theorem HoldsFrom.tail : madt.HoldsFrom (number + 1) entries := by
  rw [HoldsFrom,entryOffset_of_holdsFrom holds,← List.drop_drop,holds,List.flatMap_cons,List.drop_left' entry.length_bytes]

theorem ofType_of_holdsFrom (type : MADTEntryType) : madt.OfType type number ↔ entry.type = type.value := by
  rw [OfType,typeAt_of_holdsFrom holds]

end Entry

end MADT

variable {madt : MADT} (type : MADTEntryType)

def placedOf (offset : Nat) (entries : List Entry) : List (Nat × Entry) :=
  (placed offset entries).filter fun place => place.2.type = type.value

theorem placedOf_cons (offset : Nat) (entry : Entry) (entries : List Entry) : placedOf type offset (entry::entries) =
    (if entry.type = type.value then [(offset,entry)] else []) ++ placedOf type (offset + entry.size) entries := by
  simp only [placedOf,placed,List.filter_cons,decide_eq_true_eq]
  split <;> rfl

theorem map_snd_placedOf (offset : Nat) (entries : List Entry) :
    (placedOf type offset entries).map Prod.snd = entries.filter fun entry => entry.type = type.value := by
  induction entries generalizing offset with
  | nil => rfl
  | cons entry entries ih =>
    rw [placedOf_cons,List.map_append,ih,List.filter_cons]
    by_cases right : entry.type = type.value
    · simp [right]
    · simp [right]

theorem length_placedOf (offset : Nat) (entries : List Entry) :
    (placedOf type offset entries).length = entries.countP fun entry => entry.type = type.value := by
  rw [← List.length_map Prod.snd,map_snd_placedOf,List.countP_eq_length_filter]

theorem countLoop_holdsFrom {number : Nat} {entries : List Entry} (holds : madt.HoldsFrom number entries) {rounds : Nat}
    (enough : entries.length < rounds) (count : Nat) : countLoop madt type rounds (madt.entryOffset number) count =
      .ok (count + entries.countP fun entry => entry.type = type.value) := by
  induction entries generalizing number rounds count with
  | nil =>
    obtain ⟨rounds,rfl⟩ : ∃ n, rounds = n + 1 := ⟨rounds - 1,by simp at enough; omega⟩
    exact countLoop_past madt type (MADT.not_within_of_holdsFrom holds) rounds count
  | cons entry entries ih =>
    rw [List.length_cons] at enough
    obtain ⟨rounds,rfl⟩ : ∃ n, rounds = n + 1 := ⟨rounds - 1,by omega⟩
    rw [countLoop_complete madt type (MADT.complete_of_holdsFrom holds),ih holds.tail (by omega),List.countP_cons]
    by_cases right : entry.type = type.value
    · rw [if_pos ((MADT.ofType_of_holdsFrom holds type).mpr right)]
      simp only [right,decide_true,if_true]
      congr 1
      omega
    · rw [if_neg (fun of => right ((MADT.ofType_of_holdsFrom holds type).mp of))]
      simp [right]

theorem entryLoop_holdsFrom {number : Nat} {entries : List Entry} (holds : madt.HoldsFrom number entries) {rounds : Nat}
    (enough : entries.length < rounds) (index : Nat) : entryLoop madt type rounds (madt.entryOffset number) index =
      .ok ((placedOf type (madt.entryOffset number) entries)[index]?.map Prod.fst) := by
  induction entries generalizing number rounds index with
  | nil =>
    obtain ⟨rounds,rfl⟩ : ∃ n, rounds = n + 1 := ⟨rounds - 1,by simp at enough; omega⟩
    exact entryLoop_past madt type (MADT.not_within_of_holdsFrom holds) rounds index
  | cons entry entries ih =>
    rw [List.length_cons] at enough
    obtain ⟨rounds,rfl⟩ : ∃ n, rounds = n + 1 := ⟨rounds - 1,by omega⟩
    have complete := MADT.complete_of_holdsFrom holds
    have later := MADT.entryOffset_of_holdsFrom holds
    rw [placedOf_cons,← later]
    by_cases right : entry.type = type.value
    · have here := (MADT.ofType_of_holdsFrom holds type).mpr right
      rw [if_pos right,List.singleton_append]
      cases index with
      | zero => exact entryLoop_found madt type (Nat.lt_of_succ_lt complete) here rounds
      | succ index =>
        rw [entryLoop_passed madt type complete (fun _ => Nat.succ_ne_zero index),if_pos here,Nat.succ_sub_one,
          ih holds.tail (by omega),List.getElem?_cons_succ]
    · have other : ¬ madt.OfType type number := fun of => right ((MADT.ofType_of_holdsFrom holds type).mp of)
      rw [if_neg right,List.nil_append,entryLoop_passed madt type complete (fun of => absurd of other),if_neg other,
        ih holds.tail (by omega)]

theorem bytes_placed {number : Nat} {entries : List Entry} (holds : madt.HoldsFrom number entries) {place : Nat × Entry}
    (member : place ∈ placed (madt.entryOffset number) entries) :
    (madt.image.drop place.1).take place.2.size = place.2.bytes := by
  induction entries generalizing number with
  | nil => cases member
  | cons entry entries ih =>
    rcases List.mem_cons.mp member with rfl | later
    · rw [holds,List.flatMap_cons,List.take_left' entry.length_bytes]
    · rw [← MADT.entryOffset_of_holdsFrom holds] at later
      exact ih holds.tail later

section Walks
variable {entries : List Entry} (holds : madt.Holds entries) {rounds : Nat} (enough : entries.length < rounds)
include holds

theorem bytes_placedOf {place : Nat × Entry} (member : place ∈ placedOf type sizeofMADT entries) :
    (madt.image.drop place.1).take place.2.size = place.2.bytes := by
  have start : madt.HoldsFrom 0 entries := holds
  exact bytes_placed start (List.mem_of_mem_filter member)

include enough

theorem findMADTEntryCount_holds :
    findMADTEntryCount rounds madt type = .ok (placedOf type sizeofMADT entries).length := by
  have start : madt.HoldsFrom 0 entries := holds
  have counted := countLoop_holdsFrom type start enough 0
  rwa [Nat.zero_add,← length_placedOf type sizeofMADT] at counted

theorem findMADTEntry_holds (index : Nat) :
    findMADTEntry rounds madt type index = .ok ((placedOf type sizeofMADT entries)[index]?.map Prod.fst) := by
  have start : madt.HoldsFrom 0 entries := holds
  exact entryLoop_holdsFrom type start enough index

end Walks

/-- Counting and searching agree with the list of entries. -/
theorem walks_agree_with_entries (madt : MADT) (entries : List Entry) (holds : madt.Holds entries) (type : MADTEntryType)
    (rounds : Nat) (enough : entries.length < rounds) :
    findMADTEntryCount rounds madt type = .ok (entries.countP fun entry => entry.type = type.value) ∧
    (∀ index, index < (entries.countP fun entry => entry.type = type.value) →
      ∃ place, (placedOf type sizeofMADT entries)[index]? = some place ∧
        findMADTEntry rounds madt type index = .ok (some place.1) ∧
        (madt.image.drop place.1).take place.2.size = place.2.bytes) ∧
    (∀ index, (entries.countP fun entry => entry.type = type.value) ≤ index →
      findMADTEntry rounds madt type index = .ok none) := by
  rw [← length_placedOf type sizeofMADT]
  refine ⟨findMADTEntryCount_holds type holds enough,?_,?_⟩
  · intro index inside
    have here := List.getElem?_eq_getElem inside
    refine ⟨_,here,?_,bytes_placedOf type holds (List.getElem_mem inside)⟩
    rw [findMADTEntry_holds type holds enough,here]
    rfl
  · intro index outside
    rw [findMADTEntry_holds type holds enough,List.getElem?_eq_none outside]
    rfl

/-- An entry of the source overrides, between two others of another type. -/
def overrideEntries : List Entry :=
  [⟨1,[2,0,0,0,0xC0,0xFE,0,0,0,0],by decide⟩,⟨2,[0,0,2,0,0,0,0,0],by decide⟩,⟨4,[0xFF,0,0,1],by decide⟩]

def overrideTable : MADT where
  image := [0,0,0,0,72,0,0,0] ++ List.replicate 36 0 ++ overrideEntries.flatMap Entry.bytes
  headed := by decide
  sized := by decide

theorem walks_agree_with_override : overrideTable.Holds overrideEntries ∧
    findMADTEntryCount 4 overrideTable .irqSrcOverride = .ok 1 ∧
    findMADTEntry 4 overrideTable .irqSrcOverride 0 = .ok (some 56) ∧
    findMADTEntry 4 overrideTable .irqSrcOverride 1 = .ok none := by
  have holds : overrideTable.Holds overrideEntries := by decide
  obtain ⟨count,found,absent⟩ := walks_agree_with_entries overrideTable overrideEntries holds .irqSrcOverride 4 (by decide)
  obtain ⟨place,here,first,_⟩ := found 0 (by decide)
  have fixed : place.1 = 56 := by
    have at' : (placedOf .irqSrcOverride sizeofMADT overrideEntries)[0]?.map Prod.fst = some 56 := by decide
    rw [here] at at'
    exact Option.some.inj at'
  exact ⟨holds,count,by rw [first,fixed],absent 1 (by decide)⟩

end BorealOS.Firmware.ACPI
