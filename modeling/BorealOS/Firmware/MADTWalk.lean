import BorealOS.Firmware.ACPI

/-! When the walks over a table end inside of it. The entries form a chain that
only depends on the length bytes. Counting follows the whole chain; a search
stops at the entry it looks for, and even an entry of length zero stops it in the
end when the entry has the right type. -/
namespace BorealOS.Firmware.ACPI

open ByteObject

namespace MADT

/-- The first byte of an entry header, and the second. -/
def typeAt (madt : MADT) (offset : Nat) : UInt8 := madt.image.getD offset 0

def lengthAt (madt : MADT) (offset : Nat) : Nat := (madt.image.getD (offset + 1) 0).toNat

/-- Where the entry with a number starts when the length bytes are added up. -/
def entryOffset (madt : MADT) : Nat → Nat
  | 0 => sizeofMADT
  | number + 1 => madt.entryOffset number + madt.lengthAt (madt.entryOffset number)

def Within (madt : MADT) (number : Nat) : Prop := madt.entryOffset number < madt.image.length

def Complete (madt : MADT) (number : Nat) : Prop := madt.entryOffset number + 1 < madt.image.length

def Stalls (madt : MADT) (number : Nat) : Prop := madt.lengthAt (madt.entryOffset number) = 0

def OfType (madt : MADT) (type : MADTEntryType) (number : Nat) : Prop :=
  madt.typeAt (madt.entryOffset number) = type.value

instance (madt : MADT) (type : MADTEntryType) : DecidablePred (madt.OfType type) :=
  fun number => inferInstanceAs (Decidable (madt.typeAt (madt.entryOffset number) = type.value))

variable (madt : MADT)

theorem read_inside {offset : Nat} (inside : offset < madt.image.length) :
    madt.read offset = .ok (madt.image.getD offset 0) := by
  apply Pointer.read_of_some
  simp [Pointer.bytes,List.getD_eq_getElem?_getD,List.getElem?_eq_getElem inside]

theorem read_outside {offset : Nat} (outside : madt.image.length ≤ offset) :
    madt.read offset = .error .outOfBounds := by
  apply Pointer.read_of_none
  simpa [Pointer.bytes] using outside

@[simp] theorem length_eq : madt.length = .ok madt.image.length := by
  have headed := madt.headed
  have field (i : Nat) (small : i < 8) : madt.read i = .ok (madt.image.getD i 0) :=
    madt.read_inside (by unfold sizeofMADT sizeofSDTHeader at headed; omega)
  simp only [length,field 4 (by omega),field 5 (by omega),field 6 (by omega),field 7 (by omega),ok_bind,pure_eq_ok]
  exact congrArg Except.ok madt.sized

theorem entryOffset_succ (number : Nat) :
    madt.entryOffset (number + 1) = madt.entryOffset number + madt.lengthAt (madt.entryOffset number) := rfl

theorem entryOffset_mono {first second : Nat} (order : first ≤ second) :
    madt.entryOffset first ≤ madt.entryOffset second := by
  induction order with
  | refl => exact le_rfl
  | step _ ih => exact ih.trans (Nat.le_add_right _ _)

theorem not_within_later {first second : Nat} (order : first ≤ second) (past : ¬ madt.Within first) :
    ¬ madt.Within second := by
  have later := madt.entryOffset_mono order
  unfold Within at past ⊢
  omega

theorem entryOffset_stalled {number : Nat} (stalls : madt.Stalls number) :
    madt.entryOffset (number + 1) = madt.entryOffset number := by
  rw [entryOffset_succ,stalls,Nat.add_zero]

end MADT

variable (madt : MADT) (type : MADTEntryType)

/-! One round of each loop at an entry of the chain. -/

theorem countLoop_past {number : Nat} (past : ¬ madt.Within number) (rounds count : Nat) :
    countLoop madt type (rounds + 1) (madt.entryOffset number) count = .ok count := by
  rw [countLoop,madt.length_eq,ok_bind,if_pos (Nat.le_of_not_lt past)]
  rfl

theorem countLoop_cut {number : Nat} (within : madt.Within number) (cut : ¬ madt.Complete number) (rounds count : Nat) :
    countLoop madt type (rounds + 1) (madt.entryOffset number) count = .error .outOfBounds := by
  rw [countLoop,madt.length_eq,ok_bind,if_neg (Nat.not_le_of_lt within),madt.read_inside within,ok_bind,
    madt.read_outside (Nat.le_of_not_lt cut)]
  rfl

theorem countLoop_complete {number : Nat} (complete : madt.Complete number) (rounds count : Nat) :
    countLoop madt type (rounds + 1) (madt.entryOffset number) count =
      countLoop madt type rounds (madt.entryOffset (number + 1)) (if madt.OfType type number then count + 1 else count) := by
  have within : madt.Within number := Nat.lt_of_succ_lt complete
  rw [countLoop,madt.length_eq,ok_bind,if_neg (Nat.not_le_of_lt within),madt.read_inside within,ok_bind,
    madt.read_inside complete,ok_bind]
  rfl

theorem entryLoop_past {number : Nat} (past : ¬ madt.Within number) (rounds index : Nat) :
    entryLoop madt type (rounds + 1) (madt.entryOffset number) index = .ok none := by
  rw [entryLoop,madt.length_eq,ok_bind,if_pos (Nat.le_of_not_lt past)]
  rfl

theorem entryLoop_found {number : Nat} (within : madt.Within number) (right : madt.OfType type number) (rounds : Nat) :
    entryLoop madt type (rounds + 1) (madt.entryOffset number) 0 = .ok (some (madt.entryOffset number)) := by
  unfold MADT.OfType MADT.typeAt at right
  rw [entryLoop,madt.length_eq,ok_bind,if_neg (Nat.not_le_of_lt within),madt.read_inside within,ok_bind,if_pos right]
  rfl

theorem entryLoop_cut {number : Nat} (within : madt.Within number) (cut : ¬ madt.Complete number) {index : Nat}
    (passed : madt.OfType type number → index ≠ 0) (rounds : Nat) :
    entryLoop madt type (rounds + 1) (madt.entryOffset number) index = .error .outOfBounds := by
  rw [entryLoop,madt.length_eq,ok_bind,if_neg (Nat.not_le_of_lt within),madt.read_inside within,ok_bind,
    madt.read_outside (Nat.le_of_not_lt cut)]
  split
  · rw [if_neg (passed ‹_›)]
    rfl
  · rfl

theorem entryLoop_passed {number : Nat} (complete : madt.Complete number) {index : Nat}
    (passed : madt.OfType type number → index ≠ 0) (rounds : Nat) :
    entryLoop madt type (rounds + 1) (madt.entryOffset number) index =
      entryLoop madt type rounds (madt.entryOffset (number + 1)) (if madt.OfType type number then index - 1 else index) := by
  have within : madt.Within number := Nat.lt_of_succ_lt complete
  rw [entryLoop,madt.length_eq,ok_bind,if_neg (Nat.not_le_of_lt within),madt.read_inside within,ok_bind,
    madt.read_inside complete,ok_bind]
  change (if madt.OfType type number then _ else _) = _
  by_cases right : madt.OfType type number
  · rw [if_pos right,if_pos right,if_neg (passed right)]
    rfl
  · rw [if_neg right,if_neg right]
    rfl

/-! Counting ends if and only if no entry of the chain is cut off or stalls. -/

/-- Counting can pass the entry: its header lies inside of the table and its length
byte leads on. -/
def MADT.Passable (number : Nat) : Prop := madt.Within number → madt.Complete number ∧ ¬ madt.Stalls number

theorem passable_of_counted {rounds number count total : Nat}
    (counted : countLoop madt type rounds (madt.entryOffset number) count = .ok total) :
    ∀ later, number ≤ later → madt.Passable later := by
  induction rounds generalizing number count with
  | zero => simp [countLoop] at counted
  | succ rounds ih =>
    intro later order within
    by_cases past : madt.Within number
    · by_cases complete : madt.Complete number
      · rw [countLoop_complete madt type complete] at counted
        rcases order.eq_or_lt with rfl | behind
        · refine ⟨complete,fun stalls => ?_⟩
          -- a stalled entry comes again with the next number
          have again := madt.entryOffset_stalled stalls
          have next := ih counted (number + 1) le_rfl (by rwa [MADT.Within,again])
          exact next.2 (by rwa [MADT.Stalls,again])
        · exact ih counted later behind within
      · rw [countLoop_cut madt type past complete] at counted
        simp at counted
    · exact absurd within (madt.not_within_later order past)

theorem counted_of_passable {number : Nat} (passable : ∀ later, number ≤ later → madt.Passable later) (count : Nat) :
    ∃ rounds total, countLoop madt type rounds (madt.entryOffset number) count = .ok total := by
  induction left : madt.image.length - madt.entryOffset number using Nat.strong_induction_on generalizing number count with
  | _ distance ih =>
    by_cases within : madt.Within number
    · obtain ⟨complete,moves⟩ := passable number le_rfl within
      have closer : madt.image.length - madt.entryOffset (number + 1) < distance := by
        unfold MADT.Within at within
        unfold MADT.Stalls at moves
        rw [madt.entryOffset_succ]
        omega
      obtain ⟨rounds,total,run⟩ := ih _ closer (fun later order => passable later (by omega))
        (if madt.OfType type number then count + 1 else count) rfl
      exact ⟨rounds + 1,total,by rwa [countLoop_complete madt type complete]⟩
    · exact ⟨1,count,countLoop_past madt type within 0 count⟩

/-! A search ends if and only if this holds of the entries before the one it is
looking for, where an entry of the right type may stall. -/

def MADT.Searchable (number : Nat) : Prop :=
  madt.Within number → madt.Complete number ∧ (madt.OfType type number ∨ ¬ madt.Stalls number)

private theorem position_behind {number remaining index : Nat}
    (position : Nat.count (madt.OfType type) number + remaining = index)
    (passed : madt.OfType type number → remaining ≠ 0) :
    Nat.count (madt.OfType type) (number + 1) + (if madt.OfType type number then remaining - 1 else remaining) = index := by
  rw [Nat.count_succ]
  split
  · have := passed ‹_›
    omega
  · omega

theorem searchable_of_found {rounds number remaining index : Nat} {found : Option Nat}
    (position : Nat.count (madt.OfType type) number + remaining = index)
    (run : entryLoop madt type rounds (madt.entryOffset number) remaining = .ok found) :
    ∀ later, number ≤ later → Nat.count (madt.OfType type) (later + 1) ≤ index → madt.Searchable type later := by
  induction rounds generalizing number remaining with
  | zero => simp [entryLoop] at run
  | succ rounds ih =>
    intro later order before within
    have counted : Nat.count (madt.OfType type) (number + 1) ≤ index :=
      (Nat.count_monotone _ (by omega)).trans before
    rw [Nat.count_succ] at counted
    have passed : madt.OfType type number → remaining ≠ 0 := by
      intro right
      rw [if_pos right] at counted
      omega
    by_cases past : madt.Within number
    · by_cases complete : madt.Complete number
      · rw [entryLoop_passed madt type complete passed] at run
        have behind := position_behind madt type position passed
        rcases order.eq_or_lt with rfl | order
        · refine ⟨complete,?_⟩
          by_contra stuck
          obtain ⟨wrong,stalls⟩ := not_or.mp stuck
          rw [not_not] at stalls
          have again := madt.entryOffset_stalled stalls
          have still : ¬ madt.OfType type (number + 1) := by rwa [MADT.OfType,again]
          have next := ih behind run (number + 1) le_rfl (by rw [Nat.count_succ,if_neg still]; omega)
            (by rwa [MADT.Within,again])
          exact next.2.elim still (fun moves => moves (by rwa [MADT.Stalls,again]))
        · exact ih behind run later order before within
      · rw [entryLoop_cut madt type past complete passed] at run
        simp at run
    · exact absurd within (madt.not_within_later order past)

theorem found_of_searchable {number remaining index : Nat}
    (position : Nat.count (madt.OfType type) number + remaining = index)
    (searchable : ∀ later, number ≤ later → Nat.count (madt.OfType type) (later + 1) ≤ index →
      madt.Searchable type later) :
    ∃ rounds found, entryLoop madt type rounds (madt.entryOffset number) remaining = .ok found := by
  -- every round comes closer to the end of the table or to the entry looked for
  induction left : madt.image.length - madt.entryOffset number + remaining using Nat.strong_induction_on
    generalizing number remaining with
  | _ distance ih =>
    by_cases within : madt.Within number
    · by_cases here : madt.OfType type number ∧ remaining = 0
      · obtain ⟨right,rfl⟩ := here
        exact ⟨1,_,entryLoop_found madt type within right 0⟩
      · have passed : madt.OfType type number → remaining ≠ 0 := fun right zero => here ⟨right,zero⟩
        have behind := position_behind madt type position passed
        obtain ⟨complete,moves⟩ := searchable number le_rfl (by omega) within
        have closer : madt.image.length - madt.entryOffset (number + 1) +
            (if madt.OfType type number then remaining - 1 else remaining) < distance := by
          unfold MADT.Within at within
          unfold MADT.Stalls at moves
          rw [madt.entryOffset_succ]
          split
          · have := passed ‹_›
            omega
          · have := moves.resolve_left ‹_›
            omega
        obtain ⟨rounds,found,run⟩ := ih _ closer behind (fun later order => searchable later (by omega)) rfl
        exact ⟨rounds + 1,found,by rwa [entryLoop_passed madt type complete passed]⟩
    · exact ⟨1,none,entryLoop_past madt type within 0 remaining⟩

/-- A walk is safe when some number of rounds ends it without a read outside of the
table. -/
def CountSafe : Prop := ∃ rounds count, findMADTEntryCount rounds madt type = .ok count

def FindSafe (index : Nat) : Prop := ∃ rounds found, findMADTEntry rounds madt type index = .ok found

/-- Counting is safe exactly when no entry of the chain has its length byte outside of
the table or a length byte of zero. For a search the same is needed of the entries up
to the one it looks for, and of them an entry of the right type may have length zero. -/
theorem walks_safe_iff (index : Nat) :
    (CountSafe madt type ↔ ∀ number, madt.Within number → madt.Complete number ∧ ¬ madt.Stalls number) ∧
      (FindSafe madt type index ↔ ∀ number, Nat.count (madt.OfType type) (number + 1) ≤ index →
        madt.Within number → madt.Complete number ∧ (madt.OfType type number ∨ ¬ madt.Stalls number)) := by
  constructor
  · constructor
    · rintro ⟨rounds,count,run⟩ number
      exact passable_of_counted madt type (show countLoop madt type rounds (madt.entryOffset 0) 0 = _ from run) number
        (Nat.zero_le number)
    · intro passable
      exact counted_of_passable madt type (show ∀ later, 0 ≤ later → _ from fun later _ => passable later) 0
  · have position : Nat.count (madt.OfType type) 0 + index = index := by simp
    constructor
    · rintro ⟨rounds,found,run⟩ number
      exact searchable_of_found madt type position
        (show entryLoop madt type rounds (madt.entryOffset 0) index = _ from run) number (Nat.zero_le number)
    · intro searchable
      exact found_of_searchable madt type position (fun later _ => searchable later)

def emptyEntry : MADT where
  image := [0,0,0,0,46,0,0,0] ++ List.replicate 38 0
  headed := by decide
  sized := by decide

/-- On this table counting goes around forever. -/
theorem walks_not_always_safe :
    ¬ ∀ (madt : MADT) (type : MADTEntryType) (index : Nat), CountSafe madt type ∧ FindSafe madt type index := by
  intro always
  obtain ⟨⟨rounds,count,run⟩,_⟩ := always emptyEntry .localAPIC 0
  have passable := passable_of_counted emptyEntry .localAPIC
    (show countLoop emptyEntry .localAPIC rounds (emptyEntry.entryOffset 0) 0 = _ from run) 0 le_rfl
  exact (passable (show 44 < 46 by decide)).2 (show emptyEntry.lengthAt 44 = 0 by decide)

end BorealOS.Firmware.ACPI
