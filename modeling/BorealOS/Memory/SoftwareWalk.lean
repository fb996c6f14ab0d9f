import BorealOS.Memory.AllocatorRuns
import BorealOS.Memory.HardwareWalk

/-! `GetPhysicalAddress` against the walk of the processor. The software walk
tests only the Present bit, so past a huge leaf it goes on reading, and takes
words of the mapped memory for entries. -/
namespace BorealOS.Memory

open Paging Hardware

namespace Hardware

/-- The entry that a reader who takes every present entry for a pointer to a
table arrives at, with so many tables left to read. -/
def readOn (memory : PhysicalMemory) (vaddr : Word) : (tables : Nat) → Word → Option Word
  | 0, entry => some entry
  | tables + 1, entry =>
    let word := memory (frameOf entry) (tableIndex vaddr (12 + 9 * tables))
    if present word then readOn memory vaddr tables word else none

/-- The words of the mapped memory that stand where a table would have its
entries happen to say what the leaf says: they lead to the frame of the
address, or the address is zero and they lead nowhere. -/
def Leaf.Mimicked (leaf : Leaf) (memory : PhysicalMemory) (vaddr : Word) : Prop :=
  match readOn memory vaddr (leaf.level - 1) leaf.entry with
  | some word => frameOf word = leaf.address vaddr / 4096
  | none => leaf.address vaddr = 0

theorem Leaf.address_mod (leaf : Leaf) (vaddr : Word) : leaf.address vaddr % 4096 = vaddr.toNat % 4096 := by
  have pages : leaf.size = 4096 * 2^(9 * (leaf.level - 1)) := by rw [Leaf.size,Nat.pow_add]
  have whole : 4096 ∣ leaf.size := ⟨_,pages⟩
  rw [Leaf.address,Nat.add_mod,Nat.mod_eq_zero_of_dvd (Dvd.dvd.mul_left whole _),Nat.zero_add,Nat.mod_mod,
    Nat.mod_mod_of_dvd _ whole]

end Hardware

/-- The address of the processor's walk, zero where it finds no translation. -/
def Machine.hardwareAddress (machine : Machine) (state : State) (vaddr : Word) : Nat :=
  match machine.walk state vaddr with
  | some leaf => leaf.address vaddr
  | none => 0

theorem Hardware.walk_readOn (memory : PhysicalMemory) (vaddr : Word) (below table : Nat) :
    ((walk memory vaddr (below + 1) table).bind fun leaf => readOn memory vaddr (leaf.level - 1) leaf.entry) =
      if present (memory table (tableIndex vaddr (12 + 9 * below))) then
        readOn memory vaddr below (memory table (tableIndex vaddr (12 + 9 * below)))
      else none := by
  induction below generalizing table with
  | zero => cases set : present (memory table (tableIndex vaddr (12 + 9 * 0))) <;> simp [walk,readOn,set]
  | succ below ih =>
    rw [walk]
    cases set : present (memory table (tableIndex vaddr (12 + 9 * (below + 1)))) with
    | false => simp
    | true =>
      simp only [Bool.not_true,Bool.false_eq_true,if_false,if_true]
      split
      · rfl
      · rw [ih,readOn]

namespace Paging

variable (machine : Machine) (state : State) (vaddr : Word)

theorem getPhysicalAddress_eq : getPhysicalAddress machine state vaddr =
    match (machine.walk state vaddr).bind fun leaf =>
      readOn machine.memory vaddr (leaf.level - 1) leaf.entry with
    | some entry => (entry &&& pointerMask) ||| (vaddr &&& 0xFFF)
    | none => 0 := by
  rw [Machine.walk,walk_readOn]
  simp only [getPhysicalAddress,extractPageTableIndices,readOn,frameOf,Nat.reduceMul,Nat.reduceAdd,Nat.mul_zero,
    Nat.add_zero]
  obtain ⟨pml4Entry,first⟩ : ∃ entry, machine.memory (frameNumber state.pml4) (tableIndex vaddr 39) = entry :=
    ⟨_,rfl⟩
  obtain ⟨pdpEntry,second⟩ : ∃ entry,
      machine.memory (frameNumber (pml4Entry &&& pointerMask)) (tableIndex vaddr 30) = entry := ⟨_,rfl⟩
  obtain ⟨pdEntry,third⟩ : ∃ entry,
      machine.memory (frameNumber (pdpEntry &&& pointerMask)) (tableIndex vaddr 21) = entry := ⟨_,rfl⟩
  simp only [first,second,third]
  cases present pml4Entry
  · rfl
  cases present pdpEntry
  · rfl
  cases present pdEntry
  · rfl
  cases set : present (machine.memory (frameNumber (pdEntry &&& pointerMask)) (tableIndex vaddr 12)) <;> simp

theorem getPhysicalAddress_agrees_iff :
    (getPhysicalAddress machine state vaddr).toNat = machine.hardwareAddress state vaddr ↔
      ∀ leaf, machine.walk state vaddr = some leaf → leaf.level = 1 ∨ leaf.Mimicked machine.memory vaddr := by
  rw [getPhysicalAddress_eq,Machine.hardwareAddress]
  cases ends : machine.walk state vaddr with
  | none => simp
  | some leaf =>
    simp only [Option.bind_some,Option.some.injEq,forall_eq',Leaf.Mimicked]
    have offset := leaf.address_mod vaddr
    by_cases page : leaf.level = 1
    · simp only [page,Nat.sub_self,readOn,true_or,iff_true]
      rw [or_pageOffset_toNat]
      have size : leaf.size = 4096 := by simp [Leaf.size,page]
      have value := and_pointerMask_toNat leaf.entry
      rw [Leaf.address,size]
      omega
    · simp only [page,false_or]
      cases readOn machine.memory vaddr (leaf.level - 1) leaf.entry with
      | none => simp [eq_comm]
      | some word =>
        have value := and_pointerMask_toNat word
        have frame := frameOf_eq word
        rw [or_pageOffset_toNat]
        constructor
        · intro same
          simp only
          omega
        · intro same
          simp only at same
          omega

end Paging

/-! A hierarchy of three tables whose only leaf is a 2 MiB page of zeroes. -/

def topAtFrameOne : State := ⟨0x1000,by decide⟩

def largePageMemory : PhysicalMemory := fun frame index =>
  if index ≠ 0 then 0
  else if frame = 1 then 0x2003
  else if frame = 2 then 0x3003
  else if frame = 3 then 0x200083
  else 0

def largePageMachine : Machine where
  memory := largePageMemory
  pmm := PhysicalMemoryManager.eightFrames.take 1 3
  freed := []

private theorem largePage_first (index : Fin 512) :
    child 4 (largePageMemory 1 index) = if index = 0 then some 2 else none := by
  by_cases zero : index = 0
  · subst zero
    decide
  · simp [largePageMemory,zero]

private theorem largePage_second (index : Fin 512) :
    child 3 (largePageMemory 2 index) = if index = 0 then some 3 else none := by
  by_cases zero : index = 0
  · subst zero
    decide
  · simp [largePageMemory,zero]

private theorem largePage_third (index : Fin 512) : child 2 (largePageMemory 3 index) = none := by
  by_cases zero : index = 0
  · subst zero
    decide
  · simp [largePageMemory,zero]

theorem largePage_tables {path : List (Fin 512)} {table : Nat}
    (here : largePageMachine.tables topAtFrameOne path = some table) :
    (path = [] ∧ table = 1) ∨ (path = [0] ∧ table = 2) ∨ (path = [0,0] ∧ table = 3) := by
  have top : frameNumber topAtFrameOne.pml4 = 1 := by decide
  rw [Machine.tables,top] at here
  change TableTree.tableAt child largePageMemory 4 1 path = some table at here
  rcases path with _ | ⟨a,_ | ⟨b,_ | ⟨c,path⟩⟩⟩ <;>
    simp only [TableTree.tableAt,largePage_first,Option.some.injEq,Option.bind_eq_some_iff,Option.ite_none_right_eq_some] at here
  · exact Or.inl ⟨rfl,here.symm⟩
  · obtain ⟨_,⟨rfl,rfl⟩,rfl⟩ := here
    exact Or.inr (Or.inl ⟨rfl,rfl⟩)
  · obtain ⟨_,⟨rfl,rfl⟩,_,second,rfl⟩ := here
    simp only [Nat.reduceSub,largePage_second,Option.ite_none_right_eq_some,Option.some.injEq] at second
    obtain ⟨rfl,rfl⟩ := second
    exact Or.inr (Or.inr ⟨rfl,rfl⟩)
  · obtain ⟨_,⟨rfl,rfl⟩,_,second,_,third,_⟩ := here
    simp only [Nat.reduceSub,largePage_second,Option.ite_none_right_eq_some,Option.some.injEq] at second
    obtain ⟨rfl,rfl⟩ := second
    simp [largePage_third] at third

theorem largePage_wellFormed : largePageMachine.WellFormed topAtFrameOne where
  distinct := by
    intro first second table left right
    rcases largePage_tables left with ⟨rfl,rfl⟩ | ⟨rfl,rfl⟩ | ⟨rfl,rfl⟩ <;>
      rcases largePage_tables right with ⟨rfl,same⟩ | ⟨rfl,same⟩ | ⟨rfl,same⟩ <;> first | rfl | cases same
  allocated := by
    intro path table here
    rcases largePage_tables here with ⟨_,rfl⟩ | ⟨_,rfl⟩ | ⟨_,rfl⟩ <;> decide
  clean := by
    intro path index entry read
    obtain ⟨table,here,rfl⟩ := Option.map_eq_some_iff.mp read
    change largePageMemory table index = 0 ∨ present (largePageMemory table index) = true
    by_cases zero : index = 0
    · subst zero
      rcases largePage_tables here with ⟨_,rfl⟩ | ⟨_,rfl⟩ | ⟨_,rfl⟩ <;> exact Or.inr (by decide)
    · exact Or.inl (by simp [largePageMemory,zero])
  bounded := by decide

/-- The second page of the large page has the address 0x201000, and the software
walk answers that it is not mapped. -/
theorem getPhysicalAddress_largePage :
    largePageMachine.WellFormed topAtFrameOne ∧
    largePageMachine.hardwareAddress topAtFrameOne 0x1000 = 0x201000 ∧
    ¬ (getPhysicalAddress largePageMachine topAtFrameOne 0x1000).toNat =
      largePageMachine.hardwareAddress topAtFrameOne 0x1000 :=
  ⟨largePage_wellFormed,by decide,by decide⟩

end BorealOS.Memory
