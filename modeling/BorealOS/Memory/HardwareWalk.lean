import BorealOS.Memory.Hierarchy

/-! The translation that the processor makes with a page-table hierarchy, in
the 4-level format: the Present bit is tested at each level, and the HugePage
bit ends the walk in a table of level 3 or 2. The walk is followed along the
paths of tables, and where it meets no huge leaf it ends at an entry of a table
of pages. -/
namespace BorealOS.Memory

open Paging

namespace Hardware

/-- The entry a walk ends at and the level of its table: 1 for a page of 4 KiB,
2 for 2 MiB and 3 for 1 GiB. -/
structure Leaf where
  level : Nat
  entry : Word
deriving DecidableEq, Repr

def Leaf.size (leaf : Leaf) : Nat := 2^(12 + 9 * (leaf.level - 1))

def Leaf.address (leaf : Leaf) (vaddr : Word) : Nat :=
  (leaf.entry &&& pointerMask).toNat / leaf.size * leaf.size + vaddr.toNat % leaf.size

def Leaf.flags (leaf : Leaf) : Word := leaf.entry &&& flagsMask

def walk (memory : PhysicalMemory) (vaddr : Word) : (level : Nat) → (table : Nat) → Option Leaf
  | 0, _ => none
  | below + 1, table =>
    let entry := memory table (tableIndex vaddr (12 + 9 * below))
    if !present entry then none
    else if below = 0 ∨ (below ≤ 2 ∧ huge entry) then some ⟨below + 1,entry⟩
    else walk memory vaddr below (frameOf entry)

section Steps
variable {memory : PhysicalMemory} {vaddr : Word} {below table : Nat}

theorem walk_absent (absent : present (memory table (tableIndex vaddr (12 + 9 * below))) = false) :
    walk memory vaddr (below + 1) table = none := by
  simp [walk,absent]

theorem walk_child {next : Nat}
    (down : child (below + 1) (memory table (tableIndex vaddr (12 + 9 * below))) = some next) :
    walk memory vaddr (below + 1) table = walk memory vaddr below next := by
  obtain ⟨set,high,flat,rfl⟩ := child_some down
  have inner : ¬ (below = 0 ∨ (below ≤ 2 ∧ huge (memory table (tableIndex vaddr (12 + 9 * below))) = true)) := by
    rintro (bottom | ⟨low,leaf⟩)
    · omega
    · rw [flat (by omega)] at leaf
      cases leaf
  simp only [walk,set,Bool.not_true,Bool.false_eq_true,if_false,if_neg inner]

theorem walk_leaf (set : present (memory table (tableIndex vaddr (12 + 9 * below))) = true) (low : below ≤ 3)
    (ends : child (below + 1) (memory table (tableIndex vaddr (12 + 9 * below))) = none) :
    walk memory vaddr (below + 1) table =
      some ⟨below + 1,memory table (tableIndex vaddr (12 + 9 * below))⟩ := by
  have leaf : below = 0 ∨ (below ≤ 2 ∧ huge (memory table (tableIndex vaddr (12 + 9 * below))) = true) := by
    by_contra inner
    have flat : ¬ (below + 1 ≤ 3 ∧ huge (memory table (tableIndex vaddr (12 + 9 * below))) = true) := by
      rintro ⟨small,leaf⟩
      exact inner (Or.inr ⟨by omega,leaf⟩)
    have high : 2 ≤ below + 1 := by omega
    simp only [child,set,high,decide_true,Bool.and_self,Bool.true_and,Bool.not_eq_true',Bool.and_eq_false_iff,
      decide_eq_false_iff_not,ite_eq_right_iff,reduceCtorEq,imp_false] at ends
    apply ends
    by_cases small : below + 1 ≤ 3
    · exact Or.inr (by simpa using fun leaf => flat ⟨small,leaf⟩)
    · exact Or.inl small
  simp only [walk,set,Bool.not_true,Bool.false_eq_true,if_false,if_pos leaf]

theorem walk_pages (memory : PhysicalMemory) (vaddr : Word) (table : Nat) : walk memory vaddr 1 table =
    ((some (memory table (tableIndex vaddr 12))).filter present).map fun entry => ⟨1,entry⟩ := by
  cases set : present (memory table (tableIndex vaddr 12)) <;> simp [walk,set]

end Steps

end Hardware

open Hardware

theorem Paging.index_towards {path : List (Fin 512)} {index : Fin 512} {vaddr : Word}
    (towards : path ++ [index] <+: directoryPath vaddr) :
    path.length < 3 ∧ index = tableIndex vaddr (12 + 9 * (3 - path.length)) := by
  obtain ⟨rest,whole⟩ := towards
  rcases path with _ | ⟨a,_ | ⟨b,_ | ⟨c,path⟩⟩⟩
  · simp [directoryPath] at whole
    simp [whole.1]
  · simp [directoryPath] at whole
    simp [whole.2.1]
  · simp [directoryPath] at whole
    simp [whole.2.2.1]
  · have size := congrArg List.length whole
    simp [directoryPath] at size

namespace Machine

variable {machine : Machine} {state : State} {vaddr : Word}

def walk (machine : Machine) (state : State) (vaddr : Word) : Option Leaf :=
  Hardware.walk machine.memory vaddr 4 (frameNumber state.pml4)

def translate (machine : Machine) (state : State) (vaddr : Word) : Option (Nat × Word) :=
  (machine.walk state vaddr).map fun leaf => (leaf.address vaddr,leaf.flags)

def Smooth (machine : Machine) (state : State) (vaddr : Word) : Prop :=
  ∀ leaf, machine.walk state vaddr = some leaf → leaf.level = 1

def leafEntry (machine : Machine) (state : State) (vaddr : Word) : Option Word :=
  (machine.entryAt state (directoryPath vaddr) (tableIndex vaddr 12)).filter present

theorem walk_of_table {path : List (Fin 512)} {table : Nat} (here : machine.tables state path = some table)
    (towards : path <+: directoryPath vaddr) :
    machine.walk state vaddr = Hardware.walk machine.memory vaddr (4 - path.length) table := by
  induction path using List.reverseRecOn generalizing table with
  | nil =>
    cases here
    rfl
  | append_singleton path index ih =>
    obtain ⟨parent,above,down⟩ := tables_parent here
    obtain ⟨short,rfl⟩ := index_towards towards
    have level : 4 - path.length = (3 - path.length) + 1 := by omega
    have lower : 4 - (path ++ [tableIndex vaddr (12 + 9 * (3 - path.length))]).length = 3 - path.length := by simp
    rw [ih above ((List.prefix_append _ _).trans towards),lower,level]
    rw [level] at down
    exact walk_child down

/-- One step of a walk: on to the next table, or it ends without a translation
or at a huge leaf. -/
theorem walk_step {path : List (Fin 512)} {table : Nat} {index : Fin 512}
    (here : machine.tables state path = some table) (towards : path ++ [index] <+: directoryPath vaddr) :
    (machine.tables state (path ++ [index]) = some (frameOf (machine.memory table index))) ∨
    (present (machine.memory table index) = false ∧ machine.tables state (path ++ [index]) = none ∧
      machine.walk state vaddr = none) ∨
    (present (machine.memory table index) = true ∧ huge (machine.memory table index) = true ∧
      machine.walk state vaddr = some ⟨4 - path.length,machine.memory table index⟩) := by
  obtain ⟨short,rfl⟩ := index_towards towards
  have level : 4 - path.length = (3 - path.length) + 1 := by omega
  have soFar := walk_of_table here ((List.prefix_append _ _).trans towards)
  rw [tables_snoc here]
  rw [level] at soFar
  cases set : present (machine.memory table (tableIndex vaddr (12 + 9 * (3 - path.length)))) with
  | false => exact Or.inr (Or.inl ⟨rfl,child_of_absent set,soFar.trans (walk_absent set)⟩)
  | true =>
    cases down : child (4 - path.length) (machine.memory table (tableIndex vaddr (12 + 9 * (3 - path.length)))) with
    | some next => exact Or.inl (by rw [(child_some down).2.2.2])
    | none =>
      refine Or.inr (Or.inr ⟨rfl,?_,?_⟩)
      · cases flat : huge (machine.memory table (tableIndex vaddr (12 + 9 * (3 - path.length)))) with
        | true => rfl
        | false => rw [child_of_flat (by omega) set flat] at down; cases down
      · rw [level] at down ⊢
        exact soFar.trans (walk_leaf set (by omega) down)

theorem Smooth.next (smooth : machine.Smooth state vaddr) {path : List (Fin 512)} {table : Nat} {index : Fin 512}
    (here : machine.tables state path = some table) (towards : path ++ [index] <+: directoryPath vaddr)
    (set : present (machine.memory table index) = true) :
    machine.tables state (path ++ [index]) = some (frameOf (machine.memory table index)) := by
  have short := (index_towards towards).1
  rcases walk_step here towards with there | ⟨unset,_⟩ | ⟨_,_,ends⟩
  · exact there
  · rw [set] at unset
    cases unset
  · have page := smooth _ ends
    simp only at page
    omega

theorem walk_of_pageTable {table : Nat} (here : machine.tables state (directoryPath vaddr) = some table) :
    machine.walk state vaddr = (machine.leafEntry state vaddr).map fun entry => ⟨1,entry⟩ := by
  rw [walk_of_table here (List.prefix_refl _),leafEntry,entryAt_of_table here]
  exact walk_pages _ _ _

theorem leafEntry_of_absent {path : List (Fin 512)} (towards : path <+: directoryPath vaddr)
    (absent : machine.tables state path = none) : machine.leafEntry state vaddr = none := by
  cases there : machine.tables state (directoryPath vaddr) with
  | none => simp [leafEntry,entryAt,there]
  | some table =>
    have reached := TableTree.tableAt_isSome_above child towards (Option.isSome_iff_exists.mpr ⟨table,there⟩)
    change (machine.tables state path).isSome = true at reached
    simp [absent] at reached

private theorem walk_cases (flat : ∀ path table index, machine.tables state path = some table →
      path ++ [index] <+: directoryPath vaddr → present (machine.memory table index) = true →
      machine.tables state (path ++ [index]) = some (frameOf (machine.memory table index))) :
    (∃ table, machine.tables state (directoryPath vaddr) = some table) ∨
      machine.walk state vaddr = none ∧ machine.leafEntry state vaddr = none := by
  have step : ∀ {path : List (Fin 512)} {table : Nat} {index : Fin 512}, machine.tables state path = some table →
      path ++ [index] <+: directoryPath vaddr → (∃ next, machine.tables state (path ++ [index]) = some next) ∨
        machine.walk state vaddr = none ∧ machine.leafEntry state vaddr = none := by
    intro path table index here towards
    rcases walk_step here towards with there | ⟨_,absent,ends⟩ | ⟨set,_⟩
    · exact Or.inl ⟨_,there⟩
    · exact Or.inr ⟨ends,leafEntry_of_absent towards absent⟩
    · exact Or.inl ⟨_,flat path table index here towards set⟩
  rcases step (show machine.tables state [] = _ from rfl) ⟨_,rfl⟩ with ⟨pdp,here⟩ | ends
  · rcases step here ⟨_,rfl⟩ with ⟨pd,here⟩ | ends
    · rcases step here ⟨_,rfl⟩ with ⟨pt,here⟩ | ends
      · exact Or.inl ⟨pt,here⟩
      · exact Or.inr ends
    · exact Or.inr ends
  · exact Or.inr ends

theorem Smooth.walk_eq (smooth : machine.Smooth state vaddr) :
    machine.walk state vaddr = (machine.leafEntry state vaddr).map fun entry => ⟨1,entry⟩ := by
  rcases walk_cases (fun _ _ _ here towards => smooth.next here towards) with ⟨table,here⟩ | ⟨ends,absent⟩
  · exact walk_of_pageTable here
  · rw [ends,absent]
    rfl

def Flat (machine : Machine) (state : State) : Prop :=
  ∀ path index entry, path.length < 3 → machine.entryAt state path index = some entry → huge entry = false

theorem Flat.smooth (flat : machine.Flat state) (vaddr : Word) : machine.Smooth state vaddr := by
  intro leaf ends
  have next : ∀ path table index, machine.tables state path = some table →
      path ++ [index] <+: directoryPath vaddr → present (machine.memory table index) = true →
      machine.tables state (path ++ [index]) = some (frameOf (machine.memory table index)) := by
    intro path table index here towards set
    have short := (index_towards towards).1
    rw [tables_snoc here,child_of_flat (by omega) set (flat path index _ short (entryAt_of_table here index))]
  rcases walk_cases next with ⟨table,here⟩ | ⟨absent,_⟩
  · rw [walk_of_pageTable here] at ends
    obtain ⟨entry,_,rfl⟩ := Option.map_eq_some_iff.mp ends
    rfl
  · rw [absent] at ends
    cases ends

theorem walk_congr {other : Machine} (agree : ∀ path table index, machine.tables state path = some table →
      path ++ [index] <+: directoryPath vaddr ++ [tableIndex vaddr 12] →
      other.memory table index = machine.memory table index) :
    other.walk state vaddr = machine.walk state vaddr := by
  have below : ∀ level path table, path.length + level = 3 → path <+: directoryPath vaddr →
      machine.tables state path = some table → Hardware.walk other.memory vaddr (level + 1) table =
        Hardware.walk machine.memory vaddr (level + 1) table := by
    intro level
    induction level with
    | zero =>
      intro path table depth towards here
      have bottom : path = directoryPath vaddr := towards.eq_of_length depth
      rw [walk_pages,walk_pages,agree path table _ here (bottom ▸ List.prefix_refl _)]
    | succ level ih =>
      intro path table depth towards here
      obtain ⟨rest,whole⟩ := towards
      obtain ⟨index,rest,rfl⟩ : ∃ index tail, rest = index::tail := by
        cases rest with
        | nil =>
          have size := congrArg List.length whole
          simp [directoryPath] at size
          omega
        | cons index tail => exact ⟨index,tail,rfl⟩
      have next : path ++ [index] <+: directoryPath vaddr := ⟨rest,by rw [← whole]; simp⟩
      have word := agree path table index here (next.trans (List.prefix_append _ _))
      obtain ⟨short,rfl⟩ := index_towards next
      have bits : 3 - path.length = level + 1 := by omega
      rw [bits] at word next
      have depthLevel : 4 - path.length = level + 1 + 1 := by omega
      cases set : present (machine.memory table (tableIndex vaddr (12 + 9 * (level + 1)))) with
      | false => rw [walk_absent set,walk_absent (word ▸ set)]
      | true =>
        cases down : child (level + 1 + 1) (machine.memory table (tableIndex vaddr (12 + 9 * (level + 1)))) with
        | none =>
          rw [walk_leaf set (by omega) down,walk_leaf (word ▸ set) (by omega) (word ▸ down),word]
        | some reached =>
          rw [walk_child down,walk_child (word ▸ down)]
          refine ih _ reached ?_ next ?_
          · simp
            omega
          · rw [tables_snoc here,depthLevel]
            exact down
  exact below 3 [] _ rfl (List.nil_prefix) rfl

/-! The four words that the paging code reads on the way of an address. It does
not look at the HugePage bit, so past a huge leaf these are words of data. -/

def pml4Word (machine : Machine) (state : State) (vaddr : Word) : Word :=
  machine.memory (frameNumber state.pml4) (tableIndex vaddr 39)

def pdpWord (machine : Machine) (state : State) (vaddr : Word) : Word :=
  machine.memory (frameOf (machine.pml4Word state vaddr)) (tableIndex vaddr 30)

def pdWord (machine : Machine) (state : State) (vaddr : Word) : Word :=
  machine.memory (frameOf (machine.pdpWord state vaddr)) (tableIndex vaddr 21)

def ptWord (machine : Machine) (state : State) (vaddr : Word) : Word :=
  machine.memory (frameOf (machine.pdWord state vaddr)) (tableIndex vaddr 12)

/-- Where the words are present and the walk meets no huge leaf, they are entries
of the tables on the way. -/
theorem Smooth.tables_words (smooth : machine.Smooth state vaddr) (pml4 : present (machine.pml4Word state vaddr) = true)
    (pdp : present (machine.pdpWord state vaddr) = true) (pd : present (machine.pdWord state vaddr) = true) :
    machine.tables state [tableIndex vaddr 39] = some (frameOf (machine.pml4Word state vaddr)) ∧
    machine.tables state [tableIndex vaddr 39,tableIndex vaddr 30] = some (frameOf (machine.pdpWord state vaddr)) ∧
    machine.tables state (directoryPath vaddr) = some (frameOf (machine.pdWord state vaddr)) := by
  have first := smooth.next (show machine.tables state [] = _ from rfl) ⟨_,rfl⟩ pml4
  have second := smooth.next first ⟨_,rfl⟩ pdp
  exact ⟨first,second,smooth.next second ⟨_,rfl⟩ pd⟩

theorem Smooth.leafEntry_words (smooth : machine.Smooth state vaddr) :
    machine.leafEntry state vaddr ≠ none ↔
      present (machine.pml4Word state vaddr) = true ∧ present (machine.pdpWord state vaddr) = true ∧
      present (machine.pdWord state vaddr) = true ∧ present (machine.ptWord state vaddr) = true := by
  have noTable : ∀ {path : List (Fin 512)} {table : Nat} {index : Fin 512},
      machine.tables state path = some table → path ++ [index] <+: directoryPath vaddr →
      machine.leafEntry state vaddr ≠ none → present (machine.memory table index) = true := by
    intro path table index here towards mapped
    by_contra unset
    apply mapped
    apply leafEntry_of_absent towards
    rw [tables_snoc here,child_of_absent (by simpa using unset)]
  constructor
  · intro mapped
    have pml4 := noTable (show machine.tables state [] = _ from rfl) ⟨_,rfl⟩ mapped
    have first := smooth.next (show machine.tables state [] = _ from rfl) ⟨_,rfl⟩ pml4
    have pdp := noTable first ⟨_,rfl⟩ mapped
    have second := smooth.next first ⟨_,rfl⟩ pdp
    have pd := noTable second ⟨_,rfl⟩ mapped
    refine ⟨pml4,pdp,pd,?_⟩
    rw [leafEntry,entryAt_of_table (smooth.tables_words pml4 pdp pd).2.2] at mapped
    change present (machine.memory (frameOf (machine.pdWord state vaddr)) (tableIndex vaddr 12)) = true
    simpa [Option.filter] using mapped
  · rintro ⟨pml4,pdp,pd,pt⟩
    rw [leafEntry,entryAt_of_table (smooth.tables_words pml4 pdp pd).2.2]
    have set : present (machine.memory (frameOf (machine.pdWord state vaddr)) (tableIndex vaddr 12)) = true := pt
    simp [Option.filter,set]

end Machine

end BorealOS.Memory
