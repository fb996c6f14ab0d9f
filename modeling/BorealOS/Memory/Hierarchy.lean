import BorealOS.Memory.FrameAllocation
import BorealOS.Memory.PageEntry

/-! The tables of one page-table hierarchy and the three edits that `MapPage`
and `UnmapPage` are made of: link a fresh table, write a leaf, unlink an empty
table. Every table is addressed by its path from the top-level table, and each
edit has one lemma for the tables, one for their entries and one for the
well-formedness of the hierarchy. -/
namespace BorealOS.Memory

open TableTree

namespace Paging

/-- The table an entry of a table of this level leads to. Levels count as in the
source: 4 is the top-level table, 1 a table of pages. -/
def child (level : Nat) (entry : Word) : Option Nat :=
  if present entry && decide (2 ≤ level) && !(decide (level ≤ 3) && huge entry) then some (frameOf entry)
  else none

@[simp] theorem child_zero (level : Nat) : child level 0#64 = none := by
  simp [child]

theorem child_of_absent {level : Nat} {entry : Word} (absent : present entry = false) :
    child level entry = none := by
  simp [child,absent]

theorem child_of_leafLevel {level : Nat} (low : level < 2) (entry : Word) : child level entry = none := by
  have small : ¬ 2 ≤ level := by omega
  simp [child,small]

theorem child_of_flat {level : Nat} {entry : Word} (high : 2 ≤ level) (set : present entry = true)
    (flat : huge entry = false) : child level entry = some (frameOf entry) := by
  simp [child,high,set,flat]

theorem child_some {level : Nat} {entry : Word} {frame : Nat} (down : child level entry = some frame) :
    present entry = true ∧ 2 ≤ level ∧ (level ≤ 3 → huge entry = false) ∧ frame = frameOf entry := by
  simp only [child] at down
  split at down
  · rename_i leads
    simp only [Bool.and_eq_true,decide_eq_true_eq,Bool.not_eq_true',Bool.and_eq_false_iff,
      decide_eq_false_iff_not] at leads
    refine ⟨leads.1.1,leads.1.2,?_,(Option.some.inj down).symm⟩
    intro low
    rcases leads.2 with high | flat
    · exact absurd low high
    · exact flat
  · cases down

end Paging

open Paging

namespace Machine

def tables (machine : Machine) (state : State) : List (Fin 512) → Option Nat :=
  tableAt child machine.memory 4 (frameNumber state.pml4)

def entryAt (machine : Machine) (state : State) (path : List (Fin 512)) (index : Fin 512) : Option Word :=
  (machine.tables state path).map fun table => machine.memory table index

def withEntry (machine : Machine) (table : Nat) (index : Fin 512) (entry : Word) : Machine :=
  { machine with memory := write machine.memory table index entry }

def linked (machine : Machine) (table : Nat) (index : Fin 512) (fresh : Nat) (flags : Word) : Machine :=
  { machine with
    memory := write (fill machine.memory fresh 0) table index (frameAddress fresh ||| flags)
    pmm := machine.pmm.take fresh 1 }

def unlinked (machine : Machine) (table : Nat) (index : Fin 512) (address : Word) : Machine where
  memory := write machine.memory table index 0
  pmm := machine.pmm.release (frameNumber address) 1
  freed := machine.freed ++ [address]

theorem linked_memory {machine : Machine} {table fresh frame : Nat} {index i : Fin 512} {flags : Word} (old : frame ≠ fresh)
    (elsewhere : ¬ (frame = table ∧ i = index)) :
    (machine.linked table index fresh flags).memory frame i = machine.memory frame i := by
  change write (fill machine.memory fresh 0) table index _ frame i = _
  rw [write,if_neg elsewhere,fill_frame _ old]

theorem linked_memory_fresh {machine : Machine} {table fresh : Nat} {index : Fin 512} {flags : Word} (different : fresh ≠ table)
    (i : Fin 512) : (machine.linked table index fresh flags).memory fresh i = 0 := by
  change write (fill machine.memory fresh 0) table index _ fresh i = _
  rw [write_frame _ different,fill_here]

/-- A hierarchy whose tables are distinct allocated frames with entries that are
zero or present. Physical addresses have at most 52 bits. -/
structure WellFormed (machine : Machine) (state : State) : Prop where
  distinct : Distinct child machine.memory 4 (frameNumber state.pml4)
  allocated : ∀ path table, machine.tables state path = some table →
    table < machine.pmm.frameCount.toNat ∧ machine.pmm.allocated table = true
  clean : ∀ path index entry, machine.entryAt state path index = some entry →
    entry = 0 ∨ present entry = true
  bounded : machine.pmm.frameCount.toNat ≤ 2^40

section Reading
variable {machine : Machine} {state : State} {path : List (Fin 512)} {table : Nat}

theorem entryAt_of_table (here : machine.tables state path = some table) (index : Fin 512) :
    machine.entryAt state path index = some (machine.memory table index) := by
  simp [entryAt,here]

theorem tables_snoc (here : machine.tables state path = some table) (index : Fin 512) :
    machine.tables state (path ++ [index]) = child (4 - path.length) (machine.memory table index) :=
  tableAt_snoc child here index

theorem tables_parent {index : Fin 512} (here : machine.tables state (path ++ [index]) = some table) :
    ∃ parent, machine.tables state path = some parent ∧
      child (4 - path.length) (machine.memory parent index) = some table :=
  tableAt_parent child here

@[simp] theorem tables_nil : machine.tables state [] = some (frameNumber state.pml4) := rfl

theorem length_le_of_table (here : machine.tables state path = some table) : path.length ≤ 3 := by
  induction path using List.reverseRecOn with
  | nil => simp
  | append_singleton path index ih =>
    obtain ⟨parent,_,down⟩ := tables_parent here
    have high := (child_some down).2.1
    simp only [List.length_append,List.length_singleton]
    omega

theorem WellFormed.not_free (wf : machine.WellFormed state) {fresh : Nat} (free : fresh ∈ machine.pmm.freeFrames)
    (path : List (Fin 512)) : machine.tables state path ≠ some fresh := by
  intro here
  have taken := (wf.allocated path fresh here).2
  have untaken := ((machine.pmm.mem_freeFrames fresh).mp free).2.2
  simp [taken] at untaken

theorem WellFormed.fresh_small (wf : machine.WellFormed state) {fresh : Nat}
    (free : fresh ∈ machine.pmm.freeFrames) : fresh < 2^40 :=
  Nat.lt_of_lt_of_le ((machine.pmm.mem_freeFrames fresh).mp free).1 wf.bounded

theorem WellFormed.entry_clean (wf : machine.WellFormed state) (here : machine.tables state path = some table)
    (index : Fin 512) : machine.memory table index = 0 ∨ present (machine.memory table index) = true :=
  wf.clean path index _ (entryAt_of_table here index)

end Reading

section Leaf
variable {machine : Machine} {state : State} (wf : machine.WellFormed state) {path : List (Fin 512)} {table : Nat}
  (here : machine.tables state path = some table) (leaf : path.length = 3) (index : Fin 512) (entry : Word)
include wf here leaf

theorem tables_withEntry : (machine.withEntry table index entry).tables state = machine.tables state := by
  have noChild : ∀ word, child (4 - path.length) word = none := child_of_leafLevel (by omega)
  have written := tableAt_write wf.distinct here index entry
    (fun old down => by simp [noChild] at down) (fun new down => by simp [noChild] at down)
  have absent : machine.tables state (path ++ [index]) = none := by rw [tables_snoc here,noChild]
  rw [noChild] at written
  change tableAt child (write machine.memory table index entry) 4 _ = _
  rw [written,← absent]
  exact Function.update_eq_self _ _

theorem entryAt_withEntry (other : List (Fin 512)) (i : Fin 512) :
    (machine.withEntry table index entry).entryAt state other i =
      if other = path ∧ i = index then some entry else machine.entryAt state other i := by
  rw [entryAt,tables_withEntry wf here leaf]
  cases there : machine.tables state other with
  | none =>
    have different : other ≠ path := fun same => by rw [same,here] at there; cases there
    simp [entryAt,there,different]
  | some reached =>
    rw [entryAt_of_table there,Option.map_some]
    change some (write machine.memory table index entry reached i) = _
    rw [write_at wf.distinct here there]
    split <;> rfl

theorem WellFormed.withEntry (set : entry = 0 ∨ present entry = true) :
    (machine.withEntry table index entry).WellFormed state where
  distinct := wf.distinct.congr (tables_withEntry wf here leaf index entry)
  allocated := by
    intro other reached there
    rw [tables_withEntry wf here leaf] at there
    exact wf.allocated other reached there
  clean := by
    intro other i word read
    rw [entryAt_withEntry wf here leaf] at read
    split at read
    · cases read
      exact set
    · exact wf.clean other i word read
  bounded := wf.bounded

end Leaf

section Link
variable {machine : Machine} {state : State} (wf : machine.WellFormed state) {path : List (Fin 512)} {table : Nat}
  (here : machine.tables state path = some table) (short : path.length < 3) {index : Fin 512}
  (empty : machine.memory table index = 0) {fresh : Nat} (free : fresh ∈ machine.pmm.freeFrames)
  {flags : Word} (apart : flags &&& pointerMask = 0) (set : present flags = true) (flat : huge flags = false)
include wf here short empty free apart set flat

theorem tables_linked : (machine.linked table index fresh flags).tables state =
    Function.update (machine.tables state) (path ++ [index]) (some fresh) := by
  have unused := wf.not_free free
  have different : fresh ≠ table := fun same => unused path (same ▸ here)
  obtain ⟨linkSet,linkFlat,_,linkFrame⟩ := tableEntry_spec (wf.fresh_small free) apart set
  have filled : tableAt child (fill machine.memory fresh 0) 4 (frameNumber state.pml4) = machine.tables state :=
    funext (tableAt_fill unused 0)
  have hereFilled : tableAt child (fill machine.memory fresh 0) 4 (frameNumber state.pml4) path = some table := by
    rw [filled]
    exact here
  have down : child (4 - path.length) (frameAddress fresh ||| flags) = some fresh := by
    rw [child_of_flat (by omega) linkSet (linkFlat.trans flat),linkFrame]
  have written := tableAt_write (wf.distinct.congr filled) hereFilled index
    (frameAddress fresh ||| flags) ?_ ?_
  · rw [filled,down] at written
    exact written
  · intro old leads
    rw [fill_frame _ different.symm,empty] at leads
    simp at leads
  · intro new leads i
    rw [down] at leads
    cases leads
    rw [write_frame _ different,fill_here]
    simp

theorem entryAt_linked (other : List (Fin 512)) (i : Fin 512) :
    (machine.linked table index fresh flags).entryAt state other i =
      if other = path ∧ i = index then some (frameAddress fresh ||| flags)
      else if other = path ++ [index] then some 0
      else machine.entryAt state other i := by
  have unused := wf.not_free free
  have different : fresh ≠ table := fun same => unused path (same ▸ here)
  rw [entryAt,tables_linked wf here short empty free apart set flat,Function.update_apply]
  by_cases new : other = path ++ [index]
  · have longer : ¬ (other = path ∧ i = index) := by rintro ⟨same,_⟩; simp [new] at same
    rw [if_pos new,if_neg longer,if_pos new,Option.map_some]
    rw [linked_memory_fresh different]
  · rw [if_neg new,if_neg new]
    cases there : machine.tables state other with
    | none =>
      have elsewhere : other ≠ path := fun same => by rw [same,here] at there; cases there
      simp [entryAt,there,elsewhere]
    | some reached =>
      have old : reached ≠ fresh := fun same => unused other (same ▸ there)
      rw [entryAt_of_table there,Option.map_some]
      have place : reached = table ↔ other = path := by
        constructor
        · exact fun equal => wf.distinct other path _ there (equal ▸ here)
        · intro same
          exact Option.some.inj (there.symm.trans (same ▸ here))
      by_cases written : other = path ∧ i = index
      · rw [if_pos written,place.mpr written.1,written.2]
        exact congrArg some (write_here _ _ _ _)
      · rw [if_neg written,linked_memory old (by rwa [place])]

theorem WellFormed.linked : (machine.linked table index fresh flags).WellFormed state where
  distinct := wf.distinct.link (wf.not_free free) (tables_linked wf here short empty free apart set flat)
  allocated := by
    intro other reached there
    rw [tables_linked wf here short empty free apart set flat,Function.update_apply] at there
    split at there
    · cases there
      refine ⟨((machine.pmm.mem_freeFrames fresh).mp free).1,?_⟩
      simp [Machine.linked]
    · obtain ⟨inside,taken⟩ := wf.allocated other reached there
      refine ⟨inside,?_⟩
      simp [Machine.linked,taken]
  clean := by
    intro other i word read
    rw [entryAt_linked wf here short empty free apart set flat] at read
    split at read
    · cases read
      exact Or.inr (tableEntry_spec (wf.fresh_small free) apart set).1
    · split at read
      · cases read
        exact Or.inl rfl
      · exact wf.clean other i word read
  bounded := wf.bounded

end Link

section Unlink
variable {machine : Machine} {state : State} (wf : machine.WellFormed state) {path : List (Fin 512)}
  {table : Nat} (here : machine.tables state path = some table) {index : Fin 512} {address : Word}
  (below : machine.tables state (path ++ [index]) = some (frameNumber address))
  (empty : ∀ i, present (machine.memory (frameNumber address) i) = false)
include wf here below empty

theorem tables_unlinked : (machine.unlinked table index address).tables state =
    Function.update (machine.tables state) (path ++ [index]) none := by
  have written := tableAt_write wf.distinct here index 0
    (fun old down i => by
      rw [← tables_snoc here,below] at down
      cases down
      exact child_of_absent (empty i))
    (fun new down => by simp at down)
  exact written.trans (congrArg _ (child_zero _))

theorem entryAt_unlinked (other : List (Fin 512)) (i : Fin 512) :
    (machine.unlinked table index address).entryAt state other i =
      if other = path ∧ i = index then some 0
      else if other = path ++ [index] then none
      else machine.entryAt state other i := by
  rw [entryAt,tables_unlinked wf here below empty,Function.update_apply]
  by_cases old : other = path ++ [index]
  · have longer : ¬ (other = path ∧ i = index) := by rintro ⟨same,_⟩; simp [old] at same
    rw [if_pos old,if_neg longer,if_pos old]
    rfl
  · rw [if_neg old,if_neg old]
    cases there : machine.tables state other with
    | none =>
      have elsewhere : other ≠ path := fun same => by rw [same,here] at there; cases there
      simp [entryAt,there,elsewhere]
    | some reached =>
      rw [entryAt_of_table there,Option.map_some]
      change some (write machine.memory table index 0 reached i) = _
      rw [write_at wf.distinct here there]
      split <;> rfl

theorem WellFormed.unlinked : (machine.unlinked table index address).WellFormed state where
  distinct := wf.distinct.unlink (tables_unlinked wf here below empty)
  allocated := by
    intro other reached there
    rw [tables_unlinked wf here below empty,Function.update_apply] at there
    split at there
    · cases there
    · rename_i elsewhere
      obtain ⟨inside,taken⟩ := wf.allocated other reached there
      have different : reached ≠ frameNumber address := fun same =>
        elsewhere (wf.distinct other _ _ there (same ▸ below))
      refine ⟨inside,?_⟩
      simp [Machine.unlinked,taken,different]
  clean := by
    intro other i word read
    rw [entryAt_unlinked wf here below empty] at read
    split at read
    · cases read
      exact Or.inl rfl
    · split at read
      · cases read
      · exact wf.clean other i word read
  bounded := wf.bounded

end Unlink

end Machine

end BorealOS.Memory
