import BorealOS.Memory.HardwareWalk

/-! The edits that `MapPage` and `UnmapPage` make to a hierarchy. Both calls are
sequences of them, so an invariant of a run of calls is one case for each edit. -/
namespace BorealOS.Memory

open Paging

namespace Machine

/-- One edit of a hierarchy: a fresh table is linked at an empty entry, an entry
of a table of pages is written, or an empty table is freed. -/
inductive Edit (state : State) (machine : Machine) : Machine → Prop
  | link {path : List (Fin 512)} {index : Fin 512} {table fresh : Nat} : machine.tables state path = some table →
    path.length < 3 → machine.memory table index = 0 → fresh ∈ machine.pmm.freeFrames →
    Edit state machine (machine.linked table index fresh directoryFlags)
  | leaf {path : List (Fin 512)} {index : Fin 512} {table : Nat} {entry : Word} :
    machine.tables state path = some table → path.length = 3 → (entry = 0 ∨ present entry = true) →
    Edit state machine (machine.withEntry table index entry)
  | unlink {path : List (Fin 512)} {index : Fin 512} {table : Nat} {address : Word} :
    machine.tables state path = some table → machine.tables state (path ++ [index]) = some (frameNumber address) →
    (∀ i, present (machine.memory (frameNumber address) i) = false) → machine.pmm.Held (frameNumber address) →
    (path = [] → index.val < 256) → Edit state machine (machine.unlinked table index address)

abbrev Edited (state : State) : Machine → Machine → Prop := Relation.ReflTransGen (Edit state)

def Owned (machine : Machine) (state : State) : Prop :=
  ∀ path table, machine.tables state path = some table → machine.pmm.Held table

section Linking
variable {machine : Machine} {state : State} (wf : machine.WellFormed state) {path : List (Fin 512)} {table : Nat}
  (here : machine.tables state path = some table) (short : path.length < 3) {index : Fin 512}
  (empty : machine.memory table index = 0) {fresh : Nat} (free : fresh ∈ machine.pmm.freeFrames)
include wf here short empty free

section Flags
variable {flags : Word} (apart : flags &&& pointerMask = 0) (set : present flags = true) (low : huge flags = false)
include apart set low

theorem Owned.linked (owned : machine.Owned state) : (machine.linked table index fresh flags).Owned state := by
  intro other kept there
  rw [tables_linked wf here short empty free apart set low,Function.update_apply] at there
  split at there
  · cases there
    obtain ⟨inside,unreserved,_⟩ := (machine.pmm.mem_freeFrames fresh).mp free
    exact ⟨inside,unreserved,by simp [Machine.linked]⟩
  · obtain ⟨inside,unreserved,taken⟩ := owned other kept there
    exact ⟨inside,unreserved,by simp [Machine.linked,taken]⟩

theorem Flat.linked (flat : machine.Flat state) : (machine.linked table index fresh flags).Flat state := by
  intro other i word shallow read
  rw [entryAt_linked wf here short empty free apart set low] at read
  split at read
  · cases read
    exact (tableEntry_spec (wf.fresh_small free) apart set).2.1.trans low
  · split at read
    · cases read
      decide
    · exact flat other i word shallow read

end Flags

theorem tables_directory : (machine.linked table index fresh directoryFlags).tables state =
    Function.update (machine.tables state) (path ++ [index]) (some fresh) :=
  tables_linked wf here short empty free directoryFlags_apart (by decide) (by decide)

theorem entryAt_directory (other : List (Fin 512)) (i : Fin 512) :
    (machine.linked table index fresh directoryFlags).entryAt state other i =
      if other = path ∧ i = index then some (frameAddress fresh ||| directoryFlags)
      else if other = path ++ [index] then some 0
      else machine.entryAt state other i :=
  entryAt_linked wf here short empty free directoryFlags_apart (by decide) (by decide) other i

end Linking

section Step
variable {machine next : Machine} {state : State}

theorem Edit.wellFormed (wf : machine.WellFormed state) (edit : Edit state machine next) : next.WellFormed state := by
  cases edit with
  | link here short empty free =>
    exact wf.linked here short empty free directoryFlags_apart (by decide) (by decide)
  | leaf here bottom set => exact wf.withEntry here bottom _ _ set
  | unlink here below empty _ _ => exact wf.unlinked here below empty

theorem Edited.wellFormed (wf : machine.WellFormed state) (edited : Edited state machine next) :
    next.WellFormed state := by
  induction edited with
  | refl => exact wf
  | tail _ edit ih => exact edit.wellFormed ih

theorem Edited.preserves {invariant : Machine → Prop} (wf : machine.WellFormed state)
    (step : ∀ before after, before.WellFormed state → Edit state before after → invariant before → invariant after)
    (edited : Edited state machine next) (start : invariant machine) : invariant next := by
  induction edited with
  | refl => exact start
  | tail before edit ih => exact step _ _ (Edited.wellFormed wf before) edit ih

theorem Edit.owned (wf : machine.WellFormed state) (edit : Edit state machine next) (owned : machine.Owned state) :
    next.Owned state := by
  cases edit with
  | link here short empty free => exact owned.linked wf here short empty free directoryFlags_apart (by decide) (by decide)
  | leaf here bottom set =>
    intro other kept there
    rw [tables_withEntry wf here bottom] at there
    exact owned other kept there
  | @unlink path index table address here below empty held lower =>
    intro other kept there
    rw [tables_unlinked wf here below empty,Function.update_apply] at there
    split at there
    · cases there
    · rename_i elsewhere
      have different : kept ≠ frameNumber address := fun same =>
        elsewhere (wf.distinct other _ _ there (same ▸ below))
      obtain ⟨inside,unreserved,taken⟩ := owned other kept there
      exact ⟨inside,unreserved,by simp [Machine.unlinked,taken,different]⟩

theorem Edit.flat (wf : machine.WellFormed state) (edit : Edit state machine next) (flat : machine.Flat state) :
    next.Flat state := by
  cases edit with
  | link here short empty free => exact flat.linked wf here short empty free directoryFlags_apart (by decide) (by decide)
  | leaf here bottom set =>
    intro other i word low read
    rw [entryAt_withEntry wf here bottom,if_neg] at read
    · exact flat other i word low read
    · rintro ⟨rfl,_⟩
      omega
  | unlink here below empty _ _ =>
    intro other i word low read
    rw [entryAt_unlinked wf here below empty] at read
    split at read
    · cases read
      decide
    · split at read
      · cases read
      · exact flat other i word low read

theorem Edited.reservedBitmap (edited : Edited state machine next) :
    next.pmm.reservedBitmap = machine.pmm.reservedBitmap := by
  induction edited with
  | refl => rfl
  | tail _ edit ih => cases edit <;> exact ih

end Step

end Machine

end BorealOS.Memory
