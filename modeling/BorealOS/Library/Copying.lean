import Mathlib

/-! Cells that are copied one after the other. Where no cell is overwritten before it is
read, the order does not show: all cells are copied at once. -/
namespace Copying

variable {Cell Value Index : Type} [DecidableEq Cell] (dest src : Index → Cell)

def copyAll (order : List Index) (memory : Cell → Value) : Cell → Value :=
  order.foldl (fun memory i => Function.update memory (dest i) (memory (src i))) memory

/-- The cells are different, and none is overwritten before its turn to be read. -/
def Orderly (order : List Index) : Prop :=
  order.Pairwise fun earlier later => dest earlier ≠ dest later ∧ dest earlier ≠ src later

variable {dest src} {order : List Index}

theorem copyAll_frame {cell : Cell} (apart : ∀ i ∈ order, cell ≠ dest i) (memory : Cell → Value) :
    copyAll dest src order memory cell = memory cell := by
  induction order generalizing memory with
  | nil => rfl
  | cons first order ih =>
    obtain ⟨other,apart⟩ := List.forall_mem_cons.mp apart
    exact (ih apart _).trans (Function.update_of_ne other _ _)

theorem copyAll_dest (orderly : Orderly dest src order) {i : Index} (member : i ∈ order) (memory : Cell → Value) :
    copyAll dest src order memory (dest i) = memory (src i) := by
  induction order generalizing memory with
  | nil => cases member
  | cons first order ih =>
    obtain ⟨later,orderly⟩ := List.pairwise_cons.mp orderly
    rcases List.mem_cons.mp member with rfl | member
    · exact (copyAll_frame (fun j listed => (later j listed).1) _).trans (Function.update_self _ _ _)
    · exact (ih orderly member _).trans (Function.update_of_ne (later i member).2.symm _ _)

theorem copyAll_self (order : List Index) (memory : Cell → Value) : copyAll dest dest order memory = memory := by
  induction order with
  | nil => rfl
  | cons first order ih =>
    rw [copyAll,List.foldl_cons,Function.update_eq_self]
    exact ih

/-- Two orderly copies of the same cells have the same result. -/
theorem copyAll_congr {other : List Index} (orderly : Orderly dest src order) (also : Orderly dest src other)
    (same : ∀ i, i ∈ order ↔ i ∈ other) (memory : Cell → Value) :
    copyAll dest src order memory = copyAll dest src other memory := by
  funext cell
  by_cases copied : ∃ i ∈ order, cell = dest i
  · obtain ⟨i,member,rfl⟩ := copied
    rw [copyAll_dest orderly member,copyAll_dest also ((same i).mp member)]
  · rw [copyAll_frame fun i member equal => copied ⟨i,member,equal⟩,
      copyAll_frame fun i member equal => copied ⟨i,(same i).mpr member,equal⟩]

end Copying
