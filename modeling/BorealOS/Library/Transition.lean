import Mathlib

/-! Systems that move by labelled steps. A step may be disabled in a state; a run
takes the labels of a list one after the other and exists when no step of it is
disabled. -/
namespace Transition

variable {σ ℓ : Type} (step : σ → ℓ → Option σ)

def run : σ → List ℓ → Option σ
  | s, [] => some s
  | s, label :: labels => (step s label).bind (run · labels)

theorem run_cons_some (s final : σ) (label : ℓ) (labels : List ℓ) :
    run step s (label::labels) = some final ↔ ∃ middle, step s label = some middle ∧ run step middle labels = some final := by
  rw [run,Option.bind_eq_some_iff]

theorem run_append (s : σ) (labels more : List ℓ) : run step s (labels ++ more) = (run step s labels).bind (run step · more) := by
  induction labels generalizing s with
  | nil => rfl
  | cons label labels ih =>
    rw [List.cons_append,run,run]
    cases step s label with
    | none => rfl
    | some next => exact ih next

/-- Every step of the list is allowed in the state in which the run reaches it. -/
def Along (allowed : σ → ℓ → Prop) : σ → List ℓ → Prop
  | _, [] => True
  | s, label :: labels => allowed s label ∧ ∀ next, step s label = some next → Along allowed next labels

instance decidableAlong (allowed : σ → ℓ → Prop) [∀ s label, Decidable (allowed s label)] :
    ∀ s labels, Decidable (Along step allowed s labels)
  | _, [] => isTrue trivial
  | s, label :: labels =>
    match taken : step s label with
    | none => decidable_of_iff (allowed s label) ⟨fun ok => ⟨ok,fun next moved => by simp [taken] at moved⟩,And.left⟩
    | some next =>
      have := decidableAlong allowed next labels
      decidable_of_iff (allowed s label ∧ Along step allowed next labels)
        ⟨fun ok => ⟨ok.1,fun other moved => Option.some.inj (taken.symm.trans moved) ▸ ok.2⟩,fun ok => ⟨ok.1,ok.2 next taken⟩⟩

theorem run_preserves (invariant : σ → Prop) (allowed : σ → ℓ → Prop)
    (preserved : ∀ s label next, allowed s label → invariant s → step s label = some next → invariant next)
    {s final : σ} {labels : List ℓ} (along : Along step allowed s labels) (start : invariant s)
    (ran : run step s labels = some final) : invariant final := by
  induction labels generalizing s with
  | nil => exact Option.some.inj ran ▸ start
  | cons label labels ih =>
    obtain ⟨middle,first,rest⟩ := (run_cons_some step s final label labels).mp ran
    exact ih (along.2 middle first) (preserved s label middle along.1 start first) rest

theorem Along.of_invariant {allowed property : σ → ℓ → Prop} (invariant : σ → Prop)
    (preserved : ∀ s label next, allowed s label → invariant s → step s label = some next → invariant next)
    (gives : ∀ s label, allowed s label → invariant s → property s label) {s : σ} {labels : List ℓ}
    (along : Along step allowed s labels) (start : invariant s) : Along step property s labels := by
  induction labels generalizing s with
  | nil => trivial
  | cons label labels ih =>
    refine ⟨gives s label along.1 start,?_⟩
    intro next moved
    exact ih (along.2 next moved) (preserved s label next along.1 start moved)

private theorem along_always (s : σ) (labels : List ℓ) : Along step (fun _ _ => True) s labels := by
  induction labels generalizing s with
  | nil => trivial
  | cons label labels ih => exact ⟨trivial,fun next _ => ih next⟩

theorem run_invariant (invariant : σ → Prop)
    (preserved : ∀ s label next, invariant s → step s label = some next → invariant next)
    {s final : σ} {labels : List ℓ} (start : invariant s) (ran : run step s labels = some final) : invariant final :=
  run_preserves step invariant (fun _ _ => True) (fun s label next _ => preserved s label next) (along_always step s labels)
    start ran

end Transition
