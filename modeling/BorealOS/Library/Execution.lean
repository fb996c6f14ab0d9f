import Mathlib

/-! Stateful computations that may stop early. A computation takes a state to a
value and a state, or to an error and the state in which it stopped. The rules
below take a successful or failed sequence apart without unfolding it, and lift
what one step preserves to whole runs. -/
namespace Execution

variable {ε σ α β : Type}

theorem bind_ok (first : EStateM ε σ α) (next : α → EStateM ε σ β) (s final : σ) (result : β) :
    (first >>= next) s = .ok result final ↔
      ∃ value middle, first s = .ok value middle ∧ next value middle = .ok result final := by
  constructor
  · intro ok
    cases step : first s with
    | ok value middle => exact ⟨value,middle,rfl,by simpa [bind,EStateM.bind,step] using ok⟩
    | error error middle => simp [bind,EStateM.bind,step] at ok
  · rintro ⟨value,middle,step,rest⟩
    simpa [bind,EStateM.bind,step] using rest

theorem bind_of_ok {first : EStateM ε σ α} {next : α → EStateM ε σ β} {s middle : σ} {value : α}
    (step : first s = .ok value middle) : (first >>= next) s = next value middle := by
  simp [bind,EStateM.bind,step]

theorem bind_of_error {first : EStateM ε σ α} {next : α → EStateM ε σ β} {s middle : σ} {error : ε}
    (step : first s = .error error middle) : (first >>= next) s = .error error middle := by
  simp [bind,EStateM.bind,step]

@[simp] theorem pure_apply (value : α) (s : σ) : (pure value : EStateM ε σ α) s = .ok value s := rfl

@[simp] theorem throw_apply (error : ε) (s : σ) : (throw error : EStateM ε σ α) s = .error error s := rfl

def finalState : EStateM.Result ε σ α → σ
  | .ok _ s => s
  | .error _ s => s

inductive Stops : EStateM.Result ε σ α → Prop
  | error (error : ε) (s : σ) : Stops (.error error s)

@[simp] theorem finalState_ok (value : α) (s : σ) :
    finalState (.ok value s : EStateM.Result ε σ α) = s := rfl

@[simp] theorem finalState_error (error : ε) (s : σ) :
    finalState (.error error s : EStateM.Result ε σ α) = s := rfl

@[simp] theorem not_stops_ok (value : α) (s : σ) : ¬ Stops (.ok value s : EStateM.Result ε σ α) :=
  nofun

@[simp] theorem stops_error (error : ε) (s : σ) : Stops (.error error s : EStateM.Result ε σ α) :=
  .error error s

theorem stops_bind {first : EStateM ε σ α} {next : α → EStateM ε σ β} {s : σ} (stopped : Stops (first s)) :
    Stops ((first >>= next) s) := by
  cases ended : first s with
  | ok value middle => simp [ended] at stopped
  | error error middle => rw [bind_of_error ended]; exact .error error middle

theorem not_stops_iff (outcome : EStateM.Result ε σ α) :
    ¬ Stops outcome ↔ ∃ value s, outcome = .ok value s := by
  cases outcome <;> simp

/-- Whatever a computation does, and however it ends, a property of the state stays. -/
def Maintains (property : σ → Prop) (computation : EStateM ε σ α) : Prop :=
  ∀ s, property s → property (finalState (computation s))

section Maintaining
variable {property : σ → Prop}

theorem maintains_pure (value : α) : Maintains property (pure value : EStateM ε σ α) := fun _ holds => holds

theorem Maintains.bind {first : EStateM ε σ α} {next : α → EStateM ε σ β} (left : Maintains property first)
    (right : ∀ value, Maintains property (next value)) : Maintains property (first >>= next) := by
  intro s holds
  have middle := left s holds
  cases ended : first s with
  | ok value state =>
    rw [ended] at middle
    rw [bind_of_ok ended]
    exact right value state middle
  | error error state =>
    rw [ended] at middle
    rw [bind_of_error ended]
    exact middle

theorem Maintains.ite {condition : Prop} [Decidable condition] {first second : EStateM ε σ α}
    (left : Maintains property first) (right : Maintains property second) :
    Maintains property (if condition then first else second) := by
  split
  · exact left
  · exact right

end Maintaining

section Runs
variable {Op : Type} (perform : Op → EStateM ε σ Unit)

def runAll : List Op → EStateM ε σ Unit
  | [] => pure ()
  | op :: ops => do perform op; runAll ops

theorem runAll_cons_ok (op : Op) (ops : List Op) (s final : σ) :
    runAll perform (op::ops) s = .ok () final ↔
      ∃ middle, perform op s = .ok () middle ∧ runAll perform ops middle = .ok () final := by
  rw [runAll,bind_ok]
  constructor
  · rintro ⟨_,middle,step,rest⟩
    exact ⟨middle,step,rest⟩
  · rintro ⟨middle,step,rest⟩
    exact ⟨(),middle,step,rest⟩

/-- Every call of the list is allowed in the state in which the run reaches it. -/
def Permitted (allowed : Op → σ → Prop) : List Op → σ → Prop
  | [], _ => True
  | op :: ops, s => allowed op s ∧ ∀ next, perform op s = .ok () next → Permitted allowed ops next

theorem runAll_preserves (invariant : σ → Prop) (allowed : Op → σ → Prop)
    (step : ∀ op s next, allowed op s → invariant s → perform op s = .ok () next → invariant next)
    (ops : List Op) (s final : σ) (permitted : Permitted perform allowed ops s)
    (start : invariant s) (run : runAll perform ops s = .ok () final) : invariant final := by
  induction ops generalizing s with
  | nil =>
    simp only [runAll,pure_apply,EStateM.Result.ok.injEq,true_and] at run
    exact run ▸ start
  | cons op ops ih =>
    obtain ⟨middle,first,rest⟩ := (runAll_cons_ok perform op ops s final).mp run
    exact ih middle (permitted.2 middle first) (step op s middle permitted.1 start first) rest

theorem permitted_of_forall {allowed : Op → σ → Prop} (ops : List Op) (every : ∀ op ∈ ops, ∀ s, allowed op s) (s : σ) :
    Permitted perform allowed ops s := by
  induction ops generalizing s with
  | nil => trivial
  | cons op ops ih =>
    exact ⟨every op List.mem_cons_self s,fun next _ => ih (fun other member => every other (List.mem_cons_of_mem op member)) next⟩

theorem runAll_invariant (invariant : σ → Prop)
    (step : ∀ op s next, invariant s → perform op s = .ok () next → invariant next)
    (ops : List Op) (s final : σ) (start : invariant s) (run : runAll perform ops s = .ok () final) :
    invariant final :=
  runAll_preserves perform invariant (fun _ _ => True) (fun op s next _ => step op s next) ops s final
    (permitted_of_forall perform ops (fun _ _ _ => trivial) s) start run

theorem maintains_runAll {property : σ → Prop} (ops : List Op) (step : ∀ op, Maintains property (perform op)) :
    Maintains property (runAll perform ops) := by
  induction ops with
  | nil => exact maintains_pure ()
  | cons op ops ih => exact (step op).bind fun _ => ih

theorem forM_eq_runAll (ops : List Op) : ops.forM perform = runAll perform ops := by
  induction ops with
  | nil => rfl
  | cons op ops ih =>
    rw [runAll,← ih]
    rfl

/-- A loop over different values whose invariant speaks of the values done. -/
theorem runAll_loop (invariant : List Op → σ → Prop)
    (step : ∀ done op s next, op ∉ done → invariant done s → perform op s = .ok () next → invariant (done ++ [op]) next)
    (done ops : List Op) (s final : σ) (different : (done ++ ops).Nodup) (start : invariant done s)
    (run : runAll perform ops s = .ok () final) : invariant (done ++ ops) final := by
  induction ops generalizing done s with
  | nil =>
    simp only [runAll,pure_apply,EStateM.Result.ok.injEq,true_and] at run
    simpa [← run] using start
  | cons op ops ih =>
    obtain ⟨middle,first,rest⟩ := (runAll_cons_ok perform op ops s final).mp run
    have regroup : done ++ op :: ops = done ++ [op] ++ ops := by simp
    have new : op ∉ done := by
      intro member
      exact (List.nodup_append.mp different).2.2 op member op List.mem_cons_self rfl
    rw [regroup] at different ⊢
    exact ih (done ++ [op]) middle different (step done op s middle new start first) rest

/-- A loop whose every round returns, with an invariant of the values done and the
values to come. -/
theorem runAll_returns (invariant : List Op → List Op → σ → Prop)
    (step : ∀ done op rest s, op ∉ done → invariant done (op::rest) s →
      ∃ next, perform op s = .ok () next ∧ invariant (done ++ [op]) rest next)
    (done ops : List Op) (s : σ) (different : (done ++ ops).Nodup) (start : invariant done ops s) :
    ∃ final, runAll perform ops s = .ok () final ∧ invariant (done ++ ops) [] final := by
  induction ops generalizing done s with
  | nil => exact ⟨s,rfl,by simpa using start⟩
  | cons op ops ih =>
    have regroup : done ++ op :: ops = done ++ [op] ++ ops := by simp
    have new : op ∉ done := by
      intro member
      exact (List.nodup_append.mp different).2.2 op member op List.mem_cons_self rfl
    rw [regroup] at different ⊢
    obtain ⟨middle,first,holds⟩ := step done op ops s new start
    obtain ⟨final,rest,ends⟩ := ih (done ++ [op]) middle different holds
    exact ⟨final,(runAll_cons_ok perform op ops s final).mpr ⟨middle,first,rest⟩,ends⟩

theorem runAll_cons_of_ok {op : Op} {s middle : σ} (step : perform op s = .ok () middle) (ops : List Op) :
    runAll perform (op::ops) s = runAll perform ops middle := by
  rw [runAll,bind_of_ok step]

theorem runAll_append_of_ok {first : List Op} {s middle : σ} (head : runAll perform first s = .ok () middle)
    (second : List Op) : runAll perform (first ++ second) s = runAll perform second middle := by
  induction first generalizing s with
  | nil =>
    cases head
    rfl
  | cons op first ih =>
    obtain ⟨next,step,rest⟩ := (runAll_cons_ok perform op first s middle).mp head
    rw [List.cons_append,runAll_cons_of_ok perform step]
    exact ih rest

theorem runAll_append_ok (first second : List Op) (s final : σ) :
    runAll perform (first ++ second) s = .ok () final ↔
      ∃ middle, runAll perform first s = .ok () middle ∧ runAll perform second middle = .ok () final := by
  induction first generalizing s with
  | nil => simp [runAll]
  | cons op first ih =>
    simp only [List.cons_append,runAll_cons_ok,ih]
    constructor
    · rintro ⟨next,step,middle,head,tail⟩
      exact ⟨middle,⟨next,step,head⟩,tail⟩
    · rintro ⟨middle,⟨next,step,head⟩,tail⟩
      exact ⟨next,step,middle,head,tail⟩

end Runs

end Execution
