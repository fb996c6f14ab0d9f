import BorealOS.Library.Execution

/-! A computation with a record of its moments beside it. Without the record it is the
plain computation. -/
namespace Execution

variable {m : Type → Type} [Monad m] {σ α β : Type}

/-- The first computation is the second one, which keeps a record besides. -/
def Erases (recorded : StateT σ m α) (plain : m α) : Prop :=
  ∀ moments, Prod.fst <$> recorded.run moments = plain

theorem Erases.ite {condition : Prop} [Decidable condition] {recorded recorded' : StateT σ m α} {plain plain' : m α}
    (first : Erases recorded plain) (second : Erases recorded' plain') :
    Erases (if condition then recorded else recorded') (if condition then plain else plain') := by
  split
  · exact first
  · exact second

variable [LawfulMonad m]

theorem erases_pure (value : α) : Erases (pure value : StateT σ m α) (pure value) := by
  intro moments
  rw [StateT.run_pure,map_pure]

theorem erases_lift (plain : m α) : Erases (liftM plain : StateT σ m α) plain := by
  intro moments
  change Prod.fst <$> (do let value ← plain; pure (value,moments)) = plain
  simp

theorem Erases.bind {recorded : StateT σ m α} {plain : m α} {next : α → StateT σ m β} {rest : α → m β}
    (first : Erases recorded plain) (second : ∀ value, Erases (next value) (rest value)) :
    Erases (recorded >>= next) (plain >>= rest) := by
  intro moments
  rw [StateT.run_bind,map_bind,← first moments,bind_map_left]
  apply bind_congr
  intro reached
  exact second reached.1 reached.2

theorem Erases.guard {condition : Prop} [Decidable condition] {recorded : StateT σ m α} {plain : m α} {next : StateT σ m β}
    {rest : m β} (first : Erases recorded plain) (second : Erases next rest) :
    Erases (if condition then recorded >>= fun _ => next else next) (if condition then plain >>= fun _ => rest else rest) :=
  .ite (first.bind fun _ => second) second

theorem Erases.silent {recorded : StateT σ m α} {plain : m α} {after : α → StateT σ m α} (first : Erases recorded plain)
    (second : ∀ value, Erases (after value) (pure value)) : Erases (recorded >>= after) plain := by
  have both := first.bind second
  rwa [bind_pure] at both

theorem Erases.of_silent {recorded : StateT σ m α} {value : α} {next : α → StateT σ m β} {rest : m β}
    (first : Erases recorded (pure value)) (second : ∀ value, Erases (next value) rest) : Erases (recorded >>= next) rest := by
  have both := first.bind second
  rwa [pure_bind] at both

/-! The record of a computation that may stop early. -/

variable {τ ε : Type} {moments after : List τ} {s final : σ}

theorem recorded_bind_ok {first : StateT (List τ) (EStateM ε σ) α} {next : α → StateT (List τ) (EStateM ε σ) β} {result : β} :
    (first >>= next) moments s = .ok (result,after) final ↔ ∃ value between middle,
      first moments s = .ok (value,between) middle ∧ next value between middle = .ok (result,after) final := by
  change (first moments >>= fun reached => next reached.1 reached.2) s = _ ↔ _
  rw [bind_ok]
  constructor
  · rintro ⟨⟨value,between⟩,middle,step,rest⟩
    exact ⟨value,between,middle,step,rest⟩
  · rintro ⟨value,between,middle,step,rest⟩
    exact ⟨(value,between),middle,step,rest⟩

theorem recorded_lift_ok {plain : EStateM ε σ α} {result : α} :
    (liftM plain : StateT (List τ) (EStateM ε σ) α) moments s = .ok (result,after) final ↔
      plain s = .ok result final ∧ after = moments := by
  change (plain >>= fun value => pure (value,moments)) s = _ ↔ _
  rw [bind_ok]
  constructor
  · rintro ⟨value,middle,step,same⟩
    cases same
    exact ⟨step,rfl⟩
  · rintro ⟨step,rfl⟩
    exact ⟨result,final,step,rfl⟩

/-- A step that records nothing. -/
theorem recorded_silent_ok {plain : EStateM ε σ α} {next : α → StateT (List τ) (EStateM ε σ) β} {result : β} :
    ((liftM plain : StateT (List τ) (EStateM ε σ) α) >>= next) moments s = .ok (result,after) final ↔ ∃ value middle,
      plain s = .ok value middle ∧ next value moments middle = .ok (result,after) final := by
  rw [recorded_bind_ok]
  constructor
  · rintro ⟨value,_,middle,step,rest⟩
    obtain ⟨done,rfl⟩ := recorded_lift_ok.mp step
    exact ⟨value,middle,done,rest⟩
  · rintro ⟨value,middle,done,rest⟩
    exact ⟨value,moments,middle,recorded_lift_ok.mpr ⟨done,rfl⟩,rest⟩

theorem recorded_guard_ok {condition : Prop} [Decidable condition] {error : ε}
    {next : StateT (List τ) (EStateM ε σ) β} {result : β} :
    (if condition then (throw error : StateT (List τ) (EStateM ε σ) α) >>= fun _ => next else next) moments s =
      .ok (result,after) final ↔ ¬ condition ∧ next moments s = .ok (result,after) final := by
  split
  · rename_i failed
    refine iff_of_false ?_ fun passed => passed.1 failed
    nofun
  · rename_i passed
    exact (and_iff_right passed).symm

end Execution
