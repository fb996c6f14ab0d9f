import Mathlib

/-! Calls on a shared state whose bodies run in small steps, one body at a time. The
environment may change the shared state between any two steps. When each body agrees
with a sequential meaning of its call, the shared state is always what the finished
calls leave when they are made one after the other, up to the one body that runs. -/
namespace Exclusive

variable {Caller Call Place Shared Answer Outcome : Type}

/-- A body in small steps: where a call starts, the next step from a place, and the
answer at a place where the body is done. A place with neither is a place it never
leaves. -/
structure Body (Call Place Shared Answer : Type) where
  start : Call → Place
  advance : Place → Shared → Option (Place × Shared)
  answer : Place → Option Answer

/-- The call whose body runs, the shared state, and the finished calls with their
answers. -/
structure State (Caller Call Place Shared Answer : Type) where
  current : Option (Caller × Call × Place)
  shared : Shared
  history : List (Caller × Call × Answer)

inductive Step (body : Body Call Place Shared Answer) (environment : Shared → Shared → Prop)
    (state next : State Caller Call Place Shared Answer) : Prop
  | keep (same : next = state)
  | enter (caller : Caller) (call : Call) (free : state.current = none)
    (made : next = { state with current := some (caller,call,body.start call) })
  | advance (caller : Caller) (call : Call) (place after : Place) (shared : Shared)
    (had : state.current = some (caller,call,place)) (moved : body.advance place state.shared = some (after,shared))
    (made : next = ⟨some (caller,call,after),shared,state.history⟩)
  | finish (caller : Caller) (call : Call) (place : Place) (answer : Answer)
    (had : state.current = some (caller,call,place)) (done : body.answer place = some answer)
    (made : next = ⟨none,state.shared,state.history ++ [(caller,call,answer)]⟩)
  | environment (shared : Shared) (moved : environment state.shared shared) (made : next = { state with shared := shared })

/-- A property of the finished calls, of the body that runs and of the shared state that
every kind of step keeps. -/
structure Kept (body : Body Call Place Shared Answer) (environment : Shared → Shared → Prop)
    (property : List (Caller × Call × Answer) → Option (Call × Place) → Shared → Prop) : Prop where
  enter : ∀ history call shared, property history none shared → property history (some (call,body.start call)) shared
  advance : ∀ history call place after shared next, property history (some (call,place)) shared →
    body.advance place shared = some (after,next) → property history (some (call,after)) next
  finish : ∀ history caller call place answer shared, property history (some (call,place)) shared →
    body.answer place = some answer → property (history ++ [(caller,call,answer)]) none shared
  environment : ∀ history current shared next, property history current shared → environment shared next →
    property history current next

def State.Satisfies (state : State Caller Call Place Shared Answer)
    (property : List (Caller × Call × Answer) → Option (Call × Place) → Shared → Prop) : Prop :=
  property state.history (state.current.map Prod.snd) state.shared

theorem Kept.step {body : Body Call Place Shared Answer} {environment : Shared → Shared → Prop}
    {property : List (Caller × Call × Answer) → Option (Call × Place) → Shared → Prop} (kept : Kept body environment property)
    {state next : State Caller Call Place Shared Answer} (holds : state.Satisfies property)
    (step : Step body environment state next) : next.Satisfies property := by
  unfold State.Satisfies at holds ⊢
  cases step with
  | keep same => rwa [same]
  | enter caller call free made =>
    subst made
    rw [free] at holds
    exact kept.enter _ call _ holds
  | advance caller call place after shared had moved made =>
    subst made
    rw [had] at holds
    exact kept.advance _ call place after _ shared holds moved
  | finish caller call place answer had done made =>
    subst made
    rw [had] at holds
    exact kept.finish _ caller call place answer _ holds done
  | environment shared moved made =>
    subst made
    exact kept.environment _ _ _ shared holds moved

/-- The sequential meaning of a call is a function of the shared state. `rest` is what a
body has still to do from a place, and a body that returns does so after finitely many
steps. -/
structure Agrees (body : Body Call Place Shared Answer) (sequential : Call → Shared → Outcome)
    (returns : Answer → Shared → Outcome) where
  rest : Place → Shared → Outcome
  left : Place → Shared → Nat
  start : ∀ call shared, rest (body.start call) shared = sequential call shared
  advance : ∀ place after shared next, body.advance place shared = some (after,next) →
    rest after next = rest place shared ∧ left after next < left place shared
  answer : ∀ place answer shared, body.answer place = some answer → rest place shared = returns answer shared
  moves : ∀ place answer shared after, rest place shared = returns answer after → body.answer place = none →
    (body.advance place shared).isSome

/-- The calls of the list return their answers when they are made one after the other. -/
def Replays (sequential : Call → Shared → Outcome) (returns : Answer → Shared → Outcome) :
    Shared → List (Caller × Call × Answer) → Shared → Prop
  | shared, [], final => shared = final
  | shared, (_,call,answer) :: later, final =>
    ∃ middle, sequential call shared = returns answer middle ∧ Replays sequential returns middle later final

theorem replays_append (sequential : Call → Shared → Outcome) (returns : Answer → Shared → Outcome) (shared final : Shared)
    (history later : List (Caller × Call × Answer)) : Replays sequential returns shared (history ++ later) final ↔
      ∃ middle, Replays sequential returns shared history middle ∧ Replays sequential returns middle later final := by
  induction history generalizing shared with
  | nil => simp [Replays]
  | cons entry history ih =>
    simp only [List.cons_append,Replays,ih]
    constructor
    · rintro ⟨first,made,middle,before,after⟩
      exact ⟨middle,⟨first,made,before⟩,after⟩
    · rintro ⟨middle,⟨first,made,before⟩,after⟩
      exact ⟨first,made,middle,before,after⟩

section
variable {body : Body Call Place Shared Answer} {sequential : Call → Shared → Outcome}
  {returns : Answer → Shared → Outcome}

/-- The finished calls are a sequential run, and the body that runs ends as its call
does after that run. -/
def Linear (agrees : Agrees body sequential returns) (initial : Shared) (history : List (Caller × Call × Answer))
    (current : Option (Call × Place)) (shared : Shared) : Prop :=
  ∃ before, Replays sequential returns initial history before ∧
    match current with
    | none => shared = before
    | some (call,place) => agrees.rest place shared = sequential call before

theorem Agrees.linear_kept (agrees : Agrees body sequential returns) (initial : Shared) : Kept body (fun _ _ => False)
    (Linear agrees initial : List (Caller × Call × Answer) → Option (Call × Place) → Shared → Prop) where
  enter := by
    rintro history call shared ⟨before,replays,rfl⟩
    exact ⟨shared,replays,agrees.start call shared⟩
  advance := by
    rintro history call place after shared next ⟨before,replays,same⟩ moved
    exact ⟨before,replays,(agrees.advance place after shared next moved).1.trans same⟩
  finish := by
    rintro history caller call place answer shared ⟨before,replays,same⟩ done
    refine ⟨shared,?_,rfl⟩
    rw [replays_append]
    refine ⟨before,replays,shared,?_,rfl⟩
    rw [← same,agrees.answer place answer shared done]
  environment := by
    intro history current shared next _ impossible
    exact impossible.elim

def Body.iterate (body : Body Call Place Shared Answer) : Nat → Place → Shared → Option (Place × Shared)
  | 0, place, shared => some (place,shared)
  | count + 1, place, shared => (body.advance place shared).bind fun (after,next) => body.iterate count after next

/-- A body whose rest returns comes to its answer by its own steps alone. -/
theorem Agrees.completes (agrees : Agrees body sequential returns)
    (single : ∀ answer shared other next, returns answer shared = returns other next → answer = other ∧ shared = next)
    {place : Place} {shared final : Shared} {answer : Answer} (rest : agrees.rest place shared = returns answer final) :
    ∃ count last, body.iterate count place shared = some (last,final) ∧ body.answer last = some answer := by
  induction bound : agrees.left place shared using Nat.strong_induction_on generalizing place shared with
  | h bound ih =>
    cases done : body.answer place with
    | some given =>
      have returned := (agrees.answer place given shared done).symm.trans rest
      obtain ⟨rfl,rfl⟩ := single _ _ _ _ returned
      exact ⟨0,place,rfl,done⟩
    | none =>
      obtain ⟨⟨after,next⟩,moved⟩ := Option.isSome_iff_exists.mp (agrees.moves place answer shared final rest done)
      obtain ⟨same,fewer⟩ := agrees.advance place after shared next moved
      obtain ⟨count,last,ran,answered⟩ := ih (agrees.left after next) (bound ▸ fewer) (same.trans rest) rfl
      refine ⟨count + 1,last,?_,answered⟩
      rw [Body.iterate,moved,Option.bind_some]
      exact ran

end

end Exclusive
