import BorealOS.Threading.LockDiscipline

/-! Contexts by their place. The contexts of a processor form a stack, and a place is
a processor with a height in its stack. A step changes the context at one place: the
running one, a handler above it that starts, or a handler that returns. -/
namespace BorealOS.Threading

variable {Id Lock Task : Type}

def Processor.stack (processor : Processor Lock Task) : List (Context Lock Task) :=
  processor.interrupted.reverse ++ [processor.running]

theorem Context.proceed_task [DecidableEq Lock] {context after : Context Lock Task} {locked marks : Lock → Bool}
    {stopInterrupts : Bool} (step : context.proceed stopInterrupts locked = some (after,marks)) : after.task = context.task := by
  obtain ⟨interrupts,sections,phase,task⟩ := context
  cases phase with
  | code => simp [Context.proceed] at step
  | readFlag | clearFlag | load | setFlag | leave =>
    simp only [Context.proceed,Option.some.injEq,Prod.mk.injEq] at step
    obtain ⟨rfl,rfl⟩ := step
    rfl
  | compareExchange lock had before =>
    simp only [Context.proceed] at step
    by_cases taken : locked lock
    · simp only [taken,if_true,Option.some.injEq,Prod.mk.injEq] at step
      obtain ⟨rfl,rfl⟩ := step
      rfl
    · simp only [taken,Bool.false_eq_true,if_false,Option.some.injEq,Prod.mk.injEq] at step
      obtain ⟨rfl,rfl⟩ := step
      rfl
  | store =>
    cases sections with
    | nil => simp [Context.proceed] at step
    | cons innermost outer =>
      simp only [Context.proceed,Option.some.injEq,Prod.mk.injEq] at step
      obtain ⟨rfl,rfl⟩ := step
      rfl

namespace Machine

def contextAt (machine : Machine Id Lock Task) (place : Id × Nat) : Option (Context Lock Task) :=
  (machine.processors place.1).stack[place.2]?

def top (machine : Machine Id Lock Task) (id : Id) : Id × Nat := (id,(machine.processors id).interrupted.length)

theorem contextAt_top (machine : Machine Id Lock Task) (id : Id) :
    machine.contextAt (machine.top id) = some (machine.processors id).running := by
  simp [contextAt,top,Processor.stack]

theorem contextAt_above (machine : Machine Id Lock Task) (id : Id) :
    machine.contextAt (id,(machine.processors id).interrupted.length + 1) = none := by
  simp [contextAt,Processor.stack]

theorem Initial.contextAt [DecidableEq Lock] {machine : Machine Id Lock Task} (initial : machine.Initial) {place : Id × Nat}
    {context : Context Lock Task} (here : machine.contextAt place = some context) :
    context = (machine.processors place.1).running := by
  have member := List.mem_of_getElem? here
  rw [Processor.stack,(initial.2 place.1).2,List.reverse_nil,List.nil_append] at member
  exact List.mem_singleton.mp member

theorem exists_context_iff (machine : Machine Id Lock Task) (property : Context Lock Task → Prop) :
    (∃ place context, machine.contextAt place = some context ∧ property context) ↔
      ∃ id, ∃ context ∈ (machine.processors id).contexts, property context := by
  have same : ∀ id context, context ∈ (machine.processors id).stack ↔ context ∈ (machine.processors id).contexts := by
    intro id context
    simp [Processor.stack,Processor.contexts,or_comm]
  constructor
  · rintro ⟨place,context,here,holds⟩
    exact ⟨place.1,context,(same _ _).mp (List.mem_of_getElem? here),holds⟩
  · rintro ⟨id,context,member,holds⟩
    obtain ⟨height,here⟩ := List.mem_iff_getElem?.mp ((same id context).mpr member)
    exact ⟨(id,height),context,here,holds⟩

theorem Disciplined.holder_at_top {machine : Machine Id Lock Task} (disciplined : machine.Disciplined) {lock : Lock}
    {place : Id × Nat} {context : Context Lock Task} (here : machine.contextAt place = some context)
    (takes : lock ∈ context.locks) : place = machine.top place.1 ∧ machine.Holds (place.1,0) lock := by
  have bound : place.2 < (machine.processors place.1).contexts.length := by
    simpa [Processor.stack,Processor.contexts] using (List.getElem?_eq_some_iff.mp here).choose
  have turned : (machine.processors place.1).stack = (machine.processors place.1).contexts.reverse := by
    simp [Processor.stack,Processor.contexts]
  rw [contextAt,turned,List.getElem?_reverse bound] at here
  have holds : machine.Holds (place.1,(machine.processors place.1).contexts.length - 1 - place.2) lock := ⟨context,here,takes⟩
  have last := ((disciplined.holds_iff _ lock).mp holds).1
  simp only at last
  rw [last] at holds
  refine ⟨Prod.ext rfl ?_,holds⟩
  simp only [Processor.contexts,List.length_cons,top] at bound last ⊢
  omega

theorem Disciplined.alone {machine : Machine Id Lock Task} (disciplined : machine.Disciplined) {lock : Lock}
    {place other : Id × Nat} {context second : Context Lock Task} (here : machine.contextAt place = some context)
    (there : machine.contextAt other = some second) (takes : lock ∈ context.locks) (also : lock ∈ second.locks) :
    place = other := by
  obtain ⟨atTop,holds⟩ := disciplined.holder_at_top here takes
  obtain ⟨alsoAtTop,alsoHolds⟩ := disciplined.holder_at_top there also
  have same := disciplined.one_holder holds alsoHolds
  rw [Prod.mk.injEq] at same
  rw [atTop,alsoAtTop,same.1]

variable [DecidableEq Id] {machine : Machine Id Lock Task} {locked : Lock → Bool} {id : Id}

theorem contextAt_update {processor : Processor Lock Task} {height : Nat} {after : Option (Context Lock Task)}
    (changes : ∀ other, processor.stack[other]? = if other = height then after else (machine.processors id).stack[other]?) :
    contextAt ⟨locked,Function.update machine.processors id processor⟩ = Function.update machine.contextAt (id,height) after := by
  funext place
  by_cases same : place.1 = id
  · have here : contextAt ⟨locked,Function.update machine.processors id processor⟩ place = processor.stack[place.2]? := by
      simp [contextAt,same]
    rw [here,changes place.2]
    by_cases last : place.2 = height
    · rw [if_pos last,show place = (id,height) from Prod.ext same last,Function.update_self]
    · rw [if_neg last,Function.update_of_ne (fun equal => last (congrArg Prod.snd equal)),contextAt,same]
  · rw [Function.update_of_ne (fun equal => same (congrArg Prod.fst equal))]
    simp [contextAt,same]

theorem forall_context_update {next : Machine Id Lock Task} {place : Id × Nat} {after : Option (Context Lock Task)}
    {property : Context Lock Task → Prop} (contexts : next.contextAt = Function.update machine.contextAt place after)
    (held : ∀ other context, machine.contextAt other = some context → property context)
    (made : ∀ context, after = some context → property context) :
    ∀ other context, next.contextAt other = some context → property context := by
  intro other context here
  rw [contexts] at here
  by_cases same : other = place
  · rw [same,Function.update_self] at here
    exact made context here
  · rw [Function.update_of_ne same] at here
    exact held other context here

theorem contextAt_run (context : Context Lock Task) :
    contextAt ⟨locked,Function.update machine.processors id { machine.processors id with running := context }⟩ =
      Function.update machine.contextAt (machine.top id) (some context) := by
  apply contextAt_update
  intro height
  simp only [Processor.stack]
  grind

theorem contextAt_interrupt (handler : Context Lock Task) :
    contextAt ⟨locked,Function.update machine.processors id
      ⟨handler,(machine.processors id).running :: (machine.processors id).interrupted⟩⟩ =
      Function.update machine.contextAt (id,(machine.processors id).interrupted.length + 1) (some handler) := by
  apply contextAt_update
  intro height
  simp only [Processor.stack,List.reverse_cons]
  grind

theorem contextAt_resume {context : Context Lock Task} {deeper : List (Context Lock Task)}
    (stack : (machine.processors id).interrupted = context :: deeper) :
    contextAt ⟨locked,Function.update machine.processors id ⟨context,deeper⟩⟩ =
      Function.update machine.contextAt (machine.top id) none := by
  apply contextAt_update
  intro height
  simp only [Processor.stack,stack,List.reverse_cons]
  grind

end Machine

end BorealOS.Threading
