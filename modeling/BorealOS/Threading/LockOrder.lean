import BorealOS.Threading.LockDiscipline

/-! Locks that are taken in an order. When each context only asks for locks above the
ones it has, no state of any run is a deadlock: the calls of `Lock` that wait and the
sections that are open can all come to their end. -/
namespace BorealOS.Threading

variable {Id Lock Task : Type}

/-- The lock of a call of `Lock` that has not ended. -/
def Phase.wanted : Phase Lock → Option Lock
  | .readFlag lock _ => some lock
  | .clearFlag lock _ _ => some lock
  | .load lock _ _ => some lock
  | .compareExchange lock _ _ => some lock
  | _ => none

/-- The lock that a context asks for is above those it has, and it gives back a lock only
if it has one. -/
structure Context.Ordered (rank : Lock → Nat) (context : Context Lock Task) : Prop where
  above : ∀ lock, context.phase.wanted = some lock → ∀ held ∈ context.locks, rank held < rank lock
  storing : context.phase = .store → context.sections ≠ []

/-- A call of `Lock` is for a lock above those that the context has. -/
def Above (rank : Lock → Nat) (machine : Machine Id Lock Task) (label : Id × Event Lock Task) : Prop :=
  ∀ lock, label.2 = .enter lock → ∀ held ∈ (machine.processors label.1).running.locks, rank held < rank lock

namespace Context

variable {rank : Lock → Nat} {context after : Context Lock Task} {locked marks : Lock → Bool}

theorem Ordered.of_code (code : context.phase = .code) : context.Ordered rank where
  above lock wanted := by simp [code,Phase.wanted] at wanted
  storing store := by simp [code] at store

/-- The steps that a context has before it is outside of all sections, when it asks for
nothing more and finds free what it asks for. -/
def left (context : Context Lock Task) : Nat :=
  match context.phase with
  | .code => 4 * context.sections.length
  | .readFlag _ _ => 4 * context.sections.length + 8
  | .clearFlag _ _ _ => 4 * context.sections.length + 7
  | .load _ _ _ => 4 * context.sections.length + 6
  | .compareExchange _ _ _ => 4 * context.sections.length + 5
  | .store => 4 * context.sections.length - 1
  | .setFlag _ _ => 4 * context.sections.length + 2
  | .leave _ => 4 * context.sections.length + 1

variable [DecidableEq Lock]

theorem Ordered.proceed (ordered : context.Ordered rank) (step : context.proceed true locked = some (after,marks)) :
    after.Ordered rank := by
  obtain ⟨interrupts,sections,phase,task⟩ := context
  cases phase with
  | code => simp [Context.proceed] at step
  | readFlag lock before | clearFlag lock had before =>
    simp only [Context.proceed,Option.some.injEq,Prod.mk.injEq] at step
    obtain ⟨rfl,rfl⟩ := step
    exact ⟨ordered.above,by simp⟩
  | load lock had before =>
    simp only [Context.proceed,Option.some.injEq,Prod.mk.injEq] at step
    obtain ⟨rfl,rfl⟩ := step
    cases locked lock <;> exact ⟨ordered.above,by simp⟩
  | compareExchange lock had before =>
    simp only [Context.proceed] at step
    split at step
    · simp only [Option.some.injEq,Prod.mk.injEq] at step
      obtain ⟨rfl,rfl⟩ := step
      exact ⟨ordered.above,by simp⟩
    · simp only [Option.some.injEq,Prod.mk.injEq] at step
      obtain ⟨rfl,rfl⟩ := step
      exact .of_code rfl
  | store =>
    cases sections with
    | nil => simp [Context.proceed] at step
    | cons innermost outer =>
      simp only [Context.proceed,Option.some.injEq,Prod.mk.injEq] at step
      obtain ⟨rfl,rfl⟩ := step
      exact ⟨by simp [Phase.wanted],by simp⟩
  | setFlag reenableInterrupts before =>
    simp only [Context.proceed,Option.some.injEq,Prod.mk.injEq] at step
    obtain ⟨rfl,rfl⟩ := step
    exact ⟨by simp [Phase.wanted],by simp⟩
  | leave before =>
    simp only [Context.proceed,Option.some.injEq,Prod.mk.injEq] at step
    obtain ⟨rfl,rfl⟩ := step
    exact .of_code rfl

/-- A context that is in a call of `Lock` or `Unlock`, and finds free what it asks for,
makes a step towards its end, and the lock it asks for stays free. -/
theorem Ordered.proceeds (ordered : context.Ordered rank) (busy : context.phase ≠ .code)
    (free : ∀ lock, context.phase.wanted = some lock → locked lock = false) :
    ∃ after marks, context.proceed true locked = some (after,marks) ∧ after.left < context.left ∧
      ∀ lock, after.phase.wanted = some lock → marks lock = false := by
  obtain ⟨interrupts,sections,phase,task⟩ := context
  cases phase with
  | code => exact absurd rfl busy
  | readFlag lock before | clearFlag lock had before => exact ⟨_,_,rfl,by simp [left],free⟩
  | load lock had before =>
    have here := free lock rfl
    exact ⟨_,_,by simp only [Context.proceed,here]; rfl,by simp [left],by simpa [Phase.wanted] using here⟩
  | compareExchange lock had before =>
    have here := free lock rfl
    exact ⟨_,_,by simp only [Context.proceed,here]; rfl,by simp [left]; omega,by simp [Phase.wanted]⟩
  | store =>
    cases sections with
    | nil => exact absurd rfl (ordered.storing rfl)
    | cons innermost outer => exact ⟨_,_,rfl,by simp [left]; omega,by simp [Phase.wanted]⟩
  | setFlag reenableInterrupts before => exact ⟨_,_,rfl,by simp [left],by simp [Phase.wanted]⟩
  | leave before => exact ⟨_,_,rfl,by simp [left],by simp [Phase.wanted]⟩

end Context

namespace Machine

/-- All contexts ask for locks in order, and only finitely many processors are not
outside of all sections. -/
structure Ordered [DecidableEq Lock] (rank : Lock → Nat) (machine : Machine Id Lock Task) : Prop where
  disciplined : machine.Disciplined
  running : ∀ id, (machine.processors id).running.Ordered rank
  waiting : ∀ id, ∀ context ∈ (machine.processors id).interrupted, context.Ordered rank
  few : {id | ¬ (machine.processors id).running.outside}.Finite

variable [DecidableEq Lock] {rank : Lock → Nat} {machine next : Machine Id Lock Task}

theorem ordered_initial (initial : machine.Initial) : machine.Ordered rank where
  disciplined := disciplined_initial initial
  running id := by
    have both : (machine.processors id).running.phase = .code ∧ (machine.processors id).running.sections = [] := by
      simpa [Context.outside] using (initial.2 id).1
    exact .of_code both.1
  waiting id context member := by simp [(initial.2 id).2] at member
  few := by simp [(initial.2 _).1]

theorem Ordered.perform {processor : Processor Lock Task} {locked : Lock → Bool} {label : Id × Event Lock Task}
    (ordered : machine.Ordered rank) (above : Above rank machine label)
    (performed : (machine.processors label.1).perform true machine.locked label.2 = some (processor,locked)) :
    processor.running.Ordered rank ∧ ∀ context ∈ processor.interrupted, context.Ordered rank := by
  obtain ⟨id,event⟩ := label
  have running := ordered.running id
  have waiting := ordered.waiting id
  cases event with
  | work task =>
    simp only [Processor.perform,Option.ite_none_right_eq_some,Option.some.injEq,Prod.mk.injEq] at performed
    obtain ⟨code,rfl,rfl⟩ := performed
    exact ⟨.of_code code,waiting⟩
  | changeFlag interrupts =>
    simp only [Processor.perform,Option.ite_none_right_eq_some,Option.some.injEq,Prod.mk.injEq] at performed
    obtain ⟨outside,rfl,rfl⟩ := performed
    have both : (machine.processors id).running.phase = .code ∧ (machine.processors id).running.sections = [] := by
      simpa [Context.outside] using outside
    exact ⟨.of_code both.1,waiting⟩
  | enter lock =>
    simp only [Processor.perform,Option.ite_none_right_eq_some,Option.some.injEq,Prod.mk.injEq] at performed
    obtain ⟨_,rfl,rfl⟩ := performed
    refine ⟨⟨?_,by simp⟩,waiting⟩
    intro wanted same
    simp only [Phase.wanted,Option.some.injEq] at same
    subst same
    exact above lock rfl
  | exit =>
    simp only [Processor.perform,Option.ite_none_right_eq_some,Option.some.injEq,Prod.mk.injEq] at performed
    obtain ⟨inside,rfl,rfl⟩ := performed
    exact ⟨⟨by simp [Phase.wanted],fun _ => inside.2⟩,waiting⟩
  | proceed =>
    simp only [Processor.perform,Option.map_eq_some_iff,Prod.mk.injEq,Prod.exists] at performed
    obtain ⟨context,marks,step,rfl,rfl⟩ := performed
    exact ⟨running.proceed step,waiting⟩
  | interrupt task =>
    simp only [Processor.perform,Option.ite_none_right_eq_some,Option.some.injEq,Prod.mk.injEq] at performed
    obtain ⟨_,rfl,rfl⟩ := performed
    refine ⟨.of_code rfl,fun context member => ?_⟩
    rcases List.mem_cons.mp member with rfl | member
    · exact running
    · exact waiting context member
  | resume =>
    obtain ⟨context,deeper,stack,_,rfl,rfl⟩ := Processor.perform_resume performed
    exact ⟨waiting context (by simp [stack]),fun other member => waiting other (by simp [stack,member])⟩

/-- The height of the highest lock that a processor has. -/
def height (rank : Lock → Nat) (machine : Machine Id Lock Task) (id : Id) : Nat :=
  ((machine.processors id).running.locks.map fun lock => rank lock + 1).foldr max ⊥

/-- Of the processors that are not outside, one with the highest lock finds free what it
asks for. -/
theorem Ordered.highest_free (ordered : machine.Ordered rank) {id : Id}
    (highest : ∀ other, ¬ (machine.processors other).running.outside → machine.height rank other ≤ machine.height rank id) :
    ∀ lock, (machine.processors id).running.phase.wanted = some lock → machine.locked lock = false := by
  intro lock wanted
  by_contra taken
  rw [Bool.not_eq_false,ordered.disciplined.owned.marked] at taken
  obtain ⟨other,member⟩ := taken
  have inside : ¬ (machine.processors other).running.outside := by
    intro outside
    rw [Context.locks_of_outside outside] at member
    exact List.not_mem_nil member
  have high : rank lock + 1 ≤ machine.height rank other :=
    List.le_max_of_le (List.mem_map_of_mem member) le_rfl
  have low : machine.height rank id ≤ rank lock := by
    apply List.max_le_of_forall_le
    intro value member
    obtain ⟨held,mine,rfl⟩ := List.mem_map.mp member
    exact (ordered.running id).above lock wanted held mine
  have := highest other inside
  omega

/-- The next step towards the end of what a processor has begun. -/
theorem Ordered.next_end (ordered : machine.Ordered rank) {id : Id} (inside : ¬ (machine.processors id).running.outside)
    (free : ∀ lock, (machine.processors id).running.phase.wanted = some lock → machine.locked lock = false) :
    ∃ event context locked, (machine.processors id).perform true machine.locked event =
        some ({ machine.processors id with running := context },locked) ∧ (event = .exit ∨ event = .proceed) ∧
      context.left < (machine.processors id).running.left ∧ ∀ lock, context.phase.wanted = some lock → locked lock = false := by
  by_cases code : (machine.processors id).running.phase = .code
  · have opened : (machine.processors id).running.sections ≠ [] := by simpa [Context.outside,code] using inside
    refine ⟨.exit,{ (machine.processors id).running with phase := .store },machine.locked,?_,.inl rfl,?_,by simp [Phase.wanted]⟩
    · rw [Processor.perform,if_pos ⟨code,opened⟩]
    · have some_ := List.length_pos_iff.mpr opened
      simp only [Context.left,code]
      omega
  · obtain ⟨after,marks,step,less,still⟩ := (ordered.running id).proceeds code free
    refine ⟨.proceed,after,marks,?_,.inr rfl,less,still⟩
    rw [Processor.perform,step,Option.map_some]

variable [DecidableEq Id]

/-- A step changes one processor. -/
theorem step_processor {label : Id × Event Lock Task} (step : machine.step true label = some next) :
    ∃ processor locked, (machine.processors label.1).perform true machine.locked label.2 = some (processor,locked) ∧
      next = ⟨locked,Function.update machine.processors label.1 processor⟩ := by
  simp only [Machine.step,Option.map_eq_some_iff,Prod.exists] at step
  obtain ⟨processor,locked,performed,rfl⟩ := step
  exact ⟨processor,locked,performed,rfl⟩

theorem Ordered.step {label : Id × Event Lock Task} (ordered : machine.Ordered rank) (above : Above rank machine label)
    (step : machine.step true label = some next) : next.Ordered rank := by
  have disciplined := ordered.disciplined.step step
  obtain ⟨processor,locked,performed,rfl⟩ := step_processor step
  obtain ⟨running,waiting⟩ := ordered.perform above performed
  refine ⟨disciplined,fun id => ?_,fun id => ?_,?_⟩
  · by_cases same : id = label.1
    · subst same
      simpa using running
    · simpa [same] using ordered.running id
  · by_cases same : id = label.1
    · subst same
      simpa using waiting
    · simpa [same] using ordered.waiting id
  · apply (ordered.few.insert label.1).subset
    intro id busy
    by_cases same : id = label.1
    · exact .inl same
    · exact .inr (by simpa [same] using busy)

/-- A processor that finds free what it asks for leaves all sections by its own steps. -/
theorem Ordered.leaves (ordered : machine.Ordered rank) {id : Id}
    (free : ∀ lock, (machine.processors id).running.phase.wanted = some lock → machine.locked lock = false) :
    ∃ labels reached, Transition.run (Machine.step true) machine labels = some reached ∧
      (∀ label ∈ labels, label.2 = .exit ∨ label.2 = .proceed) ∧ reached.Ordered rank ∧
        (reached.processors id).running.outside ∧ ∀ other, other ≠ id → reached.processors other = machine.processors other := by
  induction bound : (machine.processors id).running.left using Nat.strong_induction_on generalizing machine with
  | h bound ih =>
    by_cases outside : (machine.processors id).running.outside
    · exact ⟨[],machine,rfl,by simp,ordered,outside,fun _ _ => rfl⟩
    · obtain ⟨event,context,locked,performed,ends,less,still⟩ := ordered.next_end outside free
      generalize made : (⟨locked,Function.update machine.processors id { machine.processors id with running := context }⟩ :
        Machine Id Lock Task) = middle
      have step : machine.step true (id,event) = some middle := by rw [Machine.step,performed,Option.map_some,← made]
      have above : Above rank machine (id,event) := by
        intro lock enter
        rcases ends with rfl | rfl <;> cases enter
      have here : (middle.processors id).running = context := by simp [← made]
      have marks : middle.locked = locked := by simp [← made]
      obtain ⟨labels,reached,ran,own,ordered',outside',others⟩ := ih context.left (bound ▸ less) (ordered.step above step)
        (by rw [here,marks]; exact still) (by rw [here])
      refine ⟨(id,event) :: labels,reached,?_,?_,ordered',outside',?_⟩
      · rw [Transition.run,step,Option.bind_some]
        exact ran
      · intro label member
        rcases List.mem_cons.mp member with rfl | member
        · exact ends
        · exact own label member
      · intro other apart
        rw [others other apart,← made]
        exact Function.update_of_ne apart _ _

/-- However far the processors are, all of them can leave their sections. -/
theorem Ordered.all_leave (ordered : machine.Ordered rank) : ∃ labels reached,
    Transition.run (Machine.step true) machine labels = some reached ∧ (∀ label ∈ labels, label.2 = .exit ∨ label.2 = .proceed) ∧
      ∀ id, (reached.processors id).running.outside := by
  induction bound : ordered.few.toFinset.card using Nat.strong_induction_on generalizing machine with
  | h bound ih =>
    rcases ordered.few.toFinset.eq_empty_or_nonempty with none | some_
    · refine ⟨[],machine,rfl,by simp,fun id => ?_⟩
      by_contra inside
      have member : id ∈ ordered.few.toFinset := by simpa using inside
      rw [none] at member
      exact Finset.notMem_empty id member
    · obtain ⟨id,member,highest⟩ := ordered.few.toFinset.exists_max_image (machine.height rank) some_
      obtain ⟨labels,middle,ran,own,ordered',outside,others⟩ := ordered.leaves (ordered.highest_free fun other inside =>
        highest other (by simpa using inside))
      have fewer : ordered'.few.toFinset ⊂ ordered.few.toFinset := by
        rw [Finset.ssubset_iff_of_subset]
        · exact ⟨id,member,by simpa using outside⟩
        · intro other busy
          by_cases same : other = id
          · exact same ▸ member
          · simpa [others other same] using busy
      obtain ⟨more,reached,ends,rest,all⟩ := ih _ (bound ▸ Finset.card_lt_card fewer) ordered' rfl
      refine ⟨labels ++ more,reached,?_,?_,all⟩
      · rw [Transition.run_append,ran,Option.bind_some]
        exact ends
      · intro label inside
        rcases List.mem_append.mp inside with first | second
        · exact own label first
        · exact rest label second

/-- In every run that takes locks in order, each state can be led, by steps that only end
what was begun, to one in which every lock is free and every call of `Lock` has got its
lock and given it back. -/
theorem lock_order_run {final : Machine Id Lock Task} {trace : List (Id × Event Lock Task)} (initial : machine.Initial)
    (above : Transition.Along (Machine.step true) (Above rank) machine trace)
    (ran : Transition.run (Machine.step true) machine trace = some final) : ∃ labels reached,
      Transition.run (Machine.step true) final labels = some reached ∧ (∀ label ∈ labels, label.2 = .exit ∨ label.2 = .proceed) ∧
        (∀ lock, reached.locked lock = false) ∧ ∀ id, (reached.processors id).running.outside := by
  have ordered := Transition.run_preserves (Machine.step true) (Machine.Ordered rank) (Above rank)
    (fun _ _ _ above ordered step => ordered.step above step) above (ordered_initial initial) ran
  obtain ⟨labels,reached,ends,own,outside⟩ := ordered.all_leave
  have disciplined := Transition.run_invariant (Machine.step true) Disciplined (fun _ _ _ holds step => holds.step step)
    ordered.disciplined ends
  refine ⟨labels,reached,ends,own,fun lock => ?_,outside⟩
  by_contra taken
  rw [Bool.not_eq_false,disciplined.owned.marked] at taken
  obtain ⟨id,member⟩ := taken
  rw [Context.locks_of_outside (outside id)] at member
  exact List.not_mem_nil member

end Machine

end BorealOS.Threading
