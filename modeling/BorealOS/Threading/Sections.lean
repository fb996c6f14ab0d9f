import BorealOS.Threading.CallMachine

/-! The bodies of locked functions run one at a time. What a single body keeps holds
over every run, and when each body agrees with a sequential function, the finished calls
are a sequential run of these functions. -/
namespace BorealOS.Threading

variable {Id Call Place Shared Answer Outside : Type}

def CallStage.body : CallStage Call Place Answer → Option (Call × Place)
  | .running call place => some (call,place)
  | _ => none

theorem CallStage.body_eq_some {stage : CallStage Call Place Answer} {call : Call} {place : Place} :
    stage.body = some (call,place) ↔ stage = .running call place := by
  cases stage <;> simp [body]

/-- A context whose body runs has the lock and is not in a call of `Lock` or `Unlock`. -/
def Within (context : Context Unit (CallStage Call Place Answer)) : Prop :=
  ∀ call place, context.task = .running call place → context.sections ≠ [] ∧ context.phase = .code

theorem Within.of_body {context : Context Unit (CallStage Call Place Answer)} (none : context.task.body = none) :
    Within context := by
  intro call place task
  rw [CallStage.body_eq_some.mpr task] at none
  cases none

theorem Context.holds_lock {Task : Type} {context : Context Unit Task} (inside : context.sections ≠ []) :
    () ∈ context.locks := by
  obtain ⟨innermost,outer,sections⟩ := List.exists_cons_of_ne_nil inside
  simp [Context.locks,sections]

namespace CallMachine

variable {body : Exclusive.Body Call Place Shared Answer} {outside : Shared → Outside → Option Shared}
variable {machine next final : CallMachine Id Call Place Shared Answer} {id : Id}

def inside (machine : CallMachine Id Call Place Shared Answer) : Id × Nat → Option (Call × Place) :=
  (fun context => context.bind (·.task.body)) ∘ machine.threads.contextAt

/-- The machine as the bodies see it. -/
structure Shows (machine : CallMachine Id Call Place Shared Answer)
    (state : Exclusive.State (Id × Nat) Call Place Shared Answer) : Prop where
  current : ∀ place found, machine.inside place = some found ↔ state.current = some (place,found)
  shared : state.shared = machine.shared
  history : state.history = machine.history

/-- The last finished call of the place has this answer. -/
def Last (history : List ((Id × Nat) × Call × Answer)) (place : Id × Nat) (answer : Answer) : Prop :=
  ∃ earlier call later, history = earlier ++ (place,call,answer) :: later ∧ ∀ entry ∈ later, entry.1 ≠ place

theorem Last.append {history more : List ((Id × Nat) × Call × Answer)} {place other : Id × Nat} {answer : Answer}
    (last : Last history place answer) (apart : place ≠ other) (elsewhere : ∀ entry ∈ more, entry.1 = other) :
    Last (history ++ more) place answer := by
  obtain ⟨earlier,call,later,rfl,none⟩ := last
  refine ⟨earlier,call,later ++ more,by simp,?_⟩
  intro entry member
  rcases List.mem_append.mp member with old | new
  · exact none entry old
  · rw [elsewhere entry new]
    exact apart.symm

structure Sound (machine : CallMachine Id Call Place Shared Answer) : Prop where
  disciplined : machine.threads.Disciplined
  within : ∀ place context, machine.threads.contextAt place = some context → Within context
  answered : ∀ place context answer, machine.threads.contextAt place = some context → context.task = .returning answer →
    Last machine.history place answer

theorem inside_top (machine : CallMachine Id Call Place Shared Answer) (id : Id) :
    machine.inside (machine.threads.top id) = (machine.threads.processors id).running.task.body := by
  simp [inside,Machine.contextAt_top]

theorem inside_eq_some {place : Id × Nat} {call : Call} {point : Place} : machine.inside place = some (call,point) ↔
    ∃ context, machine.threads.contextAt place = some context ∧ context.task = .running call point := by
  simp only [inside,Function.comp,Option.bind_eq_some_iff,CallStage.body_eq_some]

theorem inside_of_idle (idle : ∀ id, (machine.threads.processors id).running.task.body = none ∧
    (machine.threads.processors id).interrupted = []) (place : Id × Nat) : machine.inside place = none := by
  obtain ⟨id,height⟩ := place
  obtain ⟨task,alone⟩ := idle id
  cases height with
  | zero => simp [inside,Machine.contextAt,Processor.stack,alone,task]
  | succ height => simp [inside,Machine.contextAt,Processor.stack,alone]

theorem Initial.sound (initial : machine.Initial) : machine.Sound := by
  have idle : ∀ place context, machine.threads.contextAt place = some context → context.task = .idle := by
    intro place context here
    rw [initial.threads.contextAt here,initial.idle]
  refine ⟨Machine.disciplined_initial initial.threads,?_,?_⟩
  · intro place context here
    apply Within.of_body
    rw [idle place context here]
    rfl
  · intro place context answer here task
    rw [idle place context here] at task
    cases task

theorem Initial.shows (initial : machine.Initial) : machine.Shows ⟨none,machine.shared,[]⟩ := by
  refine ⟨?_,rfl,initial.history.symm⟩
  rintro place ⟨call,point⟩
  rw [inside_eq_some]
  constructor
  · rintro ⟨context,here,task⟩
    rw [initial.threads.contextAt here,initial.idle] at task
    cases task
  · intro impossible
    cases impossible

/-- While a context holds the lock, no body runs at another place. -/
theorem Sound.others_outside (sound : machine.Sound) (holds : (machine.threads.processors id).running.sections ≠ [])
    {other : Id × Nat} (apart : other ≠ machine.threads.top id) : machine.inside other = none := by
  cases found : machine.inside other with
  | none => rfl
  | some body =>
    obtain ⟨context,here,task⟩ := inside_eq_some.mp found
    have theirs := (sound.within other context here body.1 body.2 task).1
    exact absurd (sound.disciplined.alone here (machine.threads.contextAt_top id) (Context.holds_lock theirs)
      (Context.holds_lock holds)) apart

/-- A body that runs has the running context of its processor. -/
theorem Sound.running_body (sound : machine.Sound) {call : Call} {point : Place} {place : Id × Nat}
    (runs : machine.inside place = some (call,point)) : place = machine.threads.top place.1 ∧
      (machine.threads.processors place.1).running.phase = .code ∧
        (machine.threads.processors place.1).running.task = .running call point := by
  obtain ⟨context,here,task⟩ := inside_eq_some.mp runs
  obtain ⟨holds,code⟩ := sound.within place context here call point task
  have atTop := (sound.disciplined.holder_at_top here (Context.holds_lock holds)).1
  rw [atTop,Machine.contextAt_top,Option.some.injEq] at here
  subst here
  exact ⟨atTop,code,task⟩

/-- The body of the top context is the one that the state shows. -/
theorem Shows.current_top {state : Exclusive.State (Id × Nat) Call Place Shared Answer} {call : Call} {point : Place}
    (shows_ : machine.Shows state) (task : (machine.threads.processors id).running.task = .running call point) :
    state.current = some (machine.threads.top id,call,point) := by
  rw [← shows_.current,inside_top,task]
  rfl

variable [DecidableEq Id] {place : Id × Nat} {after : Option (Context Unit (CallStage Call Place Answer))}

theorem Sound.update (sound : machine.Sound) (disciplined : next.threads.Disciplined)
    (contexts : next.threads.contextAt = Function.update machine.threads.contextAt place after)
    (within : ∀ context, after = some context → Within context)
    (answered : ∀ context answer, after = some context → context.task = .returning answer → Last next.history place answer)
    {more : List ((Id × Nat) × Call × Answer)} (grows : next.history = machine.history ++ more)
    (mine : ∀ entry ∈ more, entry.1 = place) :
    next.Sound ∧ next.inside = Function.update machine.inside place (after.bind (·.task.body)) := by
  refine ⟨⟨disciplined,Machine.forall_context_update contexts sound.within within,?_⟩,?_⟩
  · intro other context answer here task
    rw [contexts] at here
    by_cases same : other = place
    · subst same
      rw [Function.update_self] at here
      exact answered context answer here task
    · rw [Function.update_of_ne same] at here
      rw [grows]
      exact (sound.answered other context answer here task).append same mine
  · simp only [inside]
    rw [contexts,Function.comp_update]

/-- Steps that change no body show the same state. -/
theorem Shows.keep {state : Exclusive.State (Id × Nat) Call Place Shared Answer} (shows_ : machine.Shows state)
    {new : Option (Call × Place)} (inside : next.inside = Function.update machine.inside place new)
    (same : new = machine.inside place) (shared : next.shared = machine.shared) (history : next.history = machine.history) :
    next.Shows state := by
  refine ⟨?_,shows_.shared.trans shared.symm,shows_.history.trans history.symm⟩
  rw [inside,same,Function.update_eq_self]
  exact shows_.current

theorem Shows.alone {new : Option (Call × Place)} (inside : next.inside = Function.update machine.inside place new)
    (others : ∀ other, other ≠ place → machine.inside other = none) :
    next.Shows ⟨new.map fun found => (place,found),next.shared,next.history⟩ := by
  refine ⟨fun other found => ?_,rfl,rfl⟩
  rw [inside]
  by_cases same : other = place
  · subst same
    simp
  · rw [Function.update_of_ne same,others other same]
    constructor
    · intro impossible
      cases impossible
    · intro made
      obtain ⟨_,_,pair⟩ := Option.map_eq_some_iff.mp made
      exact absurd (congrArg Prod.fst pair).symm same

theorem step_inl {event : CallEvent Call} (step : machine.step body outside (.inl (id,event)) = some next) :
    ∃ moved shared finished processor locked,
      translate body machine.shared (machine.threads.processors id).running event = some (moved,shared,finished) ∧
        (machine.threads.processors id).perform true machine.threads.locked moved = some (processor,locked) ∧
          next = ⟨⟨locked,Function.update machine.threads.processors id processor⟩,shared,
            machine.history ++ finished.map fun entry => (machine.threads.top id,entry)⟩ := by
  simp only [CallMachine.step,Machine.step,Option.bind_eq_bind,Option.bind_eq_some_iff,Option.map_eq_some_iff,Prod.exists] at step
  obtain ⟨moved,shared,finished,translated,threads,⟨processor,locked,performed,rfl⟩,made⟩ := step
  rw [Option.pure_def,Option.some.injEq] at made
  exact ⟨moved,shared,finished,processor,locked,translated,performed,made.symm⟩

theorem Sound.disciplined_next {event : CallEvent Call} (sound : machine.Sound)
    (step : machine.step body outside (.inl (id,event)) = some next) : next.threads.Disciplined := by
  obtain ⟨moved,_,_,processor,locked,_,performed,rfl⟩ := step_inl step
  have stepped : machine.threads.step true (id,moved) = some ⟨locked,Function.update machine.threads.processors id processor⟩ := by
    rw [Machine.step,performed,Option.map_some]
  exact sound.disciplined.step stepped

/-- A step of the running context that neither begins nor moves nor ends a body. -/
theorem Sound.quiet {state : Exclusive.State (Id × Nat) Call Place Shared Answer} {locked : Unit → Bool}
    {context : Context Unit (CallStage Call Place Answer)} (sound : machine.Sound) (shows_ : machine.Shows state)
    (disciplined : next.threads.Disciplined)
    (made : next = ⟨⟨locked,Function.update machine.threads.processors id
      { machine.threads.processors id with running := context }⟩,machine.shared,machine.history⟩)
    (same : context.task.body = (machine.threads.processors id).running.task.body) (within : Within context)
    (answered : ∀ answer, context.task = .returning answer →
      (machine.threads.processors id).running.task = .returning answer) : next.Sound ∧ next.Shows state := by
  have contexts : next.threads.contextAt =
      Function.update machine.threads.contextAt (machine.threads.top id) (some context) := by
    rw [made]
    exact Machine.contextAt_run context
  have history : next.history = machine.history := by rw [made]
  have done : ∀ other answer, some context = some other → other.task = .returning answer →
      Last next.history (machine.threads.top id) answer := by
    intro other answer here task
    rw [Option.some.injEq] at here
    subst here
    rw [history]
    exact sound.answered _ _ answer (machine.threads.contextAt_top id) (answered answer task)
  obtain ⟨sound',inside⟩ := sound.update disciplined contexts (by simpa using within) done
    (history.trans (List.append_nil _).symm) (by simp)
  refine ⟨sound',shows_.keep inside ?_ (by rw [made]) history⟩
  rw [inside_top]
  exact same

/-- A step that begins, moves or ends a body is made with the lock held, so that it is
the step of the one body that runs. -/
theorem Sound.body_step {shared : Shared} {task : CallStage Call Place Answer}
    (sound : machine.Sound) (disciplined : next.threads.Disciplined) {finished : List (Call × Answer)}
    (made : next = ⟨⟨machine.threads.locked,Function.update machine.threads.processors id
      { machine.threads.processors id with running := { (machine.threads.processors id).running with task := task } }⟩,
        shared,machine.history ++ finished.map fun entry => (machine.threads.top id,entry)⟩)
    (code : (machine.threads.processors id).running.phase = .code)
    (holds : (machine.threads.processors id).running.sections ≠ [])
    (answered : ∀ answer, task = .returning answer → ∃ call, finished = [(call,answer)]) :
    next.Sound ∧ next.Shows ⟨task.body.map fun found => (machine.threads.top id,found),next.shared,next.history⟩ := by
  have contexts : next.threads.contextAt = Function.update machine.threads.contextAt (machine.threads.top id)
      (some { (machine.threads.processors id).running with task := task }) := by
    rw [made]
    exact Machine.contextAt_run _
  have history : next.history = machine.history ++ finished.map fun entry => (machine.threads.top id,entry) := by rw [made]
  have within : ∀ other, some { (machine.threads.processors id).running with task := task } = some other → Within other := by
    intro other here call point _
    rw [Option.some.injEq] at here
    subst here
    exact ⟨holds,code⟩
  have done : ∀ other answer, some { (machine.threads.processors id).running with task := task } = some other →
      other.task = .returning answer → Last next.history (machine.threads.top id) answer := by
    intro other answer here returning
    rw [Option.some.injEq] at here
    subst here
    obtain ⟨call,rfl⟩ := answered answer returning
    exact ⟨machine.history,call,[],history,by simp⟩
  have mine : ∀ entry ∈ finished.map fun entry => (machine.threads.top id,entry), entry.1 = machine.threads.top id := by
    intro entry member
    obtain ⟨_,_,rfl⟩ := List.mem_map.mp member
    rfl
  obtain ⟨sound',inside⟩ := sound.update disciplined contexts within done history mine
  exact ⟨sound',Shows.alone inside fun other apart => sound.others_outside holds apart⟩

theorem Sound.proceed {state : Exclusive.State (Id × Nat) Call Place Shared Answer} (sound : machine.Sound)
    (shows_ : machine.Shows state) (step : machine.step body outside (.inl (id,.proceed)) = some next) :
    next.Sound ∧ next.Shows state := by
  have disciplined := sound.disciplined_next step
  obtain ⟨moved,shared,finished,processor,locked,translated,performed,made⟩ := step_inl step
  simp only [translate,Option.some.injEq,Prod.mk.injEq] at translated
  obtain ⟨rfl,rfl,rfl⟩ := translated
  simp only [Processor.perform,Option.map_eq_some_iff,Prod.mk.injEq,Prod.exists] at performed
  obtain ⟨context,marks,proceeds,rfl,rfl⟩ := performed
  have task := Context.proceed_task proceeds
  have within := sound.within _ _ (machine.threads.contextAt_top id)
  refine sound.quiet shows_ disciplined (by simpa using made) (by rw [task]) ?_ (fun answer returning => task ▸ returning)
  -- a context whose body runs is not in a call of `Lock` or `Unlock`
  intro call point running
  rw [task] at running
  have code := (within call point running).2
  simp [Context.proceed,code] at proceeds

theorem Sound.interrupt {state : Exclusive.State (Id × Nat) Call Place Shared Answer} (sound : machine.Sound)
    (shows_ : machine.Shows state) (step : machine.step body outside (.inl (id,.interrupt)) = some next) :
    next.Sound ∧ next.Shows state := by
  have disciplined := sound.disciplined_next step
  obtain ⟨moved,shared,finished,processor,locked,translated,performed,made⟩ := step_inl step
  simp only [translate,Option.some.injEq,Prod.mk.injEq] at translated
  obtain ⟨rfl,rfl,rfl⟩ := translated
  simp only [Processor.perform,Option.ite_none_right_eq_some,Option.some.injEq,Prod.mk.injEq] at performed
  obtain ⟨_,rfl,rfl⟩ := performed
  have contexts : next.threads.contextAt = Function.update machine.threads.contextAt
      (id,(machine.threads.processors id).interrupted.length + 1) (some (.handler .idle)) := by
    rw [made]
    exact Machine.contextAt_interrupt _
  have history : next.history = machine.history := by rw [made,List.map_nil,List.append_nil]
  have within : ∀ context : Context Unit (CallStage Call Place Answer), some (.handler .idle) = some context →
      Within context := by
    intro context here
    rw [Option.some.injEq] at here
    subst here
    exact .of_body rfl
  have done : ∀ (context : Context Unit (CallStage Call Place Answer)) answer, some (.handler .idle) = some context →
      context.task = .returning answer → Last next.history (id,(machine.threads.processors id).interrupted.length + 1) answer := by
    intro context answer here task
    rw [Option.some.injEq] at here
    subst here
    cases task
  obtain ⟨sound',inside⟩ := sound.update disciplined contexts within done (history.trans (List.append_nil _).symm) (by simp)
  refine ⟨sound',shows_.keep inside ?_ (by rw [made]) history⟩
  simp [CallMachine.inside,Machine.contextAt_above,Context.handler,CallStage.body]

theorem Sound.resume {state : Exclusive.State (Id × Nat) Call Place Shared Answer} (sound : machine.Sound)
    (shows_ : machine.Shows state) (step : machine.step body outside (.inl (id,.resume)) = some next) :
    next.Sound ∧ next.Shows state := by
  have disciplined := sound.disciplined_next step
  obtain ⟨moved,shared,finished,processor,locked,translated,performed,made⟩ := step_inl step
  cases task : (machine.threads.processors id).running.task with
  | idle =>
    simp only [translate,task,Option.some.injEq,Prod.mk.injEq] at translated
    obtain ⟨rfl,rfl,rfl⟩ := translated
    obtain ⟨context,deeper,stack,_,rfl,rfl⟩ := Processor.perform_resume performed
    have contexts : next.threads.contextAt = Function.update machine.threads.contextAt (machine.threads.top id) none := by
      rw [made]
      exact Machine.contextAt_resume stack
    have history : next.history = machine.history := by rw [made,List.map_nil,List.append_nil]
    obtain ⟨sound',inside⟩ := sound.update disciplined contexts (by simp) (by simp)
      (history.trans (List.append_nil _).symm) (by simp)
    refine ⟨sound',shows_.keep inside ?_ (by rw [made]) history⟩
    rw [inside_top,task]
    rfl
  | calling call | running call point | returning answer => simp [translate,task] at translated

theorem Sound.call {state : Exclusive.State (Id × Nat) Call Place Shared Answer} {call : Call} (sound : machine.Sound)
    (shows_ : machine.Shows state) (step : machine.step body outside (.inl (id,.call call)) = some next) :
    next.Sound ∧ next.Shows state := by
  have disciplined := sound.disciplined_next step
  obtain ⟨moved,shared,finished,processor,locked,translated,performed,made⟩ := step_inl step
  cases task : (machine.threads.processors id).running.task with
  | idle =>
    simp only [translate,task,Option.some.injEq,Prod.mk.injEq] at translated
    obtain ⟨rfl,rfl,rfl⟩ := translated
    simp only [Processor.perform,Option.ite_none_right_eq_some,Option.some.injEq,Prod.mk.injEq] at performed
    obtain ⟨_,rfl,rfl⟩ := performed
    rw [List.map_nil,List.append_nil] at made
    exact sound.quiet shows_ disciplined made (by rw [task]; rfl) (.of_body rfl) (by simp)
  | calling call | running call point | returning answer => simp [translate,task] at translated

theorem Sound.lock {state : Exclusive.State (Id × Nat) Call Place Shared Answer} (sound : machine.Sound)
    (shows_ : machine.Shows state) (step : machine.step body outside (.inl (id,.lock)) = some next) :
    next.Sound ∧ next.Shows state := by
  have disciplined := sound.disciplined_next step
  obtain ⟨moved,shared,finished,processor,locked,translated,performed,made⟩ := step_inl step
  cases task : (machine.threads.processors id).running.task with
  | calling call =>
    simp only [translate,task,Option.ite_none_right_eq_some,Option.some.injEq,Prod.mk.injEq] at translated
    obtain ⟨_,rfl,rfl,rfl⟩ := translated
    simp only [Processor.perform,Option.ite_none_right_eq_some,Option.some.injEq,Prod.mk.injEq] at performed
    obtain ⟨_,rfl,rfl⟩ := performed
    rw [List.map_nil,List.append_nil] at made
    refine sound.quiet shows_ disciplined made rfl (.of_body ?_) (fun answer returning => returning)
    simp [task,CallStage.body]
  | idle | running call point | returning answer => simp [translate,task] at translated

theorem Sound.unlock {state : Exclusive.State (Id × Nat) Call Place Shared Answer} (sound : machine.Sound)
    (shows_ : machine.Shows state) (step : machine.step body outside (.inl (id,.unlock)) = some next) :
    next.Sound ∧ next.Shows state := by
  have disciplined := sound.disciplined_next step
  obtain ⟨moved,shared,finished,processor,locked,translated,performed,made⟩ := step_inl step
  cases task : (machine.threads.processors id).running.task with
  | returning answer =>
    simp only [translate,task,Option.some.injEq,Prod.mk.injEq] at translated
    obtain ⟨rfl,rfl,rfl⟩ := translated
    simp only [Processor.perform,Option.ite_none_right_eq_some,Option.some.injEq,Prod.mk.injEq] at performed
    obtain ⟨_,rfl,rfl⟩ := performed
    rw [List.map_nil,List.append_nil] at made
    refine sound.quiet shows_ disciplined made rfl (.of_body ?_) (fun answer returning => returning)
    simp [task,CallStage.body]
  | idle | calling call | running call point => simp [translate,task] at translated

theorem Sound.leave {state : Exclusive.State (Id × Nat) Call Place Shared Answer} (sound : machine.Sound)
    (shows_ : machine.Shows state) (step : machine.step body outside (.inl (id,.leave)) = some next) :
    next.Sound ∧ next.Shows state := by
  have disciplined := sound.disciplined_next step
  obtain ⟨moved,shared,finished,processor,locked,translated,performed,made⟩ := step_inl step
  cases task : (machine.threads.processors id).running.task with
  | returning answer =>
    simp only [translate,task,Option.ite_none_right_eq_some,Option.some.injEq,Prod.mk.injEq] at translated
    obtain ⟨_,rfl,rfl,rfl⟩ := translated
    simp only [Processor.perform,Option.ite_none_right_eq_some,Option.some.injEq,Prod.mk.injEq] at performed
    obtain ⟨_,rfl,rfl⟩ := performed
    rw [List.map_nil,List.append_nil] at made
    exact sound.quiet shows_ disciplined made (by rw [task]; rfl) (.of_body rfl) (by simp)
  | idle | calling call | running call point => simp [translate,task] at translated

theorem Sound.changeFlag {state : Exclusive.State (Id × Nat) Call Place Shared Answer} {interrupts : Bool}
    (sound : machine.Sound) (shows_ : machine.Shows state)
    (step : machine.step body outside (.inl (id,.changeFlag interrupts)) = some next) : next.Sound ∧ next.Shows state := by
  have disciplined := sound.disciplined_next step
  obtain ⟨moved,shared,finished,processor,locked,translated,performed,made⟩ := step_inl step
  cases task : (machine.threads.processors id).running.task with
  | idle =>
    simp only [translate,task,Option.some.injEq,Prod.mk.injEq] at translated
    obtain ⟨rfl,rfl,rfl⟩ := translated
    simp only [Processor.perform,Option.ite_none_right_eq_some,Option.some.injEq,Prod.mk.injEq] at performed
    obtain ⟨_,rfl,rfl⟩ := performed
    rw [List.map_nil,List.append_nil] at made
    refine sound.quiet shows_ disciplined made rfl (.of_body ?_) (fun answer returning => returning)
    simp [task,CallStage.body]
  | calling call | running call point | returning answer => simp [translate,task] at translated

/-- The rest of a step of a body: the running context changes its task alone. -/
theorem step_work {event : CallEvent Call} {task : CallStage Call Place Answer} {shared : Shared} {finished : List (Call × Answer)}
    (translated : translate body machine.shared (machine.threads.processors id).running event = some (.work task,shared,finished))
    (step : machine.step body outside (.inl (id,event)) = some next) :
    (machine.threads.processors id).running.phase = .code ∧
      next = ⟨⟨machine.threads.locked,Function.update machine.threads.processors id
        { machine.threads.processors id with running := { (machine.threads.processors id).running with task := task } }⟩,
          shared,machine.history ++ finished.map fun entry => (machine.threads.top id,entry)⟩ := by
  obtain ⟨moved,_,_,processor,locked,same,performed,made⟩ := step_inl step
  rw [translated,Option.some.injEq,Prod.mk.injEq,Prod.mk.injEq] at same
  obtain ⟨rfl,rfl,rfl⟩ := same
  simp only [Processor.perform,Option.ite_none_right_eq_some,Option.some.injEq,Prod.mk.injEq] at performed
  obtain ⟨code,rfl,rfl⟩ := performed
  exact ⟨code,made⟩

theorem Sound.enter {state : Exclusive.State (Id × Nat) Call Place Shared Answer} {environment : Shared → Shared → Prop}
    (sound : machine.Sound) (shows_ : machine.Shows state) (step : machine.step body outside (.inl (id,.enter)) = some next) :
    next.Sound ∧ ∃ after, next.Shows after ∧ Exclusive.Step body environment state after := by
  have disciplined := sound.disciplined_next step
  cases task : (machine.threads.processors id).running.task with
  | calling call =>
    by_cases free : (machine.threads.processors id).running.sections = []
    · obtain ⟨_,_,_,_,_,translated,_⟩ := step_inl step
      simp [translate,task,free] at translated
    · have works : translate body machine.shared (machine.threads.processors id).running .enter =
          some (.work (.running call (body.start call)),machine.shared,[]) := by simp [translate,task,free]
      obtain ⟨code,made⟩ := step_work works step
      obtain ⟨sound',shows'⟩ := sound.body_step disciplined made code free (by simp)
      refine ⟨sound',_,shows',.enter (machine.threads.top id) call ?_ ?_⟩
      · -- no other body runs, and the caller's own has not begun
        cases current : state.current with
        | none => rfl
        | some found =>
          have runs := (shows_.current found.1 found.2).mpr current
          by_cases same : found.1 = machine.threads.top id
          · rw [same,inside_top,task] at runs
            cases runs
          · rw [sound.others_outside free same] at runs
            cases runs
      · rw [made]
        simp [CallStage.body,shows_.shared,shows_.history]
  | idle | running call point | returning answer =>
    obtain ⟨_,_,_,_,_,translated,_⟩ := step_inl step
    simp [translate,task] at translated

theorem Sound.advance {state : Exclusive.State (Id × Nat) Call Place Shared Answer} {environment : Shared → Shared → Prop}
    (sound : machine.Sound) (shows_ : machine.Shows state) (step : machine.step body outside (.inl (id,.advance)) = some next) :
    next.Sound ∧ ∃ after, next.Shows after ∧ Exclusive.Step body environment state after := by
  have disciplined := sound.disciplined_next step
  cases task : (machine.threads.processors id).running.task with
  | running call point =>
    obtain ⟨_,_,_,_,_,translated,_⟩ := step_inl step
    simp only [translate,task,Option.map_eq_some_iff,Prod.exists,Prod.mk.injEq] at translated
    obtain ⟨after,shared,moved,_⟩ := translated
    have works : translate body machine.shared (machine.threads.processors id).running .advance =
        some (.work (.running call after),shared,[]) := by simp [translate,task,moved]
    obtain ⟨code,made⟩ := step_work works step
    have holds := (sound.within _ _ (machine.threads.contextAt_top id) call point task).1
    obtain ⟨sound',shows'⟩ := sound.body_step disciplined made code holds (by simp)
    refine ⟨sound',_,shows',.advance (machine.threads.top id) call point after shared (shows_.current_top task) ?_ ?_⟩
    · rw [shows_.shared]
      exact moved
    · rw [made]
      simp [CallStage.body,shows_.history]
  | idle | calling call | returning answer =>
    obtain ⟨_,_,_,_,_,translated,_⟩ := step_inl step
    simp [translate,task] at translated

theorem Sound.finish {state : Exclusive.State (Id × Nat) Call Place Shared Answer} {environment : Shared → Shared → Prop}
    (sound : machine.Sound) (shows_ : machine.Shows state) (step : machine.step body outside (.inl (id,.finish)) = some next) :
    next.Sound ∧ ∃ after, next.Shows after ∧ Exclusive.Step body environment state after := by
  have disciplined := sound.disciplined_next step
  cases task : (machine.threads.processors id).running.task with
  | running call point =>
    obtain ⟨_,_,_,_,_,translated,_⟩ := step_inl step
    simp only [translate,task,Option.map_eq_some_iff] at translated
    obtain ⟨answer,done,_⟩ := translated
    have works : translate body machine.shared (machine.threads.processors id).running .finish =
        some (.work (.returning answer),machine.shared,[(call,answer)]) := by simp [translate,task,done]
    obtain ⟨code,made⟩ := step_work works step
    have holds := (sound.within _ _ (machine.threads.contextAt_top id) call point task).1
    obtain ⟨sound',shows'⟩ := sound.body_step disciplined made code holds (by simp)
    refine ⟨sound',_,shows',.finish (machine.threads.top id) call point answer (shows_.current_top task) done ?_⟩
    rw [made]
    simp [CallStage.body,shows_.shared,shows_.history]
  | idle | calling call | returning answer =>
    obtain ⟨_,_,_,_,_,translated,_⟩ := step_inl step
    simp [translate,task] at translated

/-- Every step of the machine is a step of the bodies, which run one at a time. -/
theorem Sound.simulates {state : Exclusive.State (Id × Nat) Call Place Shared Answer} {label : (Id × CallEvent Call) ⊕ Outside}
    (sound : machine.Sound) (shows_ : machine.Shows state) (step : machine.step body outside label = some next) :
    next.Sound ∧ ∃ after, next.Shows after ∧
      Exclusive.Step body (fun shared shared' => ∃ change, outside shared change = some shared') state after := by
  have keep (both : next.Sound ∧ next.Shows state) : next.Sound ∧ ∃ after, next.Shows after ∧
      Exclusive.Step body (fun shared shared' => ∃ change, outside shared change = some shared') state after :=
    ⟨both.1,state,both.2,.keep rfl⟩
  cases label with
  | inr change =>
    simp only [CallMachine.step,Option.map_eq_some_iff] at step
    obtain ⟨shared,changed,rfl⟩ := step
    refine ⟨⟨sound.disciplined,sound.within,sound.answered⟩,{ state with shared := shared },?_,?_⟩
    · exact ⟨shows_.current,rfl,shows_.history⟩
    · exact .environment shared ⟨change,shows_.shared ▸ changed⟩ rfl
  | inl label =>
    obtain ⟨id,event⟩ := label
    cases event with
    | call call => exact keep (sound.call shows_ step)
    | lock => exact keep (sound.lock shows_ step)
    | enter => exact sound.enter shows_ step
    | advance => exact sound.advance shows_ step
    | finish => exact sound.finish shows_ step
    | unlock => exact keep (sound.unlock shows_ step)
    | leave => exact keep (sound.leave shows_ step)
    | proceed => exact keep (sound.proceed shows_ step)
    | changeFlag interrupts => exact keep (sound.changeFlag shows_ step)
    | interrupt => exact keep (sound.interrupt shows_ step)
    | resume => exact keep (sound.resume shows_ step)

/-- What single bodies keep holds in every state of every run, with at most one body
that runs. -/
theorem run_satisfies {property : List ((Id × Nat) × Call × Answer) → Option (Call × Place) → Shared → Prop}
    (kept : Exclusive.Kept body (fun shared shared' => ∃ change, outside shared change = some shared') property)
    (start : property [] none machine.shared) (initial : machine.Initial) {trace : List ((Id × CallEvent Call) ⊕ Outside)}
    (ran : Transition.run (CallMachine.step body outside) machine trace = some final) :
    final.Sound ∧ ∃ state, final.Shows state ∧ state.Satisfies property := by
  have invariant := Transition.run_invariant (CallMachine.step body outside)
    (fun reached => reached.Sound ∧ ∃ state, reached.Shows state ∧ state.Satisfies property) ?_
    ⟨initial.sound,_,initial.shows,start⟩ ran
  · exact invariant
  · rintro reached label next ⟨sound,state,shows_,holds⟩ step
    obtain ⟨sound',after,shows',moved⟩ := sound.simulates shows_ step
    exact ⟨sound',after,shows',kept.step holds moved⟩

/-- The machine after a step that changes the task of the running context and the shared
state. -/
def withTask (machine : CallMachine Id Call Place Shared Answer) (id : Id) (task : CallStage Call Place Answer)
    (shared : Shared) : CallMachine Id Call Place Shared Answer :=
  ⟨⟨machine.threads.locked,Function.update machine.threads.processors id
    { machine.threads.processors id with running := { (machine.threads.processors id).running with task := task } }⟩,
    shared,machine.history⟩

@[simp] theorem withTask_running (machine : CallMachine Id Call Place Shared Answer) (id : Id)
    (task : CallStage Call Place Answer) (shared : Shared) : ((machine.withTask id task shared).threads.processors id).running =
      { (machine.threads.processors id).running with task := task } := by
  simp [withTask]

@[simp] theorem withTask_top (machine : CallMachine Id Call Place Shared Answer) (id : Id)
    (task : CallStage Call Place Answer) (shared : Shared) :
    (machine.withTask id task shared).threads.top id = machine.threads.top id := by
  simp [withTask,Machine.top]

/-- The steps of a body that runs are never disabled by the other contexts. -/
theorem step_advance {call : Call} {point after : Place} {shared : Shared}
    (code : (machine.threads.processors id).running.phase = .code)
    (task : (machine.threads.processors id).running.task = .running call point)
    (moved : body.advance point machine.shared = some (after,shared)) :
    CallMachine.step body outside machine (.inl (id,.advance)) = some (machine.withTask id (.running call after) shared) := by
  simp [CallMachine.step,translate,task,moved,Machine.step,Processor.perform,code,withTask]

theorem step_finish {call : Call} {point : Place} {answer : Answer}
    (code : (machine.threads.processors id).running.phase = .code)
    (task : (machine.threads.processors id).running.task = .running call point) (done : body.answer point = some answer) :
    CallMachine.step body outside machine (.inl (id,.finish)) =
      some { machine.withTask id (.returning answer) machine.shared with
        history := machine.history ++ [(machine.threads.top id,call,answer)] } := by
  simp [CallMachine.step,translate,task,done,Machine.step,Processor.perform,code,withTask]

theorem run_iterate (outside : Shared → Outside → Option Shared) {call : Call} {point last : Place} {count : Nat} {shared : Shared}
    (code : (machine.threads.processors id).running.phase = .code)
    (task : (machine.threads.processors id).running.task = .running call point)
    (iterates : body.iterate count point machine.shared = some (last,shared)) :
    ∃ reached, Transition.run (CallMachine.step body outside) machine (List.replicate count (.inl (id,.advance))) = some reached ∧
      reached.shared = shared ∧ reached.history = machine.history ∧ reached.threads.top id = machine.threads.top id ∧
        (reached.threads.processors id).running.phase = .code ∧
          (reached.threads.processors id).running.task = .running call last := by
  induction count generalizing machine point with
  | zero =>
    rw [Exclusive.Body.iterate,Option.some.injEq,Prod.mk.injEq] at iterates
    obtain ⟨rfl,rfl⟩ := iterates
    exact ⟨machine,rfl,rfl,rfl,rfl,code,task⟩
  | succ count ih =>
    rw [Exclusive.Body.iterate,Option.bind_eq_some_iff] at iterates
    obtain ⟨⟨after,next⟩,moved,iterates⟩ := iterates
    have code' : ((machine.withTask id (.running call after) next).threads.processors id).running.phase = .code := by simp [code]
    obtain ⟨reached,ran,same,history,top,ends⟩ := ih code' (by simp) iterates
    refine ⟨reached,?_,same,history,top.trans (withTask_top _ _ _ _),ends⟩
    rw [List.replicate_succ,Transition.run,step_advance code task moved,Option.bind_some]
    exact ran

variable {Outcome : Type} {sequential : Call → Shared → Outcome} {returns : Answer → Shared → Outcome}

/-- When nothing else changes the shared state, the finished calls are a sequential run
in the order of the history. The state is what they leave or, while a body runs, one
from which this body does what its call does after them. -/
theorem run_linear (agrees : Exclusive.Agrees body sequential returns) (closed : ∀ shared change, outside shared change = none)
    (initial : machine.Initial) {trace : List ((Id × CallEvent Call) ⊕ Outside)}
    (ran : Transition.run (CallMachine.step body outside) machine trace = some final) :
    final.Sound ∧ ∃ before, Exclusive.Replays sequential returns machine.shared final.history before ∧
      ((∀ place, final.inside place = none) → final.shared = before) ∧
        ∀ place call point, final.inside place = some (call,point) → agrees.rest point final.shared = sequential call before := by
  have kept : Exclusive.Kept body (fun shared shared' => ∃ change, outside shared change = some shared')
      (Exclusive.Linear agrees machine.shared : List ((Id × Nat) × Call × Answer) → Option (Call × Place) → Shared → Prop) := by
    refine ⟨(agrees.linear_kept machine.shared).enter,(agrees.linear_kept machine.shared).advance,
      (agrees.linear_kept machine.shared).finish,?_⟩
    rintro history current shared next _ ⟨change,changed⟩
    rw [closed] at changed
    cases changed
  obtain ⟨sound,state,shows_,before,replays,current⟩ := run_satisfies kept ⟨machine.shared,rfl,rfl⟩ initial ran
  rw [shows_.history] at replays
  refine ⟨sound,before,replays,?_,?_⟩
  · intro outside_
    cases found : state.current with
    | none =>
      rw [found] at current
      exact shows_.shared.symm.trans current
    | some body =>
      have runs := (shows_.current body.1 body.2).mpr found
      rw [outside_] at runs
      cases runs
  · intro place call point runs
    rw [shows_.current] at runs
    rw [runs] at current
    rw [← shows_.shared]
    exact current

/-- A body whose call returns comes to its end by its own steps, whatever the other
contexts are doing. -/
theorem Sound.completes (sound : machine.Sound) (agrees : Exclusive.Agrees body sequential returns)
    (single : ∀ answer shared other next, returns answer shared = returns other next → answer = other ∧ shared = next)
    {call : Call} {point : Place} {place : Id × Nat} (runs : machine.inside place = some (call,point)) {answer : Answer}
    {shared : Shared} (rest : agrees.rest point machine.shared = returns answer shared) :
    ∃ count reached, Transition.run (CallMachine.step body outside) machine
        (List.replicate count (.inl (place.1,.advance)) ++ [.inl (place.1,.finish)]) = some reached ∧
      reached.shared = shared ∧ reached.history = machine.history ++ [(place,call,answer)] := by
  obtain ⟨atTop,code,task⟩ := sound.running_body runs
  obtain ⟨count,last,iterates,answered⟩ := agrees.completes single rest
  obtain ⟨middle,ran,same,history,top,code,task⟩ := run_iterate outside code task iterates
  refine ⟨count,{ middle.withTask place.1 (.returning answer) middle.shared with
    history := middle.history ++ [(middle.threads.top place.1,call,answer)] },?_,same,by rw [history,top,← atTop]⟩
  rw [Transition.run_append,ran,Option.bind_some,Transition.run,step_finish code task answered,Option.bind_some,Transition.run]

end CallMachine

end BorealOS.Threading
