import BorealOS.Library.Switch
import BorealOS.Firmware.CommandMachine

/-! When the calls of `WriteByteCommand` keep apart. The machine moves as callers of a
device that is switched on, and callers enter as soon as they have given the lock
back. The lock itself keeps nothing apart behind its statement. -/
namespace BorealOS.Firmware.ACPI

open Threading Switch

/-- What the device sees of a context. A call is outside until its lock is given back. -/
def statusOf (context : Context Unit Stage) : Status :=
  match context.task with
  | .idle => .outside
  | .locking _ => .outside
  | .unlocking _ => if context.sections = [] then .entered else .outside
  | .writing _ => .writing
  | .polling => .polling
  | .returning => .returning

/-- A context with a temporary to destroy asks for no lock. -/
def Consistent (context : Context Unit Stage) : Prop :=
  ∀ command, context.task = .unlocking command →
    match context.phase with
    | .code | .store | .setFlag .. | .leave .. => True
    | _ => False

theorem Consistent.of_code {context : Context Unit Stage} (code : context.phase = .code) : Consistent context := by
  intro _ _
  simp [code]

theorem Consistent.of_task {context : Context Unit Stage} (other : ∀ command, context.task ≠ .unlocking command) :
    Consistent context := fun command task => absurd task (other command)

/-- A step of `Lock` or `Unlock` leaves the status as it is, and only the store that gives
the lock back lets a call enter. -/
theorem Consistent.proceed {context next : Context Unit Stage} {locked after : Unit → Bool} (consistent : Consistent context)
    (moved : context.proceed true locked = some (next,after)) : Consistent next ∧
      (statusOf next = statusOf context ∨
        (context.phase = .store ∧ statusOf context = .outside ∧ statusOf next = .entered)) := by
  obtain ⟨interrupts,sections,phase,task⟩ := context
  cases phase with
  | code => cases moved
  | readFlag lock before =>
    cases moved
    exact ⟨fun command same => consistent command same,Or.inl rfl⟩
  | clearFlag lock had before =>
    cases moved
    exact ⟨fun command same => consistent command same,Or.inl rfl⟩
  | load lock had before =>
    cases moved
    exact ⟨fun command same => (consistent command same).elim,Or.inl rfl⟩
  | compareExchange lock had before =>
    have other : ∀ command, task ≠ .unlocking command := fun command same => consistent command same
    simp only [Context.proceed] at moved
    split at moved
    · cases moved
      exact ⟨.of_task other,Or.inl rfl⟩
    · cases moved
      refine ⟨.of_task other,Or.inl ?_⟩
      cases task with
      | unlocking command => exact absurd rfl (other command)
      | _ => rfl
  | store =>
    cases sections with
    | nil => cases moved
    | cons innermost outer =>
      cases moved
      refine ⟨fun _ _ => trivial,?_⟩
      cases task with
      | unlocking command =>
        by_cases last : outer = []
        · exact Or.inr ⟨rfl,rfl,by simp [statusOf,last]⟩
        · exact Or.inl (by simp [statusOf,last])
      | _ => exact Or.inl rfl
  | setFlag reenableInterrupts before =>
    cases moved
    exact ⟨fun _ _ => trivial,Or.inl rfl⟩
  | leave before =>
    cases moved
    exact ⟨fun _ _ => trivial,Or.inl rfl⟩

section Accesses
variable {enabled : Bool} {context : Context Unit Stage} {performed : Threading.Event Unit Stage}

theorem translate_test (translated : translate enabled context .test = some performed) : ∃ command,
    context.task = .unlocking command ∧ context.sections = [] ∧
      performed = .work (if enabled then .returning else .writing command) := by
  simp only [translate] at translated
  split at translated
  · rename_i command task
    simp only [Option.ite_none_right_eq_some,Option.some.injEq] at translated
    exact ⟨command,task,translated.1,translated.2.symm⟩
  · cases translated

theorem translate_write (translated : translate enabled context .write = some performed) : ∃ command,
    context.task = .writing command ∧ performed = .work .polling := by
  simp only [translate] at translated
  split at translated
  · rename_i command task
    exact ⟨command,task,(Option.some.inj translated).symm⟩
  · cases translated

theorem translate_poll (translated : translate enabled context .poll = some performed) :
    context.task = .polling ∧ performed = .work (if enabled then .returning else .polling) := by
  simp only [translate] at translated
  split at translated
  · rename_i task
    exact ⟨task,(Option.some.inj translated).symm⟩
  · cases translated

theorem statusOf_unlocked {command : UInt8} (task : context.task = .unlocking command) (released : context.sections = []) :
    statusOf context = .entered := by
  rw [statusOf,task]
  exact if_pos released

end Accesses

namespace CommandMachine
variable {Id : Type}

def view (machine : CommandMachine Id) : Switch.State (Id × Nat) UInt8 :=
  ⟨fun place => (machine.threads.contextAt place).elim .outside statusOf,machine.enabled,machine.commands⟩

structure Sound (machine : CommandMachine Id) : Prop where
  consistent : ∀ place context, machine.threads.contextAt place = some context → Consistent context
  view : Switch.Sound machine.view

/-- The step gives the lock back only where no call is between its own and its return. -/
def Alone (machine : CommandMachine Id) (label : CommandLabel Id) : Prop :=
  ∀ id, label = .take id .proceed → (machine.threads.processors id).running.phase = .store →
    ∀ other, ∀ context ∈ (machine.threads.processors other).contexts, statusOf context = .outside

theorem view_top (machine : CommandMachine Id) (id : Id) :
    machine.view.status (machine.threads.top id) = statusOf (machine.threads.processors id).running := by
  simp [view,Machine.contextAt_top]

theorem view_read (machine : CommandMachine Id) (context : Context Unit Stage) (task : Stage) :
    statusOf { context with task := if machine.enabled then .returning else task } =
      machine.view.read (statusOf { context with task := task }) := by
  change _ = if machine.enabled then _ else _
  cases machine.enabled <;> rfl

theorem outside_of_contexts {machine : CommandMachine Id}
    (outside : ∀ id, ∀ context ∈ (machine.threads.processors id).contexts, statusOf context = .outside) (place : Id × Nat) :
    machine.view.status place = .outside := by
  cases here : machine.threads.contextAt place with
  | none => simp [view,here]
  | some context =>
    by_contra inside
    have found := (machine.threads.exists_context_iff fun context => statusOf context ≠ .outside).mp
      ⟨place,context,here,by simpa [view,here] using inside⟩
    obtain ⟨id,context,member,apart⟩ := found
    exact apart (outside id context member)

theorem Sound.running {machine : CommandMachine Id} (sound : machine.Sound) (id : Id) :
    Consistent (machine.threads.processors id).running :=
  sound.consistent _ _ (machine.threads.contextAt_top id)

variable [DecidableEq Id] {machine next : CommandMachine Id} {id : Id} {event : CommandEvent}

theorem step_take (moved : machine.step (.take id event) = some next) : ∃ performed processor locked,
    translate machine.enabled (machine.threads.processors id).running event = some performed ∧
      (machine.threads.processors id).perform true machine.threads.locked performed = some (processor,locked) ∧
        next.threads = ⟨locked,Function.update machine.threads.processors id processor⟩ ∧ next.enabled = machine.enabled ∧
          next.commands = machine.commands ++ written (machine.threads.processors id).running event := by
  simp only [step,Machine.step,Option.bind_eq_bind,Option.bind_eq_some_iff,Option.map_eq_some_iff,Prod.exists] at moved
  obtain ⟨performed,translated,threads,⟨processor,locked,ran,rfl⟩,made⟩ := moved
  rw [Option.pure_def,Option.some.injEq] at made
  subst made
  exact ⟨performed,processor,locked,translated,ran,rfl,rfl,rfl⟩

theorem Sound.update {place : Id × Nat} {after : Option (Context Unit Stage)} (sound : machine.Sound)
    (contexts : next.threads.contextAt = Function.update machine.threads.contextAt place after)
    (consistent : ∀ context, after = some context → Consistent context)
    (move : next.view.status = Function.update machine.view.status place (after.elim .outside statusOf) →
      Move machine.view next.view) : next.Sound := by
  refine ⟨Machine.forall_context_update contexts sound.consistent consistent,sound.view.move (move ?_)⟩
  simp only [CommandMachine.view]
  rw [contexts]
  exact Function.comp_update (fun context : Option (Context Unit Stage) => context.elim .outside statusOf) _ place after

theorem Sound.keep {place : Id × Nat} {after : Option (Context Unit Stage)} (sound : machine.Sound)
    (contexts : next.threads.contextAt = Function.update machine.threads.contextAt place after)
    (consistent : ∀ context, after = some context → Consistent context)
    (same : after.elim .outside statusOf = machine.view.status place) (enabled : next.enabled = machine.enabled)
    (commands : next.commands = machine.commands) : next.Sound := by
  refine sound.update contexts consistent fun status => .keep ?_ enabled commands
  rw [status,same,Function.update_eq_self]

theorem Sound.run_keep {context : Context Unit Stage} {locked : Unit → Bool} (sound : machine.Sound)
    (threads : next.threads =
      ⟨locked,Function.update machine.threads.processors id { machine.threads.processors id with running := context }⟩)
    (consistent : Consistent context) (same : statusOf context = statusOf (machine.threads.processors id).running)
    (enabled : next.enabled = machine.enabled) (commands : next.commands = machine.commands) : next.Sound := by
  have contexts := congrArg Machine.contextAt threads
  rw [Machine.contextAt_run] at contexts
  refine sound.keep contexts ?_ (same.trans (view_top machine id).symm) enabled commands
  rintro other ⟨⟩
  exact consistent

theorem Sound.work {task : Stage} (sound : machine.Sound) (moved : machine.step (.take id event) = some next)
    (translated : translate machine.enabled (machine.threads.processors id).running event = some (.work task))
    (move : next.view.status = Function.update machine.view.status (machine.threads.top id)
        (statusOf { (machine.threads.processors id).running with task := task }) →
      next.enabled = machine.enabled →
      next.commands = machine.commands ++ written (machine.threads.processors id).running event →
      Move machine.view next.view) : next.Sound := by
  obtain ⟨performed,processor,locked,again,ran,threads,enabled,commands⟩ := step_take moved
  rw [translated,Option.some.injEq] at again
  subst again
  simp only [Processor.perform,Option.ite_none_right_eq_some,Option.some.injEq,Prod.mk.injEq] at ran
  obtain ⟨code,rfl,rfl⟩ := ran
  have contexts := congrArg Machine.contextAt threads
  rw [Machine.contextAt_run] at contexts
  refine sound.update contexts ?_ fun status => move status enabled commands
  rintro context ⟨⟩
  exact .of_code code

theorem Sound.call {command : UInt8} (sound : machine.Sound) (moved : machine.step (.take id (.call command)) = some next) :
    next.Sound := by
  obtain ⟨performed,_,_,translated,_,_,_,_⟩ := step_take moved
  have idle := translated
  simp only [translate,Option.ite_none_right_eq_some,Option.some.injEq] at idle
  obtain ⟨idle,rfl⟩ := idle
  refine sound.work moved translated fun status enabled commands => .keep ?_ enabled (commands.trans (List.append_nil _))
  rw [status]
  apply Function.update_eq_self_iff.mpr
  rw [view_top,statusOf,statusOf,idle]

theorem Sound.constructed (sound : machine.Sound) (moved : machine.step (.take id .constructed) = some next) : next.Sound := by
  obtain ⟨performed,_,_,translated,_,_,_,_⟩ := step_take moved
  have made := translated
  simp only [translate] at made
  split at made
  · rename_i command task
    simp only [Option.ite_none_right_eq_some,Option.some.injEq] at made
    obtain ⟨taken,rfl⟩ := made
    refine sound.work moved translated fun status enabled commands => .keep ?_ enabled (commands.trans (List.append_nil _))
    rw [status]
    apply Function.update_eq_self_iff.mpr
    rw [view_top,statusOf,statusOf,task]
    exact if_neg taken
  · cases made

theorem Sound.test (sound : machine.Sound) (moved : machine.step (.take id .test) = some next) : next.Sound := by
  obtain ⟨performed,_,_,translated,_,_,_,_⟩ := step_take moved
  obtain ⟨command,task,released,rfl⟩ := translate_test translated
  have entered : machine.view.status (machine.threads.top id) = .entered := by rw [view_top,statusOf_unlocked task released]
  refine sound.work moved translated fun status enabled commands =>
    .test (machine.threads.top id) entered ?_ enabled (commands.trans (List.append_nil _))
  rw [status,view_read]
  rfl

theorem Sound.write (sound : machine.Sound) (moved : machine.step (.take id .write) = some next) : next.Sound := by
  obtain ⟨performed,_,_,translated,_,_,_,_⟩ := step_take moved
  obtain ⟨command,task,rfl⟩ := translate_write translated
  have writing : machine.view.status (machine.threads.top id) = .writing := by rw [view_top,statusOf,task]
  refine sound.work moved translated fun status enabled commands =>
    .write (machine.threads.top id) command writing status enabled (commands.trans ?_)
  rw [written,task]
  rfl

theorem Sound.poll (sound : machine.Sound) (moved : machine.step (.take id .poll) = some next) : next.Sound := by
  obtain ⟨performed,_,_,translated,_,_,_,_⟩ := step_take moved
  obtain ⟨task,rfl⟩ := translate_poll translated
  have polling : machine.view.status (machine.threads.top id) = .polling := by rw [view_top,statusOf,task]
  refine sound.work moved translated fun status enabled commands =>
    .poll (machine.threads.top id) polling ?_ enabled (commands.trans (List.append_nil _))
  rw [status,view_read]
  rfl

theorem Sound.leave (sound : machine.Sound) (moved : machine.step (.take id .leave) = some next) : next.Sound := by
  obtain ⟨performed,_,_,translated,_,_,_,_⟩ := step_take moved
  have made := translated
  simp only [translate] at made
  split at made
  · rename_i task
    rw [Option.some.injEq] at made
    subst made
    have returning : machine.view.status (machine.threads.top id) = .returning := by rw [view_top,statusOf,task]
    exact sound.work moved translated fun status enabled commands =>
      .leave (machine.threads.top id) returning status enabled (commands.trans (List.append_nil _))
  · cases made

theorem Sound.lock (sound : machine.Sound) (moved : machine.step (.take id .lock) = some next) : next.Sound := by
  obtain ⟨performed,processor,locked,translated,ran,threads,enabled,commands⟩ := step_take moved
  simp only [translate] at translated
  split at translated
  · rename_i command task
    simp only [Option.ite_none_right_eq_some,Option.some.injEq] at translated
    obtain ⟨_,rfl⟩ := translated
    simp only [Processor.perform,Option.ite_none_right_eq_some,Option.some.injEq,Prod.mk.injEq] at ran
    obtain ⟨_,rfl,rfl⟩ := ran
    exact sound.run_keep threads (.of_task (by simp [task])) rfl enabled (commands.trans (List.append_nil _))
  · cases translated

theorem Sound.destroy (sound : machine.Sound) (moved : machine.step (.take id .destroy) = some next) : next.Sound := by
  obtain ⟨performed,processor,locked,translated,ran,threads,enabled,commands⟩ := step_take moved
  simp only [translate] at translated
  split at translated
  · rw [Option.some.injEq] at translated
    subst translated
    simp only [Processor.perform,Option.ite_none_right_eq_some,Option.some.injEq,Prod.mk.injEq] at ran
    obtain ⟨_,rfl,rfl⟩ := ran
    exact sound.run_keep threads (fun _ _ => trivial) rfl enabled (commands.trans (List.append_nil _))
  · cases translated

theorem Sound.proceed (sound : machine.Sound) (alone : machine.Alone (.take id .proceed))
    (moved : machine.step (.take id .proceed) = some next) : next.Sound := by
  obtain ⟨performed,processor,locked,translated,ran,threads,enabled,commands⟩ := step_take moved
  simp only [translate,Option.some.injEq] at translated
  subst translated
  simp only [Processor.perform,Option.map_eq_some_iff,Prod.mk.injEq,Prod.exists] at ran
  obtain ⟨context,marks,went,rfl,rfl⟩ := ran
  obtain ⟨consistent,kept | ⟨store,_,entered⟩⟩ := (sound.running id).proceed went
  · exact sound.run_keep threads consistent kept enabled (commands.trans (List.append_nil _))
  · have contexts := congrArg Machine.contextAt threads
    rw [Machine.contextAt_run] at contexts
    refine sound.update contexts ?_ fun status =>
      .enter (machine.threads.top id) (outside_of_contexts (alone id rfl store)) ?_ enabled (commands.trans (List.append_nil _))
    · rintro other ⟨⟩
      exact consistent
    · rw [status]
      exact congrArg _ entered

theorem Sound.changeFlag {interrupts : Bool} (sound : machine.Sound)
    (moved : machine.step (.take id (.changeFlag interrupts)) = some next) : next.Sound := by
  obtain ⟨performed,processor,locked,translated,ran,threads,enabled,commands⟩ := step_take moved
  simp only [translate,Option.ite_none_right_eq_some,Option.some.injEq] at translated
  obtain ⟨idle,rfl⟩ := translated
  simp only [Processor.perform,Option.ite_none_right_eq_some,Option.some.injEq,Prod.mk.injEq] at ran
  obtain ⟨_,rfl,rfl⟩ := ran
  exact sound.run_keep threads (.of_task (by simp [idle])) rfl enabled (commands.trans (List.append_nil _))

theorem Sound.interrupt (sound : machine.Sound) (moved : machine.step (.take id .interrupt) = some next) : next.Sound := by
  obtain ⟨performed,processor,locked,translated,ran,threads,enabled,commands⟩ := step_take moved
  simp only [translate,Option.some.injEq] at translated
  subst translated
  simp only [Processor.perform,Option.ite_none_right_eq_some,Option.some.injEq,Prod.mk.injEq] at ran
  obtain ⟨_,rfl,rfl⟩ := ran
  have contexts := congrArg Machine.contextAt threads
  rw [Machine.contextAt_interrupt] at contexts
  refine sound.keep contexts ?_ ?_ enabled (commands.trans (List.append_nil _))
  · rintro context ⟨⟩
    exact .of_code rfl
  · simp only [CommandMachine.view,Machine.contextAt_above]
    rfl

theorem Sound.resume (sound : machine.Sound) (moved : machine.step (.take id .resume) = some next) : next.Sound := by
  obtain ⟨performed,processor,locked,translated,ran,threads,enabled,commands⟩ := step_take moved
  simp only [translate,Option.ite_none_right_eq_some,Option.some.injEq] at translated
  obtain ⟨idle,rfl⟩ := translated
  obtain ⟨context,deeper,stack,_,rfl,rfl⟩ := Processor.perform_resume ran
  have contexts := congrArg Machine.contextAt threads
  rw [Machine.contextAt_resume stack] at contexts
  refine sound.keep contexts ?_ ?_ enabled (commands.trans (List.append_nil _))
  · intro _ absent
    cases absent
  · rw [view_top,statusOf,idle]
    rfl

theorem Sound.step {label : CommandLabel Id} (sound : machine.Sound) (alone : machine.Alone label)
    (moved : machine.step label = some next) : next.Sound := by
  cases label with
  | enable =>
    simp only [CommandMachine.step,Option.ite_none_right_eq_some,Option.some.injEq] at moved
    obtain ⟨sent,rfl⟩ := moved
    exact ⟨sound.consistent,sound.view.move (.switch sent rfl rfl rfl)⟩
  | take id event =>
    cases event with
    | call command => exact sound.call moved
    | lock => exact sound.lock moved
    | constructed => exact sound.constructed moved
    | destroy => exact sound.destroy moved
    | test => exact sound.test moved
    | write => exact sound.write moved
    | poll => exact sound.poll moved
    | leave => exact sound.leave moved
    | proceed => exact sound.proceed alone moved
    | changeFlag interrupts => exact sound.changeFlag moved
    | interrupt => exact sound.interrupt moved
    | resume => exact sound.resume moved

theorem Initial.sound {Id : Type} {machine : CommandMachine Id} (initial : machine.Initial) : machine.Sound := by
  have idle : ∀ place context, machine.threads.contextAt place = some context → context.task = .idle := by
    intro place context here
    rw [initial.threads.contextAt here,initial.idle]
  refine ⟨?_,sound_start ?_ initial.commands⟩
  · intro place context here
    exact .of_task (by simp [idle place context here])
  · intro place
    cases here : machine.threads.contextAt place with
    | none => simp [view,here]
    | some context => simp [view,here,statusOf,idle place context here]

end CommandMachine

def Active (context : Context Unit Stage) : Prop :=
  match context.task with
  | .writing _ | .polling | .returning => True
  | _ => False

theorem Active.not_outside {context : Context Unit Stage} (active : Active context) : statusOf context ≠ .outside := by
  obtain ⟨interrupts,sections,phase,task⟩ := context
  cases task with
  | idle => exact active.elim
  | locking command => exact active.elim
  | unlocking command => exact active.elim
  | writing command => nofun
  | polling => nofun
  | returning => nofun

def CommandEvent.Accesses (event : CommandEvent) : Prop := event = .test ∨ event = .write ∨ event = .poll

namespace CommandMachine
variable {Id : Type} [DecidableEq Id]

/-- A read of the control block or a write of the command port happens while no other call
is between its first read and its return. -/
def Undisturbed (machine : CommandMachine Id) : CommandLabel Id → Prop
  | .take id event => event.Accesses → (machine.step (.take id event)).isSome →
    ∀ place context, machine.threads.contextAt place = some context → place ≠ machine.threads.top id → ¬ Active context
  | .enable => True

theorem status_of_access {machine next : CommandMachine Id} {id : Id} {event : CommandEvent} (accesses : event.Accesses)
    (moved : machine.step (.take id event) = some next) : machine.view.status (machine.threads.top id) ≠ .outside := by
  obtain ⟨performed,_,_,translated,_,_,_,_⟩ := step_take moved
  rw [view_top]
  rcases accesses with rfl | rfl | rfl
  · obtain ⟨command,task,released,_⟩ := translate_test translated
    simp [statusOf_unlocked task released]
  · obtain ⟨command,task,_⟩ := translate_write translated
    simp [statusOf,task]
  · obtain ⟨task,_⟩ := translate_poll translated
    simp [statusOf,task]

theorem Sound.undisturbed {machine : CommandMachine Id} (sound : machine.Sound) (label : CommandLabel Id) :
    machine.Undisturbed label := by
  cases label with
  | enable => trivial
  | take id event =>
    intro accesses happens place context here apart active
    obtain ⟨next,moved⟩ := Option.isSome_iff_exists.mp happens
    have inside : machine.view.status place ≠ .outside := by
      simp only [CommandMachine.view,here,Option.elim_some]
      exact active.not_outside
    exact apart (sound.view.alone place (machine.threads.top id) inside (status_of_access accesses moved))

end CommandMachine

/-- In every run in which a call gives the lock back only while no other one is between its
own and its return, no call disturbs another one, and at most one command is written. -/
theorem commands_one_at_a_time {Id : Type} [DecidableEq Id] {machine : CommandMachine Id} {trace : List (CommandLabel Id)}
    (initial : machine.Initial) (alone : Transition.Along CommandMachine.step CommandMachine.Alone machine trace) :
    Transition.Along CommandMachine.step CommandMachine.Undisturbed machine trace ∧
      ∀ final, Transition.run CommandMachine.step machine trace = some final → final.commands.length ≤ 1 := by
  have preserved : ∀ (s : CommandMachine Id) label next, s.Alone label → s.Sound → s.step label = some next → next.Sound :=
    fun _ _ _ alone sound moved => sound.step alone moved
  refine ⟨?_,?_⟩
  · exact Transition.Along.of_invariant CommandMachine.step CommandMachine.Sound preserved
      (fun _ label _ sound => sound.undisturbed label) alone initial.sound
  · intro final ran
    exact (Transition.run_preserves CommandMachine.step CommandMachine.Sound _ preserved alone initial.sound ran).view.few

instance {Id : Type} [Fintype Id] [DecidableEq Id] (machine : CommandMachine Id) (label : CommandLabel Id) :
    Decidable (machine.Alone label) :=
  inferInstanceAs (Decidable (∀ id, label = .take id .proceed → (machine.threads.processors id).running.phase = .store →
    ∀ other, ∀ context ∈ (machine.threads.processors other).contexts, statusOf context = .outside))

def offPair : CommandMachine Bool := ⟨⟨fun _ => false,fun _ => ⟨⟨true,[],.code,.idle⟩,[]⟩⟩,false,[]⟩

theorem offPair_initial : offPair.Initial := ⟨⟨fun _ => rfl,fun _ => ⟨rfl,rfl⟩⟩,fun _ => rfl,rfl⟩

/-- A call up to the end of the statement of its `ScopedLock`. -/
def lockStatement (id : Bool) : List (CommandLabel Bool) :=
  [.take id (.call 0xA0),.take id .lock] ++ List.replicate 4 (.take id .proceed) ++ [.take id .constructed,.take id .destroy] ++
    List.replicate 3 (.take id .proceed)

def callAfterCall : List (CommandLabel Bool) :=
  lockStatement false ++ [.take false .test,.take false .write,.take false .poll,.enable,.take false .poll,.take false .leave] ++
    lockStatement true ++ [.take true .test,.take true .leave]

theorem commands_one_at_a_time_callAfterCall : ∃ final,
    Transition.run CommandMachine.step offPair callAfterCall = some final ∧ final.commands = [0xA0] ∧
      Transition.Along CommandMachine.step CommandMachine.Undisturbed offPair callAfterCall := by
  have runs : (Transition.run CommandMachine.step offPair callAfterCall).map (·.commands) = some [0xA0] := by decide +kernel
  have alone : Transition.Along CommandMachine.step CommandMachine.Alone offPair callAfterCall := by decide +kernel
  obtain ⟨final,ran,once⟩ := Option.map_eq_some_iff.mp runs
  exact ⟨final,ran,once,(commands_one_at_a_time offPair_initial alone).1⟩

/-- Both calls read the control block before the device is switched on. -/
def callsTogether : List (CommandLabel Bool) :=
  lockStatement false ++ lockStatement true ++ [.take false .test,.take true .test,.take false .write,.take true .write]

theorem commands_not_one_at_a_time : ¬ ∀ trace : List (CommandLabel Bool),
    Transition.Along CommandMachine.step CommandMachine.Undisturbed offPair trace ∧
      ∀ final, Transition.run CommandMachine.step offPair trace = some final → final.commands.length ≤ 1 := by
  intro always
  have runs : (Transition.run CommandMachine.step offPair callsTogether).map (·.commands) = some [0xA0,0xA0] := by decide +kernel
  obtain ⟨final,ran,twice⟩ := Option.map_eq_some_iff.mp runs
  have few := (always callsTogether).2 final ran
  rw [twice] at few
  exact absurd few (by decide)

end BorealOS.Firmware.ACPI
