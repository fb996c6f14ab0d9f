import BorealOS.Library.LockTable
import BorealOS.Threading.Spinlock

/-! Sections made by `ScopedLock(lock, true)` on any number of processors. A lock is
marked exactly while one context is between its exchange and its store; that context
runs with interrupts off; and the outermost section puts the interrupt flag back. -/
namespace BorealOS.Threading

open LockTable

variable {Id Lock Task : Type}

/-- Each section gives back the interrupt flag it found, and inside of another section
it found interrupts off. -/
def Nested : List (Section Lock) → Prop
  | [] => True
  | inner :: outer => inner.reenableInterrupts = inner.before ∧ (outer ≠ [] → inner.before = false) ∧ Nested outer

namespace Context

def locks (context : Context Lock Task) : List Lock := context.sections.map Section.lock

def Ready (context : Context Lock Task) : Prop :=
  match context.phase with
  | .code => True
  | .store => True
  | .readFlag _ before => context.interrupts = before
  | .clearFlag _ had before => context.interrupts = before ∧ had = before
  | .load _ had before => context.interrupts = false ∧ had = before ∧ (context.sections ≠ [] → before = false)
  | .compareExchange _ had before => context.interrupts = false ∧ had = before ∧ (context.sections ≠ [] → before = false)
  | .setFlag reenableInterrupts before =>
    context.interrupts = false ∧ reenableInterrupts = before ∧ (context.sections ≠ [] → before = false)
  | .leave before => context.interrupts = before

structure Sound (context : Context Lock Task) : Prop where
  quiet : context.sections ≠ [] → context.interrupts = false
  nested : Nested context.sections
  ready : context.Ready

theorem sound_handler (task : Task) : (handler task : Context Lock Task).Sound :=
  ⟨fun open_ => absurd rfl open_,trivial,trivial⟩

theorem Sound.locks_of_enabled {context : Context Lock Task} (sound : context.Sound) (enabled : context.interrupts = true) :
    context.locks = [] := by
  by_contra holds
  have off := sound.quiet (by simpa [locks] using holds)
  rw [enabled] at off
  exact Bool.noConfusion off

theorem locks_of_outside [DecidableEq Lock] {context : Context Lock Task} (outside : context.outside) : context.locks = [] := by
  have both : context.phase = .code ∧ context.sections = [] := by simpa [Context.outside] using outside
  rw [locks,both.2,List.map_nil]

variable [DecidableEq Lock]

/-- One step of a call keeps the context sound, and takes or gives back at most the
lock of the call. -/
theorem Sound.proceed {context next : Context Lock Task} {locked after : Lock → Bool} (sound : context.Sound)
    (step : context.proceed true locked = some (next,after)) :
    next.Sound ∧ Effect locked context.locks after next.locks := by
  obtain ⟨quiet,nested,ready⟩ := sound
  obtain ⟨interrupts,sections,phase,task⟩ := context
  cases phase with
  | code => simp [Context.proceed] at step
  | readFlag lock before =>
    simp only [Context.proceed,Option.some.injEq,Prod.mk.injEq] at step
    obtain ⟨rfl,rfl⟩ := step
    exact ⟨⟨quiet,nested,ready,ready⟩,.keep⟩
  | clearFlag lock had before =>
    simp only [Context.proceed,Option.some.injEq,Prod.mk.injEq] at step
    obtain ⟨rfl,rfl⟩ := step
    refine ⟨⟨fun _ => by simp,nested,by simp,ready.2,fun inside => ?_⟩,.keep⟩
    exact ready.1.symm.trans (quiet inside)
  | load lock had before =>
    simp only [Context.proceed,Option.some.injEq,Prod.mk.injEq] at step
    obtain ⟨rfl,rfl⟩ := step
    refine ⟨⟨quiet,nested,?_⟩,.keep⟩
    cases locked lock <;> exact ready
  | compareExchange lock had before =>
    simp only [Context.proceed] at step
    obtain ⟨off,same,inside⟩ := ready
    split at step
    · simp only [Option.some.injEq,Prod.mk.injEq] at step
      obtain ⟨rfl,rfl⟩ := step
      exact ⟨⟨quiet,nested,off,same,inside⟩,.keep⟩
    · rename_i free
      simp only [Option.some.injEq,Prod.mk.injEq] at step
      obtain ⟨rfl,rfl⟩ := step
      exact ⟨⟨fun _ => off,⟨by simpa using same,inside,nested⟩,trivial⟩,.take lock (by simpa using free)⟩
  | store =>
    cases sections with
    | nil => simp [Context.proceed] at step
    | cons innermost outer =>
      simp only [Context.proceed,Option.some.injEq,Prod.mk.injEq] at step
      obtain ⟨rfl,rfl⟩ := step
      have off := quiet (List.cons_ne_nil _ _)
      exact ⟨⟨fun _ => off,nested.2.2,off,nested.1,nested.2.1⟩,.release innermost.lock _ rfl⟩
  | setFlag reenableInterrupts before =>
    simp only [Context.proceed,Option.some.injEq,Prod.mk.injEq] at step
    obtain ⟨rfl,rfl⟩ := step
    obtain ⟨off,same,inside⟩ := ready
    have restored : (interrupts || reenableInterrupts) = before := by
      rw [show interrupts = false from off,Bool.false_or,same]
    exact ⟨⟨fun more => restored.trans (inside more),nested,restored⟩,.keep⟩
  | leave before =>
    simp only [Context.proceed,Option.some.injEq,Prod.mk.injEq] at step
    obtain ⟨rfl,rfl⟩ := step
    exact ⟨⟨quiet,nested,trivial⟩,.keep⟩

end Context

/-- All contexts of a processor are sound, and those that wait for a handler to return
had their interrupts on. -/
structure Processor.Sound (processor : Processor Lock Task) : Prop where
  running : processor.running.Sound
  waiting : ∀ context ∈ processor.interrupted, context.Sound ∧ context.interrupts = true

theorem Processor.perform_resume [DecidableEq Lock] {processor next : Processor Lock Task} {locked after : Lock → Bool}
    {stopInterrupts : Bool} (step : processor.perform stopInterrupts locked .resume = some (next,after)) :
    ∃ context deeper, processor.interrupted = context :: deeper ∧ processor.running.outside ∧ next = ⟨context,deeper⟩ ∧
      after = locked := by
  simp only [Processor.perform] at step
  split at step
  · cases step
  · rename_i context deeper stack
    simp only [Option.ite_none_right_eq_some,Option.some.injEq,Prod.mk.injEq] at step
    exact ⟨context,deeper,stack,step.1,step.2.1.symm,step.2.2.symm⟩

theorem Processor.Sound.perform [DecidableEq Lock] {processor next : Processor Lock Task} {locked after : Lock → Bool}
    {event : Event Lock Task} (sound : processor.Sound)
    (step : processor.perform true locked event = some (next,after)) :
    next.Sound ∧ Effect locked processor.running.locks after next.running.locks := by
  obtain ⟨running,waiting⟩ := sound
  cases event with
  | work task =>
    simp only [Processor.perform,Option.ite_none_right_eq_some,Option.some.injEq,Prod.mk.injEq] at step
    obtain ⟨_,rfl,rfl⟩ := step
    exact ⟨⟨⟨running.quiet,running.nested,running.ready⟩,waiting⟩,.keep⟩
  | changeFlag interrupts =>
    simp only [Processor.perform,Option.ite_none_right_eq_some,Option.some.injEq,Prod.mk.injEq] at step
    obtain ⟨outside,rfl,rfl⟩ := step
    have both : processor.running.phase = .code ∧ processor.running.sections = [] := by
      simpa [Context.outside] using outside
    refine ⟨⟨⟨fun inside => absurd both.2 inside,running.nested,?_⟩,waiting⟩,.keep⟩
    simp [Context.Ready,both.1]
  | enter lock =>
    simp only [Processor.perform,Option.ite_none_right_eq_some,Option.some.injEq,Prod.mk.injEq] at step
    obtain ⟨_,rfl,rfl⟩ := step
    exact ⟨⟨⟨running.quiet,running.nested,rfl⟩,waiting⟩,.keep⟩
  | exit =>
    simp only [Processor.perform,Option.ite_none_right_eq_some,Option.some.injEq,Prod.mk.injEq] at step
    obtain ⟨_,rfl,rfl⟩ := step
    exact ⟨⟨⟨running.quiet,running.nested,trivial⟩,waiting⟩,.keep⟩
  | proceed =>
    simp only [Processor.perform,Option.map_eq_some_iff,Prod.mk.injEq,Prod.exists] at step
    obtain ⟨context,marks,step,rfl,rfl⟩ := step
    obtain ⟨sound,effect⟩ := running.proceed step
    exact ⟨⟨sound,waiting⟩,effect⟩
  | interrupt task =>
    simp only [Processor.perform,Option.ite_none_right_eq_some,Option.some.injEq,Prod.mk.injEq] at step
    obtain ⟨enabled,rfl,rfl⟩ := step
    refine ⟨⟨Context.sound_handler task,?_⟩,?_⟩
    · intro context member
      rcases List.mem_cons.mp member with rfl | member
      · exact ⟨running,enabled⟩
      · exact waiting context member
    · rw [running.locks_of_enabled enabled]
      exact .keep
  | resume =>
    obtain ⟨context,deeper,stack,outside,rfl,rfl⟩ := Processor.perform_resume step
    obtain ⟨sound,enabled⟩ := waiting context (by simp [stack])
    refine ⟨⟨sound,fun other member => waiting other (by simp [stack,member])⟩,?_⟩
    rw [Context.locks_of_outside outside,sound.locks_of_enabled enabled]
    exact .keep

namespace Machine

structure Disciplined (machine : Machine Id Lock Task) : Prop where
  sound : ∀ id, (machine.processors id).Sound
  owned : Owned machine.locked (fun id => (machine.processors id).running.locks)

theorem disciplined_initial [DecidableEq Lock] {machine : Machine Id Lock Task} (initial : machine.Initial) :
    machine.Disciplined where
  sound id := by
    obtain ⟨outside,alone⟩ := initial.2 id
    have both : (machine.processors id).running.phase = .code ∧ (machine.processors id).running.sections = [] := by
      simpa [Context.outside] using outside
    refine ⟨⟨fun inside => absurd both.2 inside,?_,?_⟩,by simp [alone]⟩
    · rw [both.2]
      trivial
    · simp [Context.Ready,both.1]
  owned := owned_free _ _ initial.1 (fun id => Context.locks_of_outside (initial.2 id).1)

/-- A context is named by its processor and its depth below the running context. It
holds a lock from its exchange, which opens a section, to its store, which closes it. -/
def Holds (machine : Machine Id Lock Task) (place : Id × Nat) (lock : Lock) : Prop :=
  ∃ context, (machine.processors place.1).contexts[place.2]? = some context ∧ lock ∈ context.locks

theorem Disciplined.holds_iff {machine : Machine Id Lock Task} (disciplined : machine.Disciplined) (place : Id × Nat)
    (lock : Lock) : machine.Holds place lock ↔ place.2 = 0 ∧ lock ∈ (machine.processors place.1).running.locks := by
  obtain ⟨id,depth⟩ := place
  cases depth with
  | zero => simp [Holds,Processor.contexts]
  | succ depth =>
    simp only [Nat.add_one_ne_zero,false_and,iff_false]
    rintro ⟨context,found,member⟩
    have inside : context ∈ (machine.processors id).interrupted := List.mem_of_getElem? found
    obtain ⟨sound,enabled⟩ := (disciplined.sound id).waiting context inside
    rw [sound.locks_of_enabled enabled] at member
    exact List.not_mem_nil member

theorem Disciplined.one_holder {machine : Machine Id Lock Task} (disciplined : machine.Disciplined) {lock : Lock}
    {place other : Id × Nat} (holds : machine.Holds place lock) (also : machine.Holds other lock) : place = other := by
  obtain ⟨top,member⟩ := (disciplined.holds_iff place lock).mp holds
  obtain ⟨alsoTop,alsoMember⟩ := (disciplined.holds_iff other lock).mp also
  apply Prod.ext
  · exact disciplined.owned.alone lock place.1 other.1 member alsoMember
  · exact top.trans alsoTop.symm

theorem Disciplined.locked_iff {machine : Machine Id Lock Task} (disciplined : machine.Disciplined) (lock : Lock) :
    machine.locked lock = true ↔ ∃ place, machine.Holds place lock := by
  rw [disciplined.owned.marked lock]
  constructor
  · rintro ⟨id,member⟩
    exact ⟨(id,0),(disciplined.holds_iff (id,0) lock).mpr ⟨rfl,member⟩⟩
  · rintro ⟨place,holds⟩
    exact ⟨place.1,((disciplined.holds_iff place lock).mp holds).2⟩

theorem Disciplined.quiet {machine : Machine Id Lock Task} (disciplined : machine.Disciplined) {lock : Lock}
    {place : Id × Nat} (holds : machine.Holds place lock) : (machine.processors place.1).running.interrupts = false := by
  obtain ⟨_,member⟩ := (disciplined.holds_iff place lock).mp holds
  apply (disciplined.sound place.1).running.quiet
  intro none
  simp [Context.locks,none] at member

variable [DecidableEq Id] [DecidableEq Lock]

theorem Disciplined.step {machine next : Machine Id Lock Task} {label : Id × Event Lock Task}
    (disciplined : machine.Disciplined) (step : machine.step true label = some next) : next.Disciplined := by
  simp only [Machine.step,Option.map_eq_some_iff,Prod.exists] at step
  obtain ⟨processor,locked,step,rfl⟩ := step
  obtain ⟨sound,effect⟩ := (disciplined.sound label.1).perform step
  refine ⟨fun id => ?_,?_⟩
  · by_cases same : id = label.1
    · subst same
      simpa using sound
    · simpa [same] using disciplined.sound id
  · have owned := disciplined.owned.effect effect
    convert owned using 2 with id
    by_cases same : id = label.1
    · subst same
      simp
    · simp [same]

theorem disciplined_run {machine final : Machine Id Lock Task} {trace : List (Id × Event Lock Task)}
    (initial : machine.Initial) (ran : Transition.run (Machine.step true) machine trace = some final) :
    final.Disciplined :=
  Transition.run_invariant (Machine.step true) Disciplined (fun _ _ _ holds step => holds.step step)
    (disciplined_initial initial) ran

end Machine

/-- In every state of every run: a lock is marked if and only if exactly one context
holds it, and two never do; a processor with a lock held has interrupts off and starts
no handler; and a context that leaves its outermost section has the interrupt flag it
had at the call of `Lock`. -/
theorem spinlock_discipline [DecidableEq Id] [DecidableEq Lock] {machine final : Machine Id Lock Task}
    {trace : List (Id × Event Lock Task)} (initial : machine.Initial)
    (ran : Transition.run (Machine.step true) machine trace = some final) :
    (∀ lock, final.locked lock = true ↔ ∃! place, final.Holds place lock) ∧
      (∀ lock, final.locked lock = false ↔ ∀ place, ¬ final.Holds place lock) ∧
      (∀ place lock, final.Holds place lock → (final.processors place.1).running.interrupts = false ∧
        ∀ task, final.step true (place.1,.interrupt task) = none) ∧
      ∀ id before next, (final.processors id).running.phase = .leave before →
        (final.processors id).running.sections = [] → final.step true (id,.proceed) = some next →
        (next.processors id).running.phase = .code ∧ (next.processors id).running.interrupts = before := by
  have disciplined := Machine.disciplined_run initial ran
  refine ⟨fun lock => ?_,fun lock => ?_,fun place lock holds => ?_,fun id before next leaving _ step => ?_⟩
  · rw [disciplined.locked_iff lock]
    constructor
    · rintro ⟨place,holds⟩
      exact ⟨place,holds,fun other also => disciplined.one_holder also holds⟩
    · exact ExistsUnique.exists
  · rw [← Bool.not_eq_true,disciplined.locked_iff lock,not_exists]
  · have off := disciplined.quiet holds
    refine ⟨off,fun task => ?_⟩
    simp [Machine.step,Processor.perform,off]
  · have ready := (disciplined.sound id).running.ready
    rw [Context.Ready,leaving] at ready
    simp only [Machine.step,Processor.perform,Context.proceed,leaving,Option.map_some,Option.some.injEq] at step
    subst step
    simpa using ready

def idlePair : Machine Bool Unit Unit := ⟨fun _ => false,fun _ => ⟨⟨true,[],.code,()⟩,[]⟩⟩

def lockTaken : List (Bool × Event Unit Unit) :=
  [(false,.enter ()),(false,.proceed),(true,.interrupt ()),(false,.proceed),(false,.proceed),(false,.proceed)]

theorem spinlock_discipline_lockTaken : ∃ final, Transition.run (Machine.step true) idlePair lockTaken = some final ∧
    final.locked () = true ∧ ∃! place, final.Holds place () := by
  have initial : idlePair.Initial := ⟨fun _ => rfl,fun _ => ⟨rfl,rfl⟩⟩
  have runs : (Transition.run (Machine.step true) idlePair lockTaken).isSome := by decide
  have ran := (Option.some_get runs).symm
  have locked : ((Transition.run (Machine.step true) idlePair lockTaken).get runs).locked () = true := rfl
  exact ⟨_,ran,locked,((spinlock_discipline initial ran).1 ()).mp locked⟩

end BorealOS.Threading
