import BorealOS.Threading.LockOrder
import BorealOS.Threading.Stack

/-! The locks of the kernel and the functions that take them. A function that stands
under a `ScopedLock` calls others that take locks of their own, and these calls go from
the page tables down to the ports. -/
namespace BorealOS.Threading

/-- The locks: of a page state, of the manager of physical memory, of the log, of the
debug port, of the console, and of an I/O APIC. -/
inductive KernelLock where
  | pageState (state : Nat)
  | physicalMemory
  | log
  | serial
  | framebuffer
  | ioApic (index : Nat)
deriving DecidableEq, Repr

/-- The functions that take one of the locks or call one that does. `log` is a use of
`LOG_MESSAGE`, and `coreWrite` is `Core::Write` with `Kernel::Log`. -/
inductive Routine where
  | mapPage (state : Nat)
  | unmapPage (state : Nat)
  | getPhysicalAddress (state : Nat)
  | isMapped (state : Nat)
  | findAvailableVirtualAddressRange (state : Nat)
  | allocatePages
  | freePages
  | log
  | logFmt
  | coreWrite
  | serialWrite
  | framebufferWrite
  | initializeIOAPIC (index : Nat)
  | setRedirectionEntry (index : Nat)
  | readRegister (index : Nat)
  | writeRegister (index : Nat)
deriving DecidableEq, Repr

namespace Routine

/-- The lock whose scope is the rest of the function. -/
def lock : Routine → Option KernelLock
  | .mapPage state => some (.pageState state)
  | .unmapPage state => some (.pageState state)
  | .getPhysicalAddress state => some (.pageState state)
  | .allocatePages => some .physicalMemory
  | .freePages => some .physicalMemory
  | .logFmt => some .log
  | .serialWrite => some .serial
  | .framebufferWrite => some .framebuffer
  | .readRegister index => some (.ioApic index)
  | .writeRegister index => some (.ioApic index)
  | .isMapped _ => none
  | .findAvailableVirtualAddressRange _ => none
  | .log => none
  | .coreWrite => none
  | .initializeIOAPIC _ => none
  | .setRedirectionEntry _ => none

/-- What the function calls. A `PANIC` stops the kernel, so it is not among the calls. -/
def calls : Routine → List Routine
  | .mapPage _ => [.allocatePages,.log]
  | .unmapPage _ => [.freePages]
  | .getPhysicalAddress _ => []
  | .isMapped state => [.getPhysicalAddress state]
  | .findAvailableVirtualAddressRange state => [.isMapped state]
  | .allocatePages => [.log]
  | .freePages => []
  | .log => [.logFmt,.coreWrite]
  | .logFmt => [.coreWrite]
  | .coreWrite => [.serialWrite,.framebufferWrite]
  | .serialWrite => []
  | .framebufferWrite => []
  | .initializeIOAPIC index => [.readRegister index,.writeRegister index,.log]
  | .setRedirectionEntry index => [.writeRegister index,.log]
  | .readRegister _ => []
  | .writeRegister _ => []

end Routine

def locksOf (frames : List Routine) : List KernelLock := frames.filterMap Routine.lock

/-- The steps of a context whose task is its stack of functions, the innermost first. -/
inductive KernelEvent where
  | call (routine : Routine)
  | lock
  | unlock
  | leave
  | proceed
  | changeFlag (interrupts : Bool)
  | interrupt
  | resume
deriving DecidableEq, Repr

/-- A function takes its lock when it has those of its callers, calls others when it has
its own, and gives it back before it returns. -/
def KernelEvent.translate (context : Context KernelLock (List Routine)) :
    KernelEvent → Option (Event KernelLock (List Routine))
  | .call routine =>
    match context.task with
    | [] => some (.work [routine])
    | caller :: callers =>
      if context.locks = locksOf (caller :: callers) ∧ routine ∈ caller.calls then some (.work (routine :: caller :: callers))
      else none
  | .lock =>
    match context.task with
    | [] => none
    | routine :: callers => if context.locks = locksOf callers then routine.lock.map .enter else none
  | .unlock =>
    match context.task with
    | [] => none
    | routine :: callers => if context.locks = locksOf (routine :: callers) then routine.lock.map fun _ => .exit else none
  | .leave =>
    match context.task with
    | [] => none
    | _ :: callers => if context.locks = locksOf callers then some (.work callers) else none
  | .proceed => some .proceed
  | .changeFlag interrupts => if context.task = [] then some (.changeFlag interrupts) else none
  | .interrupt => some (.interrupt [])
  | .resume => if context.task = [] then some .resume else none

abbrev KernelMachine (Id : Type) := Machine Id KernelLock (List Routine)

def kernelStep {Id : Type} [DecidableEq Id] (machine : KernelMachine Id) (label : Id × KernelEvent) :
    Option (KernelMachine Id) := do
  let event ← label.2.translate (machine.processors label.1).running
  machine.step true (label.1,event)

/-- The place of a lock in the order: the page tables, the physical memory, the log, and
the devices. -/
def KernelLock.rank : KernelLock → Nat
  | .pageState _ => 0
  | .physicalMemory => 1
  | .log => 2
  | .serial => 3
  | .framebuffer => 3
  | .ioApic _ => 3

/-- No lock that a function takes, itself or through its calls, is below its level. -/
def Routine.level : Routine → Nat
  | .mapPage _ => 0
  | .unmapPage _ => 0
  | .getPhysicalAddress _ => 0
  | .isMapped _ => 0
  | .findAvailableVirtualAddressRange _ => 0
  | .allocatePages => 1
  | .freePages => 1
  | .log => 2
  | .logFmt => 2
  | .coreWrite => 3
  | .serialWrite => 3
  | .framebufferWrite => 3
  | .initializeIOAPIC _ => 0
  | .setRedirectionEntry _ => 0
  | .readRegister _ => 3
  | .writeRegister _ => 3

theorem Routine.rank_lock {routine : Routine} {lock : KernelLock} (takes : routine.lock = some lock) :
    lock.rank = routine.level := by
  cases routine <;> simp only [Routine.lock,Option.some.injEq,reduceCtorEq] at takes <;> subst takes <;> rfl

theorem Routine.level_calls {caller routine : Routine} (calls : routine ∈ caller.calls) :
    caller.level ≤ routine.level ∧ (caller.lock.isSome → caller.level < routine.level) := by
  cases caller <;> simp only [Routine.calls,List.mem_cons,List.not_mem_nil,or_false] at calls <;>
    rcases calls with rfl | rfl | rfl <;> simp [Routine.level,Routine.lock]

/-- Each function of a stack is called by the next one. -/
def Stacked (frames : List Routine) : Prop := frames.IsChain fun routine caller => routine ∈ caller.calls

/-- All locks of the callers are below the level of the innermost function. -/
theorem Stacked.locks_below {routine : Routine} {callers : List Routine} (stacked : Stacked (routine :: callers)) :
    ∀ held ∈ locksOf callers, held.rank < routine.level := by
  induction callers generalizing routine with
  | nil => simp [locksOf]
  | cons caller callers ih =>
    obtain ⟨calls,rest⟩ := List.isChain_cons_cons.mp stacked
    obtain ⟨up,strictly⟩ := Routine.level_calls calls
    intro held member
    obtain ⟨holder,inside,takes⟩ := List.mem_filterMap.mp member
    rcases List.mem_cons.mp inside with rfl | inside
    · rw [Routine.rank_lock takes]
      exact strictly (by rw [takes]; rfl)
    · exact Nat.lt_of_lt_of_le (ih rest held (List.mem_filterMap.mpr ⟨holder,inside,takes⟩)) up

variable {Id : Type} {machine next : KernelMachine Id}

def AllStacked (machine : KernelMachine Id) : Prop :=
  ∀ id, ∀ context ∈ (machine.processors id).contexts, Stacked context.task

theorem kernelStep_threads [DecidableEq Id] {label : Id × KernelEvent} (step : kernelStep machine label = some next) : ∃ event,
    label.2.translate (machine.processors label.1).running = some event ∧ machine.step true (label.1,event) = some next := by
  simpa only [kernelStep,Option.bind_eq_bind,Option.bind_eq_some_iff] using step

/-- The functions of a context ask for a lock above those of their callers. -/
theorem above_of_translate {label : Id × KernelEvent} {event : Event KernelLock (List Routine)} (stacked : AllStacked machine)
    (translated : label.2.translate (machine.processors label.1).running = some event) :
    Above KernelLock.rank machine (label.1,event) := by
  intro lock enter held member
  obtain ⟨id,action⟩ := label
  simp only at enter member translated
  subst enter
  have chain : Stacked (machine.processors id).running.task := stacked id _ (by simp [Processor.contexts])
  cases action with
  | lock =>
    cases task : (machine.processors id).running.task with
    | nil => simp [KernelEvent.translate,task] at translated
    | cons routine callers =>
      simp only [KernelEvent.translate,task,Option.ite_none_right_eq_some,Option.map_eq_some_iff,Event.enter.injEq] at translated
      obtain ⟨has,wanted,takes,rfl⟩ := translated
      rw [has] at member
      rw [task] at chain
      rw [Routine.rank_lock takes]
      exact chain.locks_below held member
  | call routine =>
    simp only [KernelEvent.translate] at translated
    split at translated
    · simp at translated
    · simp at translated
  | unlock | leave =>
    simp only [KernelEvent.translate] at translated
    split at translated
    · simp at translated
    · simp at translated
  | proceed | interrupt => simp [KernelEvent.translate] at translated
  | changeFlag | resume => simp [KernelEvent.translate] at translated

theorem Stacked.translate {context : Context KernelLock (List Routine)} {action : KernelEvent} {frames : List Routine}
    (stacked : Stacked context.task) (translated : action.translate context = some (.work frames)) : Stacked frames := by
  cases action with
  | call routine =>
    cases task : context.task with
    | nil =>
      simp only [KernelEvent.translate,task,Option.some.injEq,Event.work.injEq] at translated
      subst translated
      exact .singleton routine
    | cons caller callers =>
      simp only [KernelEvent.translate,task,Option.ite_none_right_eq_some,Option.some.injEq,Event.work.injEq] at translated
      obtain ⟨⟨_,calls⟩,rfl⟩ := translated
      rw [task] at stacked
      exact List.isChain_cons_cons.mpr ⟨calls,stacked⟩
  | leave =>
    cases task : context.task with
    | nil => simp [KernelEvent.translate,task] at translated
    | cons routine callers =>
      simp only [KernelEvent.translate,task,Option.ite_none_right_eq_some,Option.some.injEq,Event.work.injEq] at translated
      obtain ⟨_,rfl⟩ := translated
      rw [task] at stacked
      exact stacked.tail
  | lock | unlock =>
    simp only [KernelEvent.translate] at translated
    split at translated
    · simp at translated
    · simp at translated
  | proceed | interrupt => simp [KernelEvent.translate] at translated
  | changeFlag | resume => simp [KernelEvent.translate] at translated

theorem KernelEvent.interrupt_of_translate {context : Context KernelLock (List Routine)} {action : KernelEvent} {frames : List Routine}
    (translated : action.translate context = some (.interrupt frames)) : frames = [] := by
  cases action with
  | interrupt =>
    simp only [KernelEvent.translate,Option.some.injEq,Event.interrupt.injEq] at translated
    exact translated.symm
  | call | lock | unlock | leave =>
    simp only [KernelEvent.translate] at translated
    split at translated
    · simp at translated
    · simp at translated
  | proceed => simp [KernelEvent.translate] at translated
  | changeFlag | resume => simp [KernelEvent.translate] at translated

theorem stacked_perform {processor after : Processor KernelLock (List Routine)} {locked marks : KernelLock → Bool}
    {action : KernelEvent} {event : Event KernelLock (List Routine)} (stacked : ∀ context ∈ processor.contexts, Stacked context.task)
    (translated : action.translate processor.running = some event)
    (performed : processor.perform true locked event = some (after,marks)) :
    ∀ context ∈ after.contexts, Stacked context.task := by
  have running : Stacked processor.running.task := stacked _ (by simp [Processor.contexts])
  have waiting : ∀ context ∈ processor.interrupted, Stacked context.task := fun context member =>
    stacked context (by simp [Processor.contexts,member])
  suffices both : Stacked after.running.task ∧ ∀ context ∈ after.interrupted, Stacked context.task by
    intro context member
    rcases List.mem_cons.mp member with rfl | member
    · exact both.1
    · exact both.2 context member
  cases event with
  | work frames =>
    simp only [Processor.perform,Option.ite_none_right_eq_some,Option.some.injEq,Prod.mk.injEq] at performed
    obtain ⟨_,rfl,rfl⟩ := performed
    exact ⟨running.translate translated,waiting⟩
  | changeFlag | enter | exit =>
    simp only [Processor.perform,Option.ite_none_right_eq_some,Option.some.injEq,Prod.mk.injEq] at performed
    obtain ⟨_,rfl,rfl⟩ := performed
    exact ⟨running,waiting⟩
  | proceed =>
    simp only [Processor.perform,Option.map_eq_some_iff,Prod.mk.injEq,Prod.exists] at performed
    obtain ⟨context,marks,step,rfl,rfl⟩ := performed
    exact ⟨Context.proceed_task step ▸ running,waiting⟩
  | interrupt frames =>
    simp only [Processor.perform,Option.ite_none_right_eq_some,Option.some.injEq,Prod.mk.injEq] at performed
    obtain ⟨_,rfl,rfl⟩ := performed
    refine ⟨?_,?_⟩
    · rw [KernelEvent.interrupt_of_translate translated]
      exact .nil
    · intro context member
      rcases List.mem_cons.mp member with rfl | member
      · exact running
      · exact waiting context member
  | resume =>
    obtain ⟨context,deeper,stack,_,rfl,rfl⟩ := Processor.perform_resume performed
    exact ⟨waiting context (by simp [stack]),fun other member => waiting other (by simp [stack,member])⟩

variable [DecidableEq Id]

theorem AllStacked.step {label : Id × KernelEvent} {event : Event KernelLock (List Routine)} (stacked : AllStacked machine)
    (translated : label.2.translate (machine.processors label.1).running = some event)
    (step : machine.step true (label.1,event) = some next) : AllStacked next := by
  obtain ⟨processor,locked,performed,rfl⟩ := Machine.step_processor step
  intro id
  by_cases same : id = label.1
  · subst same
    simpa using stacked_perform (stacked label.1) translated performed
  · simpa [same] using stacked id

/-- A run of the functions is a run of the threads that takes locks in order. -/
theorem kernel_run_threads {final : KernelMachine Id} {trace : List (Id × KernelEvent)} (stacked : AllStacked machine)
    (ran : Transition.run kernelStep machine trace = some final) : ∃ events,
      Transition.run (Machine.step true) machine events = some final ∧
        Transition.Along (Machine.step true) (Above KernelLock.rank) machine events := by
  induction trace generalizing machine with
  | nil => exact ⟨[],ran,trivial⟩
  | cons label trace ih =>
    obtain ⟨middle,first,rest⟩ := (Transition.run_cons_some kernelStep machine final label trace).mp ran
    obtain ⟨event,translated,step⟩ := kernelStep_threads first
    obtain ⟨events,later,above⟩ := ih (stacked.step translated step) rest
    refine ⟨(label.1,event) :: events,?_,above_of_translate stacked translated,?_⟩
    · rw [Transition.run,step,Option.bind_some]
      exact later
    · intro other moved
      rw [step,Option.some.injEq] at moved
      exact moved ▸ above

def idleKernel : KernelMachine Bool := ⟨fun _ => false,fun _ => ⟨⟨true,[],.code,[]⟩,[]⟩⟩

/-- One processor maps a page and logs that no table can be allocated, with three locks
held, while the other one waits for the physical memory. -/
def contendedCalls : List (Bool × KernelEvent) :=
  [(false,.call (.mapPage 0)),(false,.lock),(false,.proceed),(false,.proceed),(false,.proceed),(false,.proceed),
    (false,.call .allocatePages),(false,.lock),(false,.proceed),(false,.proceed),(false,.proceed),(false,.proceed),
    (true,.call .freePages),(true,.lock),(true,.proceed),(true,.proceed),(true,.proceed),
    (false,.call .log),(false,.call .logFmt),(false,.lock),(false,.proceed),(false,.proceed),(false,.proceed),(false,.proceed)]

end BorealOS.Threading
