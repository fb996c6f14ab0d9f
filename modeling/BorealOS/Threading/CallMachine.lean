import BorealOS.Library.Exclusive
import BorealOS.Threading.Stack

/-! Functions whose body stands under a `ScopedLock(_lock, true)` of their object. Any
number of contexts on any number of processors call them, and the steps of the lock and
of the bodies mix in any order. -/
namespace BorealOS.Threading

variable {Id Call Place Shared Answer Outside : Type}

/-- How far a context is with a call: it has called, its body runs, or the body is done
and the scope of the lock still has to end. -/
inductive CallStage (Call Place Answer : Type) where
  | idle
  | calling (call : Call)
  | running (call : Call) (place : Place)
  | returning (answer : Answer)
deriving DecidableEq, Repr

inductive CallEvent (Call : Type) where
  | call (call : Call)
  | lock
  | enter
  | advance
  | finish
  | unlock
  | leave
  | proceed
  | changeFlag (interrupts : Bool)
  | interrupt
  | resume
deriving DecidableEq, Repr

/-- The step of the threads that belongs to a step of the running context, the shared
state after it, and the call that it finishes. -/
def CallMachine.translate (body : Exclusive.Body Call Place Shared Answer) (shared : Shared)
    (context : Context Unit (CallStage Call Place Answer)) :
    CallEvent Call → Option (Event Unit (CallStage Call Place Answer) × Shared × List (Call × Answer))
  | .call call =>
    match context.task with
    | .idle => some (.work (.calling call),shared,[])
    | _ => none
  | .lock =>
    match context.task with
    | .calling _ => if context.sections = [] then some (.enter (),shared,[]) else none
    | _ => none
  | .enter =>
    match context.task with
    | .calling call => if context.sections = [] then none else some (.work (.running call (body.start call)),shared,[])
    | _ => none
  | .advance =>
    match context.task with
    | .running call place => (body.advance place shared).map fun (after,next) => (.work (.running call after),next,[])
    | _ => none
  | .finish =>
    match context.task with
    | .running call place => (body.answer place).map fun answer => (.work (.returning answer),shared,[(call,answer)])
    | _ => none
  | .unlock =>
    match context.task with
    | .returning _ => some (.exit,shared,[])
    | _ => none
  | .leave =>
    match context.task with
    | .returning _ => if context.sections = [] then some (.work .idle,shared,[]) else none
    | _ => none
  | .proceed => some (.proceed,shared,[])
  | .changeFlag interrupts =>
    match context.task with
    | .idle => some (.changeFlag interrupts,shared,[])
    | _ => none
  | .interrupt => some (.interrupt .idle,shared,[])
  | .resume =>
    match context.task with
    | .idle => some (.resume,shared,[])
    | _ => none

/-- The processors, the state the calls share, and the finished calls with the place of
the caller. -/
structure CallMachine (Id Call Place Shared Answer : Type) where
  threads : Machine Id Unit (CallStage Call Place Answer)
  shared : Shared
  history : List ((Id × Nat) × Call × Answer)

namespace CallMachine

variable {body : Exclusive.Body Call Place Shared Answer} {outside : Shared → Outside → Option Shared}
variable {machine next final : CallMachine Id Call Place Shared Answer} {id : Id}

/-- A step of a context, or one that changes the shared state from outside. -/
def step [DecidableEq Id] (body : Exclusive.Body Call Place Shared Answer) (outside : Shared → Outside → Option Shared)
    (machine : CallMachine Id Call Place Shared Answer) :
    (Id × CallEvent Call) ⊕ Outside → Option (CallMachine Id Call Place Shared Answer)
  | .inl (id,event) => do
    let (moved,shared,finished) ← translate body machine.shared (machine.threads.processors id).running event
    let threads ← machine.threads.step true (id,moved)
    return ⟨threads,shared,machine.history ++ finished.map fun entry => (machine.threads.top id,entry)⟩
  | .inr change => (outside machine.shared change).map fun shared => { machine with shared := shared }

/-- The labels of one processor. -/
def labels (id : Id) (events : List (CallEvent Call)) : List ((Id × CallEvent Call) ⊕ Outside) :=
  events.map fun event => .inl (id,event)

/-- A call that waits for no other one, with a body of `count` steps. -/
def wholeCall (call : Call) (count : Nat) : List (CallEvent Call) :=
  [[.call call,.lock,.proceed,.proceed,.proceed,.proceed,.enter],List.replicate count .advance,
    [.finish,.unlock,.proceed,.proceed,.proceed,.leave]].flatten

structure Initial (machine : CallMachine Id Call Place Shared Answer) : Prop where
  threads : machine.threads.Initial
  idle : ∀ id, (machine.threads.processors id).running.task = .idle
  history : machine.history = []

end CallMachine

end BorealOS.Threading
