import BorealOS.Library.Transition

/-! Spinlocks, the scoped sections that take them and the interrupt flag, as the
source computes them. Every processor runs a context, and an interrupt puts a
handler on top of the context it stops. The single steps of `Lock` and `Unlock`
are steps of the machine, so those of different processors mix in any order and a
handler may start between any two of them. -/
namespace BorealOS.Threading

/-- A `ScopedLock` that holds its lock: `_lock`, `_reenableInterrupts`, and the
interrupt flag at the call of `Lock`, which no step reads. -/
structure Section (Lock : Type) where
  lock : Lock
  reenableInterrupts : Bool
  before : Bool
deriving DecidableEq, Repr

/-- The step a context makes next. A call of `Lock` carries its lock, what it has read
of the interrupt flag (`hadInterruptsEnabled`), and the interrupt flag at the call. -/
inductive Phase (Lock : Type) where
  | code
  | readFlag (lock : Lock) (before : Bool)
  | clearFlag (lock : Lock) (had before : Bool)
  | load (lock : Lock) (had before : Bool)
  | compareExchange (lock : Lock) (had before : Bool)
  | store
  | setFlag (reenableInterrupts before : Bool)
  | leave (before : Bool)
deriving DecidableEq, Repr

/-- A context with its interrupt flag, its open sections from the inside out, and what
it does besides. The flag of a context that is interrupted is the one that the return
of the handler restores. -/
structure Context (Lock Task : Type) where
  interrupts : Bool
  sections : List (Section Lock)
  phase : Phase Lock
  task : Task
deriving DecidableEq, Repr

structure Processor (Lock Task : Type) where
  running : Context Lock Task
  interrupted : List (Context Lock Task)
deriving DecidableEq, Repr

/-- What can happen on a processor: the code between the calls goes on or, outside of
all sections, changes the interrupt flag; a section begins or ends; a call makes its
next step; a handler starts or returns. -/
inductive Event (Lock Task : Type) where
  | work (task : Task)
  | changeFlag (interrupts : Bool)
  | enter (lock : Lock)
  | exit
  | proceed
  | interrupt (task : Task)
  | resume
deriving DecidableEq, Repr

variable {Id Lock Task : Type} [DecidableEq Lock]

namespace Context

def outside (context : Context Lock Task) : Bool := context.phase = .code && context.sections.isEmpty

/-- The next step of `Lock(stopInterrupts)` or of `Unlock`. A context may ask for a
lock that it holds; it then waits forever. -/
def proceed (stopInterrupts : Bool) (locked : Lock → Bool) (context : Context Lock Task) :
    Option (Context Lock Task × (Lock → Bool)) :=
  match context.phase with
  | .code => none
  | .readFlag lock before => some ({ context with phase := .clearFlag lock context.interrupts before },locked)
  | .clearFlag lock had before =>
    some ({ context with interrupts := context.interrupts && !stopInterrupts, phase := .load lock had before },locked)
  | .load lock had before =>
    some ({ context with phase := if locked lock then .load lock had before else .compareExchange lock had before },locked)
  | .compareExchange lock had before =>
    if locked lock then some ({ context with phase := .load lock had before },locked)
    else some ({ context with phase := .code, sections := ⟨lock,stopInterrupts && had,before⟩ :: context.sections },
      Function.update locked lock true)
  | .store =>
    match context.sections with
    | [] => none
    | innermost :: outer =>
      some ({ context with phase := .setFlag innermost.reenableInterrupts innermost.before, sections := outer },
        Function.update locked innermost.lock false)
  | .setFlag reenableInterrupts before =>
    some ({ context with interrupts := context.interrupts || reenableInterrupts, phase := .leave before },locked)
  | .leave _ => some ({ context with phase := .code },locked)

def handler (task : Task) : Context Lock Task := ⟨false,[],.code,task⟩

end Context

namespace Processor

def contexts (processor : Processor Lock Task) : List (Context Lock Task) := processor.running :: processor.interrupted

def perform (stopInterrupts : Bool) (locked : Lock → Bool) (processor : Processor Lock Task) :
    Event Lock Task → Option (Processor Lock Task × (Lock → Bool))
  | .work task =>
    if processor.running.phase = .code then
      some ({ processor with running := { processor.running with task := task } },locked)
    else none
  | .changeFlag interrupts =>
    if processor.running.outside then
      some ({ processor with running := { processor.running with interrupts := interrupts } },locked)
    else none
  | .enter lock =>
    if processor.running.phase = .code then
      some ({ processor with
        running := { processor.running with phase := .readFlag lock processor.running.interrupts } },locked)
    else none
  | .exit =>
    if processor.running.phase = .code ∧ processor.running.sections ≠ [] then
      some ({ processor with running := { processor.running with phase := .store } },locked)
    else none
  | .proceed =>
    (processor.running.proceed stopInterrupts locked).map fun (context,locked) =>
      ({ processor with running := context },locked)
  | .interrupt task =>
    if processor.running.interrupts then
      some (⟨.handler task,processor.running :: processor.interrupted⟩,locked)
    else none
  | .resume =>
    match processor.interrupted with
    | [] => none
    | context :: deeper => if processor.running.outside then some (⟨context,deeper⟩,locked) else none

end Processor

structure Machine (Id Lock Task : Type) where
  locked : Lock → Bool
  processors : Id → Processor Lock Task

variable [DecidableEq Id]

/-- A step of one processor, all of whose sections are made by
`ScopedLock(lock, stopInterrupts)`. -/
def Machine.step (stopInterrupts : Bool) (machine : Machine Id Lock Task) (label : Id × Event Lock Task) :
    Option (Machine Id Lock Task) :=
  ((machine.processors label.1).perform stopInterrupts machine.locked label.2).map fun (processor,locked) =>
    ⟨locked,Function.update machine.processors label.1 processor⟩

/-- Every lock is free, and every processor runs a context outside of all sections. -/
def Machine.Initial (machine : Machine Id Lock Task) : Prop :=
  (∀ lock, machine.locked lock = false) ∧
    ∀ id, (machine.processors id).running.outside ∧ (machine.processors id).interrupted = []

end BorealOS.Threading
