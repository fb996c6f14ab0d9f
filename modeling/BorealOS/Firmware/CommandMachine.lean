import BorealOS.Threading.Stack

/-! `WriteByteCommand`, called by any number of contexts. The statement
`Threading::ScopedLock(_lock, true);` makes a temporary, so the lock is taken and given
back before the port is read: the calls that follow mix in any order. -/
namespace BorealOS.Firmware.ACPI

open Threading

/-- How far a context is with a call: before the statement of the `ScopedLock`, with the
temporary to destroy or destroyed, with the command to write, in the loop, and with the
return to make. -/
inductive Stage where
  | idle
  | locking (command : UInt8)
  | unlocking (command : UInt8)
  | writing (command : UInt8)
  | polling
  | returning
deriving DecidableEq, Repr

/-- The steps of a context. `test` and `poll` read the control block, `write` writes the
command port. -/
inductive CommandEvent where
  | call (command : UInt8)
  | lock
  | constructed
  | destroy
  | test
  | write
  | poll
  | leave
  | proceed
  | changeFlag (interrupts : Bool)
  | interrupt
  | resume
deriving DecidableEq, Repr

/-- The step of the threads that belongs to a step of the running context, with the bit
that a read of the control block finds. -/
def translate (enabled : Bool) (context : Context Unit Stage) : CommandEvent → Option (Threading.Event Unit Stage)
  | .call command => if context.task = .idle then some (.work (.locking command)) else none
  | .lock =>
    match context.task with
    | .locking _ => if context.sections = [] then some (.enter ()) else none
    | _ => none
  | .constructed =>
    match context.task with
    | .locking command => if context.sections ≠ [] then some (.work (.unlocking command)) else none
    | _ => none
  | .destroy =>
    match context.task with
    | .unlocking _ => some .exit
    | _ => none
  | .test =>
    match context.task with
    | .unlocking command =>
      if context.sections = [] then some (.work (if enabled then .returning else .writing command)) else none
    | _ => none
  | .write =>
    match context.task with
    | .writing _ => some (.work .polling)
    | _ => none
  | .poll =>
    match context.task with
    | .polling => some (.work (if enabled then .returning else .polling))
    | _ => none
  | .leave =>
    match context.task with
    | .returning => some (.work .idle)
    | _ => none
  | .proceed => some .proceed
  | .changeFlag interrupts => if context.task = .idle then some (.changeFlag interrupts) else none
  | .interrupt => some (.interrupt .idle)
  | .resume => if context.task = .idle then some .resume else none

def written (context : Context Unit Stage) : CommandEvent → List UInt8
  | .write =>
    match context.task with
    | .writing command => [command]
    | _ => []
  | _ => []

/-- The processors, the bit `SCI_EN` of the control block, and the commands written. -/
structure CommandMachine (Id : Type) where
  threads : Machine Id Unit Stage
  enabled : Bool
  commands : List UInt8

/-- A context moves, or the device that was sent a command sets its bit. -/
inductive CommandLabel (Id : Type) where
  | take (id : Id) (event : CommandEvent)
  | enable
deriving DecidableEq, Repr

namespace CommandMachine
variable {Id : Type}

def step [DecidableEq Id] (machine : CommandMachine Id) : CommandLabel Id → Option (CommandMachine Id)
  | .take id event => do
    let running := (machine.threads.processors id).running
    let threads ← machine.threads.step true (id,← translate machine.enabled running event)
    return ⟨threads,machine.enabled,machine.commands ++ written running event⟩
  | .enable => if machine.commands ≠ [] then some { machine with enabled := true } else none

structure Initial (machine : CommandMachine Id) : Prop where
  threads : machine.threads.Initial
  idle : ∀ id, (machine.threads.processors id).running.task = .idle
  commands : machine.commands = []

end CommandMachine

end BorealOS.Firmware.ACPI
