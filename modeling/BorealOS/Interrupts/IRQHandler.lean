import BorealOS.Kernel
import BorealOS.Library.Transition

/-! `SwitchToPageTable` and `IDT::IRQHandler` on one processor, step by step. The
switch writes `cr3` and `pageState` one after the other, and an interrupt may be
delivered between any two steps of whatever runs, a handler included. -/
namespace BorealOS.Interrupts

/-- The page tables there are (`State` is the address of a `Paging::State`), the
kernel's own, and the vectors for which `_irqHandlers` is not null. -/
structure Setting (State : Type) where
  pml4 : State → Word
  kernelState : State
  registered : BitVec 8 → Bool

/-- How far a context is in a call of `SwitchToPageTable`. -/
inductive Switch (State : Type) where
  | idle
  | called (state : State)
  | written (state : State)
deriving DecidableEq, Repr

/-- Where a context is: in code that is not `IRQHandler`, or at a line of it. The local
variable `backupState` is carried along. -/
inductive Place (State : Type) where
  | code
  | backup (irq : BitVec 8)
  | toKernel (irq : BitVec 8) (backupState : State)
  | handler (irq : BitVec 8) (backupState : State)
  | compare (irq : BitVec 8) (backupState : State)
  | back (irq : BitVec 8) (backupState : State)
  | acknowledge (irq : BitVec 8)
  | done
deriving DecidableEq, Repr

structure Context (State : Type) where
  place : Place State
  switch : Switch State
deriving DecidableEq, Repr

/-- An interrupted context with `cr3` and `pageState` at the interrupt, which no step
reads. -/
structure Interrupted (State : Type) where
  context : Context State
  cr3 : Word
  pageState : State
deriving DecidableEq, Repr

structure Processor (State : Type) where
  cr3 : Word
  pageState : State
  running : Context State
  interrupted : List (Interrupted State)
  /-- How often `SendEOI` was called. -/
  acknowledged : Nat
deriving DecidableEq, Repr

/-- Code or a registered handler calls `SwitchToPageTable`; the running context makes
its next step; an interrupt is delivered; `IRQHandler` returns. -/
inductive Event (State : Type) where
  | call (state : State)
  | proceed
  | interrupt (irq : BitVec 8)
  | resume
deriving DecidableEq, Repr

variable {State : Type}

namespace Setting

/-- Where `SwitchToPageTable` can be called besides from `IRQHandler` itself. -/
def mayCall (setting : Setting State) : Place State → Bool
  | .code => true
  | .handler irq _ => setting.registered irq
  | _ => false

variable [DecidableEq State]

/-- The next line of `IRQHandler`, outside of `SwitchToPageTable`. -/
def proceedHandler (setting : Setting State) (processor : Processor State) : Option (Processor State) :=
  match processor.running.place with
  | .code => none
  | .backup irq =>
    some { processor with running := ⟨.toKernel irq processor.pageState,.called setting.kernelState⟩ }
  | .toKernel irq backupState => some { processor with running := ⟨.handler irq backupState,.idle⟩ }
  | .handler irq backupState => some { processor with running := ⟨.compare irq backupState,.idle⟩ }
  | .compare irq backupState =>
    if backupState ≠ processor.pageState then
      some { processor with running := ⟨.back irq backupState,.called backupState⟩ }
    else some { processor with running := ⟨.acknowledge irq,.idle⟩ }
  | .back irq _ => some { processor with running := ⟨.acknowledge irq,.idle⟩ }
  | .acknowledge irq =>
    if irq = 0xFF then some { processor with running := ⟨.done,.idle⟩ }
    else some { processor with running := ⟨.done,.idle⟩, acknowledged := processor.acknowledged + 1 }
  | .done => none

def proceed (setting : Setting State) (processor : Processor State) : Option (Processor State) :=
  match processor.running.switch with
  | .idle => setting.proceedHandler processor
  | .called state =>
    some { processor with cr3 := setting.pml4 state, running := { processor.running with switch := .written state } }
  | .written state =>
    some { processor with pageState := state, running := { processor.running with switch := .idle } }

def step (setting : Setting State) (processor : Processor State) : Event State → Option (Processor State)
  | .call state =>
    if processor.running.switch = .idle ∧ setting.mayCall processor.running.place then
      some { processor with running := { processor.running with switch := .called state } }
    else none
  | .proceed => setting.proceed processor
  | .interrupt irq =>
    some { processor with
      running := ⟨.backup irq,.idle⟩
      interrupted := ⟨processor.running,processor.cr3,processor.pageState⟩ :: processor.interrupted }
  | .resume =>
    match processor.interrupted with
    | [] => none
    | below :: deeper =>
      if processor.running.place = .done then
        some { processor with running := below.context, interrupted := deeper }
      else none

end Setting

end BorealOS.Interrupts
