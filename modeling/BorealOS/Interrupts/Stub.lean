import BorealOS.Kernel
import BorealOS.Library.StackMemory

/-! The interrupt stubs of `IDT.S`: the instructions they use, the three macros, and
what the processor does before the first instruction and with `iretq`. -/
namespace BorealOS.Interrupts.Stub

open StackMemory

inductive Register where
  | rax | rbx | rcx | rdx | rsi | rdi | rbp | r8 | r9 | r10 | r11 | r12 | r13 | r14 | r15 | rsp
deriving DecidableEq, Repr

inductive Routine where
  | irqHandler
  | exceptionHandler
deriving DecidableEq, Repr

inductive Instruction where
  | pushValue (value : Word)
  | push (source : Register)
  | pop (target : Register)
  | movValue (target : Register) (value : Word)
  | mov (target source : Register)
  | movFrom (target base : Register) (displacement : Word)
  | and (target : Register) (value : Word)
  | sub (target : Register) (value : Word)
  | add (target : Register) (value : Word)
  | call (routine : Routine)
deriving DecidableEq, Repr

structure State where
  registers : Register → Word
  memory : Memory

namespace State

def set (state : State) (target : Register) (value : Word) : State :=
  { state with registers := Function.update state.registers target value }

def pushWord (state : State) (value : Word) : State :=
  ⟨Function.update state.registers .rsp (state.registers .rsp - 8),store state.memory (state.registers .rsp - 8) value⟩

@[simp] theorem set_self (state : State) (target : Register) (value : Word) : (state.set target value).registers target = value := by
  simp [set]

@[simp] theorem set_of_ne (state : State) {target register : Register} (value : Word) (other : register ≠ target) :
    (state.set target value).registers register = state.registers register := by
  simp [set,other]

@[simp] theorem set_memory (state : State) (target : Register) (value : Word) : (state.set target value).memory = state.memory := rfl

@[simp] theorem pushWord_rsp (state : State) (value : Word) :
    (state.pushWord value).registers .rsp = state.registers .rsp - 8 := by
  simp [pushWord]

@[simp] theorem pushWord_of_ne (state : State) {register : Register} (value : Word) (other : register ≠ .rsp) :
    (state.pushWord value).registers register = state.registers register := by
  simp [pushWord,other]

@[simp] theorem pushWord_memory (state : State) (value : Word) :
    (state.pushWord value).memory = store state.memory (state.registers .rsp - 8) value := rfl

end State

/-- What a routine does from its first instruction to its return, if it returns, and
the address that a call pushes. -/
structure Environment where
  routine : Routine → State → Option State
  returnAddress : Word

section

variable (environment : Environment)

def execute (state : State) : Instruction → Option State
  | .pushValue value => some (state.pushWord value)
  | .push source => some (state.pushWord (state.registers source))
  | .pop target =>
    some ((state.set .rsp (state.registers .rsp + 8)).set target (load state.memory (state.registers .rsp)))
  | .movValue target value => some (state.set target value)
  | .mov target source => some (state.set target (state.registers source))
  | .movFrom target base displacement => some (state.set target (load state.memory (state.registers base + displacement)))
  | .and target value => some (state.set target (state.registers target &&& value))
  | .sub target value => some (state.set target (state.registers target - value))
  | .add target value => some (state.set target (state.registers target + value))
  | .call routine => environment.routine routine (state.pushWord environment.returnAddress)

def run : List Instruction → State → Option State
  | [], state => some state
  | instruction :: rest, state => (execute environment state instruction).bind (run rest)

/-- The calls of a run, each with the state at the first instruction of the routine. -/
def calls : List Instruction → State → List (Routine × State)
  | [], _ => []
  | instruction :: rest, state =>
    let now := match instruction with
      | .call routine => [(routine,state.pushWord environment.returnAddress)]
      | _ => []
    now ++ (execute environment state instruction).elim [] (calls rest)

end

def saveRegs : List Instruction :=
  [.push .r15,.push .r14,.push .r13,.push .r12,.push .r11,.push .r10,.push .r9,.push .r8,.push .rbp,.push .rdi,
    .push .rsi,.push .rdx,.push .rcx,.push .rbx,.push .rax]

def restoreRegs : List Instruction :=
  [.pop .rax,.pop .rbx,.pop .rcx,.pop .rdx,.pop .rsi,.pop .rdi,.pop .rbp,.pop .r8,.pop .r9,.pop .r10,.pop .r11,
    .pop .r12,.pop .r13,.pop .r14,.pop .r15]

def handOver (vector : Fin 256) : List Instruction :=
  [.movValue .rdi (BitVec.ofNat 64 vector),.movFrom .rsi .rsp (15 * 8),.mov .rdx .rsp,
    .mov .rbp .rsp,.and .rsp (-16),.sub .rsp 8]

def stub (dummy : List Instruction) (routine : Routine) (vector : Fin 256) : List Instruction :=
  dummy ++ saveRegs ++ handOver vector ++ [.call routine,.mov .rsp .rbp] ++ restoreRegs ++ [.add .rsp 8]

def macIRQStub (vector : Fin 256) : List Instruction := stub [.pushValue 0] .irqHandler vector

def macISRErrStub (vector : Fin 256) : List Instruction := stub [] .exceptionHandler vector

def macISRNoErrStub (vector : Fin 256) : List Instruction := stub [.pushValue 0] .exceptionHandler vector

inductive StubKind where
  | irq
  | isrErr
  | isrNoErr
deriving DecidableEq, Repr

namespace StubKind

def code : StubKind → Fin 256 → List Instruction
  | irq => macIRQStub
  | isrErr => macISRErrStub
  | isrNoErr => macISRNoErrStub

def routine : StubKind → Routine
  | irq => .irqHandler
  | isrErr => .exceptionHandler
  | isrNoErr => .exceptionHandler

end StubKind

structure Interrupted where
  registers : Register → Word
  rip : Word
  cs : Word
  rflags : Word
  ss : Word

/-- The processor pushes an error code exactly for the vectors whose stubs rest on it. -/
def StubKind.pushed (errorCode : Word) : StubKind → List Word
  | isrErr => [errorCode]
  | irq => []
  | isrNoErr => []

/-- The error code of the frame, the dummy one where the processor pushes none. -/
def StubKind.frameCode (errorCode : Word) : StubKind → Word
  | isrErr => errorCode
  | irq => 0
  | isrNoErr => 0

/-- The processor delivers an interrupt: it begins at the stack pointer that it chooses
(the interrupted one rounded down, or the one of the gate's IST entry). -/
def deliver (kind : StubKind) (interrupted : Interrupted) (errorCode stack : Word) (memory : Memory) : State :=
  ([interrupted.ss,interrupted.registers .rsp,interrupted.rflags,interrupted.cs,interrupted.rip] ++ kind.pushed errorCode).foldl
    State.pushWord ⟨Function.update interrupted.registers .rsp stack,memory⟩

def iretq (state : State) : Interrupted :=
  let top := state.registers .rsp
  { registers := Function.update state.registers .rsp (load state.memory (top + 24))
    rip := load state.memory top
    cs := load state.memory (top + 8)
    rflags := load state.memory (top + 16)
    ss := load state.memory (top + 32) }

structure Registers where
  rax : Word
  rbx : Word
  rcx : Word
  rdx : Word
  rsi : Word
  rdi : Word
  rbp : Word
  r8 : Word
  r9 : Word
  r10 : Word
  r11 : Word
  r12 : Word
  r13 : Word
  r14 : Word
  r15 : Word
  error_code : Word
  rip : Word
  cs : Word
  rflags : Word
  user_rsp : Word
  ss : Word
deriving DecidableEq, Repr

/-- What a pointer to `Registers` points at: the fields stand one after the other. -/
def Registers.read (memory : Memory) (pointer : Word) : Registers :=
  let field (index : Nat) := load memory (pointer + BitVec.ofNat 64 (8 * index))
  ⟨field 0,field 1,field 2,field 3,field 4,field 5,field 6,field 7,field 8,field 9,field 10,field 11,field 12,field 13,
    field 14,field 15,field 16,field 17,field 18,field 19,field 20⟩

def Interrupted.frame (interrupted : Interrupted) (errorCode : Word) : Registers where
  rax := interrupted.registers .rax
  rbx := interrupted.registers .rbx
  rcx := interrupted.registers .rcx
  rdx := interrupted.registers .rdx
  rsi := interrupted.registers .rsi
  rdi := interrupted.registers .rdi
  rbp := interrupted.registers .rbp
  r8 := interrupted.registers .r8
  r9 := interrupted.registers .r9
  r10 := interrupted.registers .r10
  r11 := interrupted.registers .r11
  r12 := interrupted.registers .r12
  r13 := interrupted.registers .r13
  r14 := interrupted.registers .r14
  r15 := interrupted.registers .r15
  error_code := errorCode
  rip := interrupted.rip
  cs := interrupted.cs
  rflags := interrupted.rflags
  user_rsp := interrupted.registers .rsp
  ss := interrupted.ss

end BorealOS.Interrupts.Stub
