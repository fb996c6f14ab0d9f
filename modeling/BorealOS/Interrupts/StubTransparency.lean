import BorealOS.Interrupts.Stub
import BorealOS.Utility.Math

/-! The stubs are transparent. What the processor and the stub push is one row of
words on the stack; the routine finds it as a `Registers`, and the stub puts the
registers back from it. -/
namespace BorealOS.Interrupts.Stub

open StackMemory

/-- Nothing but the stack pointer has changed, and a row of words has been pushed. -/
structure Stacked (registers : Register → Word) (stack : Word) (row : List Word) (state : State) : Prop where
  others : ∀ register, register ≠ .rsp → state.registers register = registers register
  top : state.registers .rsp = stack - BitVec.ofNat 64 (8 * row.length)
  row : words state.memory (state.registers .rsp) row.length = row

namespace Stacked

variable {registers : Register → Word} {stack : Word} {row : List Word} {state : State}

theorem pushWord (stacked : Stacked registers stack row state) (room : 8 * (row.length + 1) ≤ 2 ^ 64) (value : Word) :
    Stacked registers stack (value::row) (state.pushWord value) := by
  refine ⟨fun register other => ?_,?_,?_⟩
  · rw [State.pushWord_of_ne state value other]
    exact stacked.others register other
  · rw [State.pushWord_rsp,stacked.top,List.length_cons]
    bv_omega
  · rw [State.pushWord_rsp,State.pushWord_memory,List.length_cons,words_push _ _ _ room,stacked.row]

theorem pushAll (stacked : Stacked registers stack row state) (values : List Word)
    (room : 8 * (values.length + row.length) ≤ 2 ^ 64) :
    Stacked registers stack (values.reverse ++ row) (values.foldl State.pushWord state) := by
  induction values generalizing row state with
  | nil => exact stacked
  | cons value values ih =>
    rw [List.length_cons] at room
    rw [List.foldl_cons,List.reverse_cons,List.append_assoc]
    apply ih (stacked.pushWord (by omega) value)
    rw [List.length_cons]
    omega

end Stacked

section

variable {environment : Environment}

theorem run_append (first second : List Instruction) (state : State) :
    run environment (first ++ second) state = (run environment first state).bind (run environment second) := by
  induction first generalizing state with
  | nil => rfl
  | cons instruction first ih => simp only [List.cons_append,run,ih,Option.bind_assoc]

theorem calls_append (first second : List Instruction) (state : State) :
    calls environment (first ++ second) state =
      calls environment first state ++ (run environment first state).elim [] (calls environment second) := by
  induction first generalizing state with
  | nil => rfl
  | cons instruction first ih =>
    simp only [List.cons_append,calls,run]
    cases execute environment state instruction with
    | none => simp
    | some next => simp [ih]

theorem run_pushes {registers : Register → Word} {stack : Word} {row : List Word} {state : State}
    (stacked : Stacked registers stack row state) (list : List Register) (apart : .rsp ∉ list)
    (room : 8 * (list.length + row.length) ≤ 2 ^ 64) :
    run environment (list.map .push) state = some ((list.map registers).foldl State.pushWord state) := by
  induction list generalizing row state with
  | nil => rfl
  | cons register list ih =>
    rw [List.mem_cons,not_or] at apart
    rw [List.length_cons] at room
    have value := stacked.others register (Ne.symm apart.1)
    simp only [List.map_cons,List.foldl_cons,run,execute,value,Option.bind_some]
    apply ih (stacked.pushWord (by omega) (registers register)) apart.2
    rw [List.length_cons]
    omega

theorem run_pops (saved : Register → Word) (list : List Register) (rest : List Word) (apart : .rsp ∉ list) {state : State}
    (row : words state.memory (state.registers .rsp) (list.length + rest.length) = list.map saved ++ rest) :
    ∃ next, run environment (list.map .pop) state = some next ∧
      next.registers .rsp = state.registers .rsp + BitVec.ofNat 64 (8 * list.length) ∧
        words next.memory (next.registers .rsp) rest.length = rest ∧
          ∀ register, register ≠ .rsp →
            next.registers register = if register ∈ list then saved register else state.registers register := by
  induction list generalizing state with
  | nil => exact ⟨state,rfl,by simp,by simpa using row,fun register _ => by simp⟩
  | cons first list ih =>
    rw [List.mem_cons,not_or] at apart
    have distinct : first ≠ .rsp := Ne.symm apart.1
    rw [List.length_cons,Nat.add_right_comm,words_cons,List.map_cons,List.cons_append,List.cons.injEq] at row
    have top : ((state.set .rsp (state.registers .rsp + 8)).set first (saved first)).registers .rsp =
        state.registers .rsp + 8 := by
      simp [Ne.symm distinct]
    obtain ⟨next,ran,moved,left,restored⟩ := @ih apart.2
      ((state.set .rsp (state.registers .rsp + 8)).set first (saved first)) (by rw [top]; exact row.2)
    refine ⟨next,?_,?_,left,fun register other => ?_⟩
    · simp only [List.map_cons,run,execute,row.1,Option.bind_some]
      exact ran
    · rw [moved,top,List.length_cons]
      bv_omega
    · rw [restored register other]
      by_cases again : register ∈ list
      · simp [again]
      · by_cases same : register = first
        · simp [same]
        · simp [again,same,other]

def generalRegisters : List Register :=
  [.rax,.rbx,.rcx,.rdx,.rsi,.rdi,.rbp,.r8,.r9,.r10,.r11,.r12,.r13,.r14,.r15]

theorem mem_generalRegisters (register : Register) : register ∈ generalRegisters ↔ register ≠ .rsp := by
  cases register <;> decide

theorem saveRegs_eq : saveRegs = generalRegisters.reverse.map .push := rfl

theorem restoreRegs_eq : restoreRegs = generalRegisters.map .pop := rfl

theorem run_saveRegs (environment : Environment) {registers : Register → Word} {stack : Word} {row : List Word} {state : State}
    (stacked : Stacked registers stack row state) (size : row.length = 6) :
    ∃ next, run environment saveRegs state = some next ∧ Stacked registers stack (generalRegisters.map registers ++ row) next := by
  have count : generalRegisters.length = 15 := rfl
  have apart : .rsp ∉ generalRegisters.reverse := by decide
  have pushed := stacked.pushAll (generalRegisters.reverse.map registers) (by simp [count,size])
  rw [← List.map_reverse,List.reverse_reverse] at pushed
  refine ⟨_,?_,pushed⟩
  rw [saveRegs_eq]
  exact run_pushes stacked generalRegisters.reverse apart (by simp [count,size])

/-- What the routine is given: its arguments, and a stack below `rbp`. -/
structure HandedOver (vector : Fin 256) (state next : State) : Prop where
  memory : next.memory = state.memory
  first : next.registers .rdi = BitVec.ofNat 64 vector
  second : next.registers .rsi = load state.memory (state.registers .rsp + 15 * 8)
  third : next.registers .rdx = state.registers .rsp
  base : next.registers .rbp = state.registers .rsp
  top : next.registers .rsp = (state.registers .rsp &&& -16) - 8

theorem run_handOver (environment : Environment) (vector : Fin 256) (state : State) :
    ∃ next, run environment (handOver vector) state = some next ∧ HandedOver vector state next :=
  ⟨_,rfl,by constructor <;> simp⟩

theorem and_sixteen (address : Word) : (address &&& -16).toNat = address.toNat / 16 * 16 := by
  have mask : (-16 : Word) = ~~~(BitVec.ofNat 64 (2^4) - 1) := by decide
  rw [mask]
  exact Utility.Math.alignDown_toNat address 4 (by decide)

theorem words_call {vector : Fin 256} {state next : State} (handed : HandedOver vector state next) {count : Nat}
    (small : count ≤ 21) (address : Word) :
    words (next.pushWord address).memory (state.registers .rsp) count = words state.memory (state.registers .rsp) count := by
  have low := and_sixteen (state.registers .rsp)
  rw [State.pushWord_memory,handed.memory,handed.top]
  apply words_store_apart
  · bv_omega
  · bv_omega

theorem calls_eq_nil {list : List Instruction} (silent : ∀ instruction ∈ list, ∀ routine, instruction ≠ .call routine)
    (state : State) : calls environment list state = [] := by
  induction list generalizing state with
  | nil => rfl
  | cons instruction list ih =>
    obtain ⟨first,rest⟩ := List.forall_mem_cons.mp silent
    have nothing : ∀ next, (next : Option State).elim [] (calls environment list) = [] := by
      intro next
      cases next with
      | none => rfl
      | some next => exact ih rest next
    simp only [calls,nothing,List.append_nil]

/-- A routine as the stubs need it: it keeps `rbp`, and it writes nothing of the stack
at and above the address in `rbp`, where the words of the frame are. -/
structure Conforms (entered returned : State) : Prop where
  base : returned.registers .rbp = entered.registers .rbp
  above : ∀ offset < 8 * 21, returned.memory (entered.registers .rbp + BitVec.ofNat 64 offset) =
    entered.memory (entered.registers .rbp + BitVec.ofNat 64 offset)

theorem run_return {registers : Register → Word} {row : List Word} {errorCode : Word} {entered returned : State}
    (conforms : Conforms entered returned) (size : row.length = 5)
    (saved : words entered.memory (entered.registers .rbp) 21 = generalRegisters.map registers ++ errorCode :: row) :
    ∃ final, run environment (.mov .rsp .rbp :: restoreRegs ++ [.add .rsp 8]) returned = some final ∧
      (∀ register, register ≠ .rsp → final.registers register = registers register) ∧
        final.registers .rsp = entered.registers .rbp + 128 ∧ words final.memory (final.registers .rsp) 5 = row := by
  have count : generalRegisters.length = 15 := rfl
  have kept : words returned.memory (entered.registers .rbp) 21 = generalRegisters.map registers ++ errorCode :: row :=
    (words_congr conforms.above).trans saved
  have top : (returned.set .rsp (returned.registers .rbp)).registers .rsp = entered.registers .rbp := by
    rw [State.set_self,conforms.base]
  obtain ⟨popped,ran,moved,left,restored⟩ := run_pops registers generalRegisters (errorCode::row) (by decide)
    (show words (returned.set .rsp (returned.registers .rbp)).memory _ _ = _ by
      rw [top,State.set_memory,List.length_cons,size,count]
      exact kept)
  rw [List.length_cons,size,words_cons,List.cons.injEq] at left
  refine ⟨popped.set .rsp (popped.registers .rsp + 8),?_,?_,?_,?_⟩
  · rw [List.cons_append,run,execute,Option.bind_some,run_append,restoreRegs_eq,ran]
    rfl
  · intro register other
    rw [State.set_of_ne _ _ other,restored register other,if_pos ((mem_generalRegisters register).mpr other)]
  · rw [State.set_self,moved,top,count]
    bv_omega
  · rw [State.set_self,State.set_memory]
    exact left.2

structure Entered (vector : Fin 256) (registers : Register → Word) (stack errorCode : Word) (row : List Word) (entered : State) :
    Prop where
  first : entered.registers .rdi = BitVec.ofNat 64 vector
  second : entered.registers .rsi = errorCode
  third : entered.registers .rdx = stack - 168
  base : entered.registers .rbp = stack - 168
  saved : words entered.memory (stack - 168) 21 = generalRegisters.map registers ++ errorCode :: row

theorem run_entry {dummy : List Instruction} (vector : Fin 256) {registers : Register → Word} {stack errorCode : Word}
    {row : List Word} {delivered middle : State} (framed : run environment dummy delivered = some middle)
    (stacked : Stacked registers stack (errorCode::row) middle) (size : row.length = 5) :
    ∃ saved before, run environment (dummy ++ saveRegs ++ handOver vector) delivered = some before ∧
      HandedOver vector saved before ∧
        Entered vector registers stack errorCode row (before.pushWord environment.returnAddress) := by
  obtain ⟨saved,save,stacked⟩ := run_saveRegs environment stacked (by simp [size])
  obtain ⟨before,hand,handed⟩ := run_handOver environment vector saved
  have count : (generalRegisters.map registers ++ errorCode :: row).length = 21 := by simp [generalRegisters,size]
  have top : saved.registers .rsp = stack - 168 := by
    rw [stacked.top,count]
    rfl
  have frame := stacked.row
  rw [count] at frame
  refine ⟨saved,before,?_,handed,?_,?_,?_,?_,?_⟩
  · rw [run_append,run_append,framed,Option.bind_some,save,Option.bind_some,hand]
  · rw [State.pushWord_of_ne _ _ (by decide),handed.first]
  · rw [State.pushWord_of_ne _ _ (by decide),handed.second]
    have fifteenth := congrArg (·[15]?) frame
    simpa [words,generalRegisters] using fifteenth
  · rw [State.pushWord_of_ne _ _ (by decide),handed.third,top]
  · rw [State.pushWord_of_ne _ _ (by decide),handed.base,top]
  · rw [← top,words_call handed (by decide),frame]

theorem no_call_before (vector : Fin 256) :
    ∀ instruction ∈ saveRegs ++ handOver vector, ∀ routine, instruction ≠ .call routine := by
  simp [saveRegs,handOver]

theorem stub_parts (dummy : List Instruction) (routine : Routine) (vector : Fin 256) : stub dummy routine vector =
    (dummy ++ saveRegs ++ handOver vector) ++ .call routine :: (.mov .rsp .rbp :: restoreRegs ++ [.add .rsp 8]) := by
  simp [stub]

theorem calls_stub {dummy : List Instruction} {routine : Routine} {vector : Fin 256} {delivered before : State}
    (silent : ∀ instruction ∈ dummy, ∀ routine, instruction ≠ .call routine)
    (entry : run environment (dummy ++ saveRegs ++ handOver vector) delivered = some before) :
    calls environment (stub dummy routine vector) delivered = [(routine,before.pushWord environment.returnAddress)] := by
  have once : calls environment (.call routine :: (.mov .rsp .rbp :: restoreRegs ++ [.add .rsp 8])) before =
      [(routine,before.pushWord environment.returnAddress)] := by
    rw [calls]
    cases execute environment before (.call routine) with
    | none => rfl
    | some returned =>
      rw [Option.elim_some,calls_eq_nil,List.append_nil]
      simp [restoreRegs]
  rw [stub_parts,calls_append,entry,Option.elim_some,once,calls_eq_nil,List.nil_append]
  intro instruction member
  rw [List.append_assoc,List.mem_append] at member
  rcases member with first | later
  · exact silent instruction first
  · exact no_call_before vector instruction later

/-- A stub whose frame is complete after the dummy error code: it calls its routine
once, and when the routine returns, the registers are as before and the frame of the
processor is on the stack. -/
theorem stub_of_framed {dummy : List Instruction} {routine : Routine} (vector : Fin 256) {registers : Register → Word}
    {stack errorCode : Word} {row : List Word} {delivered middle : State}
    (silent : ∀ instruction ∈ dummy, ∀ routine, instruction ≠ .call routine)
    (framed : run environment dummy delivered = some middle) (stacked : Stacked registers stack (errorCode::row) middle)
    (size : row.length = 5)
    (conforms : ∀ entered returned, environment.routine routine entered = some returned → Conforms entered returned) :
    ∃ entered, calls environment (stub dummy routine vector) delivered = [(routine,entered)] ∧
      Entered vector registers stack errorCode row entered ∧
        (environment.routine routine entered = none → run environment (stub dummy routine vector) delivered = none) ∧
          ∀ returned, environment.routine routine entered = some returned → ∃ final,
            run environment (stub dummy routine vector) delivered = some final ∧
              (∀ register, register ≠ .rsp → final.registers register = registers register) ∧
                final.registers .rsp = stack - 40 ∧ words final.memory (final.registers .rsp) 5 = row := by
  obtain ⟨_,before,entry,_,entered⟩ := run_entry vector framed stacked size
  refine ⟨before.pushWord environment.returnAddress,calls_stub silent entry,entered,?_,?_⟩
  · intro never
    rw [stub_parts,run_append,entry,Option.bind_some,run,execute,never,Option.bind_none]
  · intro returned back
    obtain ⟨final,ran,restored,top,left⟩ := run_return (conforms _ _ back) size (entered.base ▸ entered.saved)
    refine ⟨final,?_,restored,?_,left⟩
    · rw [stub_parts,run_append,entry,Option.bind_some,run,execute,back,Option.bind_some]
      exact ran
    · rw [top,entered.base]
      bv_omega

/-- What the processor pushes for every interrupt, the last word first. -/
def Interrupted.hardware (interrupted : Interrupted) : List Word :=
  [interrupted.rip,interrupted.cs,interrupted.rflags,interrupted.registers .rsp,interrupted.ss]

theorem deliver_stacked (kind : StubKind) (interrupted : Interrupted) (errorCode stack : Word) (memory : Memory) :
    Stacked interrupted.registers stack (kind.pushed errorCode ++ interrupted.hardware)
      (deliver kind interrupted errorCode stack memory) := by
  have empty : Stacked interrupted.registers stack [] ⟨Function.update interrupted.registers .rsp stack,memory⟩ := by
    refine ⟨fun register other => ?_,?_,rfl⟩
    · simp [other]
    · simp
  have pushed := empty.pushAll ([interrupted.ss,interrupted.registers .rsp,interrupted.rflags,interrupted.cs,interrupted.rip] ++
    kind.pushed errorCode) (by cases kind <;> simp [StubKind.pushed])
  have order : ([interrupted.ss,interrupted.registers .rsp,interrupted.rflags,interrupted.cs,interrupted.rip] ++
      kind.pushed errorCode).reverse ++ [] = kind.pushed errorCode ++ interrupted.hardware := by
    cases kind <;> rfl
  rw [order] at pushed
  exact pushed

theorem framed (environment : Environment) (kind : StubKind) (vector : Fin 256) (interrupted : Interrupted)
    (errorCode stack : Word) (memory : Memory) : ∃ dummy middle, kind.code vector = stub dummy kind.routine vector ∧
      (∀ instruction ∈ dummy, ∀ routine, instruction ≠ .call routine) ∧
        run environment dummy (deliver kind interrupted errorCode stack memory) = some middle ∧
          Stacked interrupted.registers stack (kind.frameCode errorCode :: interrupted.hardware) middle := by
  have stacked := deliver_stacked kind interrupted errorCode stack memory
  cases kind with
  | isrErr => exact ⟨[],_,rfl,by simp,rfl,stacked⟩
  | irq | isrNoErr => exact ⟨[.pushValue 0],_,rfl,by simp,rfl,stacked.pushWord (by simp [StubKind.pushed,Interrupted.hardware]) 0⟩

theorem read_of_words {memory : Memory} {pointer errorCode : Word} {interrupted : Interrupted}
    (row : words memory pointer 21 = generalRegisters.map interrupted.registers ++ errorCode :: interrupted.hardware) :
    Registers.read memory pointer = interrupted.frame errorCode := by
  simp only [words,generalRegisters,Interrupted.hardware,List.range,List.range.loop,List.map_cons,List.map_nil,
    List.cons_append,List.nil_append,List.cons.injEq] at row
  simp only [Registers.read,Interrupted.frame,row]

theorem iretq_of_words {final : State} {interrupted : Interrupted}
    (restored : ∀ register, register ≠ .rsp → final.registers register = interrupted.registers register)
    (row : words final.memory (final.registers .rsp) 5 = interrupted.hardware) : iretq final = interrupted := by
  obtain ⟨registers,rip,cs,rflags,ss⟩ := interrupted
  simp only [words,Interrupted.hardware,List.range,List.range.loop,List.map_cons,List.map_nil,List.cons.injEq,Nat.reduceMul,
    BitVec.add_zero,and_true] at row
  obtain ⟨top,second,third,fourth,fifth⟩ := row
  have same : Function.update final.registers .rsp (registers .rsp) = registers := by
    funext register
    by_cases other : register = .rsp
    · simp [other]
    · rw [Function.update_of_ne other,restored register other]
  simp only [iretq,BitVec.ofNat_eq_ofNat,top,second,third,fourth,fifth,same]

/-- Every stub is transparent: its routine is called once, with the vector, the error
code and a pointer to the interrupted context, and if the routine returns, `iretq`
finds the interrupted registers and the words that the processor pushed. -/
theorem stub_transparent (environment : Environment) (kind : StubKind) (vector : Fin 256) (interrupted : Interrupted)
    (errorCode stack : Word) (memory : Memory)
    (conforms : ∀ entered returned, environment.routine kind.routine entered = some returned → Conforms entered returned) :
    ∃ entered,
      calls environment (kind.code vector) (deliver kind interrupted errorCode stack memory) = [(kind.routine,entered)] ∧
      entered.registers .rdi = BitVec.ofNat 64 vector ∧ entered.registers .rsi = kind.frameCode errorCode ∧
      Registers.read entered.memory (entered.registers .rdx) = interrupted.frame (kind.frameCode errorCode) ∧
      (environment.routine kind.routine entered = none →
        run environment (kind.code vector) (deliver kind interrupted errorCode stack memory) = none) ∧
      ∀ returned, environment.routine kind.routine entered = some returned → ∃ final,
        run environment (kind.code vector) (deliver kind interrupted errorCode stack memory) = some final ∧
        (∀ register, register ≠ .rsp → final.registers register = interrupted.registers register) ∧
        final.registers .rsp = stack - 40 ∧ words final.memory (final.registers .rsp) 5 = interrupted.hardware ∧
        iretq final = interrupted := by
  obtain ⟨dummy,middle,code,silent,ran,stacked⟩ := framed environment kind vector interrupted errorCode stack memory
  obtain ⟨entered,once,given,never,back⟩ := stub_of_framed vector silent ran stacked rfl conforms
  rw [code]
  refine ⟨entered,once,given.first,given.second,?_,never,fun returned returns => ?_⟩
  · rw [given.third]
    exact read_of_words given.saved
  · obtain ⟨final,done,restored,top,row⟩ := back returned returns
    exact ⟨final,done,restored,top,row,iretq_of_words restored row⟩

end

/-- Routines that overwrite every register but `rbp` and all memory but the frame. -/
def wiping : Environment where
  routine _ entered := some ⟨fun register => if register = .rbp then entered.registers .rbp else 0,
    fun address => if (address - entered.registers .rbp).toNat < 168 then entered.memory address else 0⟩
  returnAddress := 0xFFFFFFFF80001000

theorem wiping_conforms (routine : Routine) (entered returned : State)
    (returns : wiping.routine routine entered = some returned) : Conforms entered returned := by
  rw [wiping,Option.some.injEq] at returns
  subst returns
  refine ⟨rfl,fun offset inside => ?_⟩
  have near : (entered.registers .rbp + BitVec.ofNat 64 offset - entered.registers .rbp).toNat < 168 := by bv_omega
  simp only [if_pos near]

def faulting : Interrupted where
  registers register := if register = .rsp then 0xFFFFFFFF80100000 else 7
  rip := 0xFFFFFFFF80002000
  cs := 8
  rflags := 0x202
  ss := 0x10

theorem stub_transparent_pageFault : ∃ entered final,
    calls wiping (macISRErrStub 14) (deliver .isrErr faulting 2 0xFFFFFFFF80100000 fun _ => 0) = [(.exceptionHandler,entered)] ∧
      entered.registers .rdi = 14 ∧ entered.registers .rsi = 2 ∧
        run wiping (macISRErrStub 14) (deliver .isrErr faulting 2 0xFFFFFFFF80100000 fun _ => 0) = some final ∧
          iretq final = faulting := by
  obtain ⟨entered,once,vector,code,_,_,back⟩ := stub_transparent wiping .isrErr 14 faulting 2 0xFFFFFFFF80100000 (fun _ => 0)
    (wiping_conforms .exceptionHandler)
  obtain ⟨final,ran,_,_,_,same⟩ := back _ rfl
  exact ⟨entered,final,once,vector,code,ran,same⟩

end BorealOS.Interrupts.Stub
