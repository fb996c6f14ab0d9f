import BorealOS.IO.Serial

/-! What goes over the line. After `Initialize`, the port sends the bytes of whole calls
of `Write` one after the other, in the order in which the calls take the lock, each byte
once and under the same settings, however the calls and the device mix. -/
namespace BorealOS.IO.Serial

open Threading

variable {Id Caller : Type}

theorem transmitEmpty_ne_zero (uart : UART) : transmitEmpty uart ≠ 0 ↔ uart.holding = [] := by
  have bits : ∀ receives holds : Bool, ((if receives then 0 else 0x01 : UInt8) ||| (if holds then 0x60 else 0)) &&& 0x20 ≠ 0 ↔
      holds = true := by decide
  have status := bits (decide (uart.received = [])) (decide (uart.holding = []))
  simpa [transmitEmpty,UART.lineStatus] using status

def WritePoint.left : WritePoint → List UInt8
  | .poll left => left
  | .send byte left => byte :: left

def bytesLeft (current : Option (List UInt8 × WritePoint)) : List UInt8 := (current.map (·.2.left)).getD []

def bytesGiven (current : Option (List UInt8 × WritePoint)) : List UInt8 := (current.map Prod.fst).getD []

/-- The frames that were sent and the bytes that the device holds are the bytes of the
finished calls and those of the one that runs, less the bytes it has left. -/
structure Transmitting (settings : LineSettings) (before : List (LineSettings × UInt8))
    (history : List (Caller × List UInt8 × Unit)) (current : Option (List UInt8 × WritePoint)) (uart : UART) : Prop where
  latch : uart.divisorLatch = false
  configured : uart.settings = settings
  empty : ∀ data byte left, current = some (data,.send byte left) → uart.holding = []
  frames : ∃ frames, uart.sent = before ++ frames ∧ (∀ frame ∈ frames, frame.1 = settings) ∧
    frames.map Prod.snd ++ uart.holding ++ bytesLeft current = history.flatMap (·.2.1) ++ bytesGiven current

theorem outb_empty {uart : UART} (latch : uart.divisorLatch = false) (empty : uart.holding = []) (byte : UInt8) :
    uart.outb 0 byte = { uart with holding := [byte] } := by
  have room : 0 < uart.depth := by
    rw [UART.depth]
    split <;> omega
  simp [UART.outb,latch,empty,room]

theorem transmitting_kept (settings : LineSettings) (before : List (LineSettings × UInt8)) :
    Exclusive.Kept writeBody (fun uart next => ∃ event, uart.step event = some next)
      (Transmitting settings before : List (Caller × List UInt8 × Unit) → _ → _ → Prop) where
  enter := by
    intro history data uart holds
    obtain ⟨frames,sent,format,bytes⟩ := holds.frames
    refine ⟨holds.latch,holds.configured,?_,frames,sent,format,?_⟩
    · intro _ byte left same
      cases same
    · simp only [bytesLeft,bytesGiven,Option.map_none,Option.getD_none,List.append_nil] at bytes
      rw [bytes]
      rfl
  advance := by
    intro history data point after uart next holds moved
    obtain ⟨frames,sent,format,bytes⟩ := holds.frames
    cases point with
    | poll left =>
      cases left with
      | nil => simp [writeBody,WritePoint.advance] at moved
      | cons byte left =>
        simp only [writeBody,WritePoint.advance,Option.some.injEq,Prod.mk.injEq] at moved
        obtain ⟨rfl,rfl⟩ := moved
        by_cases busy : transmitEmpty uart = 0
        · rw [if_pos busy]
          exact holds
        · rw [if_neg busy]
          refine ⟨holds.latch,holds.configured,?_,frames,sent,format,bytes⟩
          intro _ _ _ _
          exact (transmitEmpty_ne_zero uart).mp busy
    | send byte left =>
      simp only [writeBody,WritePoint.advance,Option.some.injEq,Prod.mk.injEq] at moved
      obtain ⟨rfl,rfl⟩ := moved
      have empty := holds.empty data byte left rfl
      rw [outb_empty holds.latch empty]
      refine ⟨holds.latch,holds.configured,?_,frames,sent,format,?_⟩
      · intro _ _ _ same
        cases same
      · rw [empty,List.append_nil] at bytes
        exact (List.append_assoc _ [byte] left).trans bytes
  finish := by
    intro history caller data point answer uart holds done
    obtain ⟨frames,sent,format,bytes⟩ := holds.frames
    cases point with
    | poll left =>
      cases left with
      | nil =>
        refine ⟨holds.latch,holds.configured,?_,frames,sent,format,?_⟩
        · intro _ _ _ same
          cases same
        · simp only [bytesLeft,bytesGiven,WritePoint.left,Option.map_some,Option.map_none,Option.getD_some,Option.getD_none,
            List.append_nil] at bytes ⊢
          rw [bytes,List.flatMap_append,List.flatMap_singleton]
      | cons byte left => simp [writeBody] at done
    | send byte left => simp [writeBody] at done
  environment := by
    rintro history current uart next holds ⟨event,moved⟩
    obtain ⟨frames,sent,format,bytes⟩ := holds.frames
    cases event with
    | shift =>
      simp only [UART.step] at moved
      split at moved
      · cases moved
      · rename_i byte later full
        rw [Option.some.injEq] at moved
        subst moved
        refine ⟨holds.latch,holds.configured,?_,frames ++ [(uart.settings,byte)],?_,?_,?_⟩
        · intro data first left same
          rw [holds.empty data first left same] at full
          cases full
        · simp [sent]
        · intro frame member
          rcases List.mem_append.mp member with old | new
          · exact format frame old
          · rw [List.mem_singleton.mp new]
            exact holds.configured
        · rw [← bytes,full]
          simp
    | receive byte =>
      simp only [UART.step,Option.some.injEq] at moved
      subst moved
      exact ⟨holds.latch,holds.configured,holds.empty,frames,sent,format,bytes⟩

/-- `Initialize` of any device finds the port, and leaves it with its buffer empty, the
divisor 3, and eight bits, no parity and one stop bit. -/
theorem initializePort_configures (uart : UART) : (initializePort uart).2 = true ∧
    (initializePort uart).1.divisorLatch = false ∧ (initializePort uart).1.settings = ⟨3,3⟩ ∧
      (initializePort uart).1.holding = [] ∧ (initializePort uart).1.sent = uart.sent := by
  have early : (uart.outb 1 0x00).sent = uart.sent := by
    simp only [UART.outb]
    split <;> rfl
  generalize ready : uart.outb 1 0x00 = first at early
  have ends : (initializePort uart).1 = { first with
      divisorLow := 3, divisorHigh := 0, lineControl := 3, fifoControl := 0xC7, holding := [], modemControl := 0x0B } := by
    simp only [initializePort,ready]
    simp [UART.outb,UART.divisorLatch]
  have exists_ : (initializePort uart).2 = portExists (initializePort uart).1 1000 := rfl
  rw [exists_,ends]
  refine ⟨?_,by simp [UART.divisorLatch],by simp [UART.settings],rfl,early⟩
  rw [portExists,if_pos]
  simp [transmitEmpty_ne_zero]

abbrev SerialMachine (Id : Type) := CallMachine Id (List UInt8) WritePoint UART Unit

variable [DecidableEq Id]

/-- The device alone empties its buffer. -/
theorem run_drains (machine : SerialMachine Id) : ∃ reached,
    Transition.run (CallMachine.step writeBody UART.step) machine
        (List.replicate machine.shared.holding.length (.inr .shift)) = some reached ∧
      reached.shared.holding = [] ∧ reached.threads = machine.threads ∧ reached.history = machine.history := by
  induction full : machine.shared.holding generalizing machine with
  | nil => exact ⟨machine,rfl,full,rfl,rfl⟩
  | cons byte later ih =>
    obtain ⟨reached,ran,empty,threads,history⟩ := ih { machine with
      shared := { machine.shared with holding := later, sent := machine.shared.sent ++ [(machine.shared.settings,byte)] } } rfl
    refine ⟨reached,?_,empty,threads,history⟩
    rw [List.length_cons,List.replicate_succ,Transition.run]
    simp only [CallMachine.step,UART.step,full,Option.map_some,Option.bind_some]
    exact ran

/-- A `Write` that has the lock can end: the device sends what it holds, and the loop
goes on. -/
theorem write_ends {machine : SerialMachine Id} {id : Id} {data : List UInt8} {point : WritePoint}
    (code : (machine.threads.processors id).running.phase = .code)
    (task : (machine.threads.processors id).running.task = .running data point) :
    ∃ labels reached, Transition.run (CallMachine.step writeBody UART.step) machine labels = some reached ∧
      reached.history = machine.history ++ [(machine.threads.top id,data,())] := by
  have send : ∀ (left : List UInt8) (machine : SerialMachine Id), (machine.threads.processors id).running.phase = .code →
      (machine.threads.processors id).running.task = .running data (.poll left) →
        ∃ labels reached, Transition.run (CallMachine.step writeBody UART.step) machine labels = some reached ∧
          reached.history = machine.history ++ [(machine.threads.top id,data,())] := by
    intro left
    induction left with
    | nil =>
      intro machine code task
      have done : writeBody.answer (.poll []) = some () := rfl
      refine ⟨[.inl (id,.finish)],{ machine.withTask id (.returning ()) machine.shared with
        history := machine.history ++ [(machine.threads.top id,data,())] },?_,rfl⟩
      rw [Transition.run,CallMachine.step_finish code task done,Option.bind_some,Transition.run]
    | cons byte left ih =>
      intro machine code task
      obtain ⟨empty,drained,none,threads,history⟩ := run_drains machine
      rw [← threads] at code task
      have polled : writeBody.advance (.poll (byte :: left)) empty.shared = some (.send byte left,empty.shared) := by
        simp only [writeBody,WritePoint.advance]
        rw [if_neg ((transmitEmpty_ne_zero empty.shared).mpr none)]
      have first : CallMachine.step writeBody UART.step empty (.inl (id,.advance)) =
          some (empty.withTask id (.running data (.send byte left)) empty.shared) := CallMachine.step_advance code task polled
      generalize turned : empty.withTask id (.running data (.send byte left)) empty.shared = sending at first
      have code' : (sending.threads.processors id).running.phase = .code := by simp [← turned,code]
      have task' : (sending.threads.processors id).running.task = .running data (.send byte left) := by simp [← turned]
      have second : CallMachine.step writeBody UART.step sending (.inl (id,.advance)) =
          some (sending.withTask id (.running data (.poll left)) (sending.shared.outb 0 byte)) :=
        CallMachine.step_advance code' task' rfl
      obtain ⟨labels,reached,ran,ends⟩ := ih (sending.withTask id (.running data (.poll left)) (sending.shared.outb 0 byte))
        (by simp [code']) (by simp)
      refine ⟨List.replicate machine.shared.holding.length (.inr .shift) ++ .inl (id,.advance) :: .inl (id,.advance) :: labels,
        reached,?_,?_⟩
      · rw [Transition.run_append,drained,Option.bind_some,Transition.run,first,Option.bind_some,Transition.run,second,
          Option.bind_some]
        exact ran
      · rw [ends,CallMachine.withTask_top,← turned,CallMachine.withTask_top,Machine.top,threads]
        simp [CallMachine.withTask,history,Machine.top]
  cases point with
  | poll left => exact send left machine code task
  | send byte left =>
    have step : CallMachine.step writeBody UART.step machine (.inl (id,.advance)) =
        some (machine.withTask id (.running data (.poll left)) (machine.shared.outb 0 byte)) :=
      CallMachine.step_advance code task rfl
    obtain ⟨labels,reached,ran,ends⟩ := send left (machine.withTask id (.running data (.poll left)) (machine.shared.outb 0 byte))
      (by simp [code]) (by simp)
    refine ⟨.inl (id,.advance) :: labels,reached,?_,?_⟩
    · rw [Transition.run,step,Option.bind_some]
      exact ran
    · rw [ends]
      simp [CallMachine.withTask,Machine.top]

/-- From the registers that `Initialize` leaves on any device, and over every
interleaving of callers, handlers and the device: all that was sent since went out with
divisor 3, eight bits and no parity; the bytes sent and held are those of the finished
calls in the order of the lock, then what the one call that runs has written of its
own; and that call can always end. -/
theorem serial_writes_whole {machine final : SerialMachine Id} {uart : UART}
    {trace : List ((Id × CallEvent (List UInt8)) ⊕ LineEvent)} (initial : machine.Initial)
    (configured : machine.shared = (initializePort uart).1)
    (ran : Transition.run (CallMachine.step writeBody UART.step) machine trace = some final) :
    ∃ frames, final.shared.sent = uart.sent ++ frames ∧ (∀ frame ∈ frames, frame.1 = ⟨3,3⟩) ∧
      ((∀ place, final.inside place = none) → frames.map Prod.snd ++ final.shared.holding = final.history.flatMap (·.2.1)) ∧
      ∀ place data point, final.inside place = some (data,point) →
        frames.map Prod.snd ++ final.shared.holding ++ point.left = final.history.flatMap (·.2.1) ++ data ∧
          ∃ labels reached, Transition.run (CallMachine.step writeBody UART.step) final labels = some reached ∧
            reached.history = final.history ++ [(place,data,())] := by
  obtain ⟨_,latch,settings,holding,sent⟩ := initializePort_configures uart
  rw [← configured] at latch settings holding sent
  have start : Transmitting ⟨3,3⟩ uart.sent ([] : List ((Id × Nat) × List UInt8 × Unit)) none machine.shared := by
    refine ⟨latch,settings,?_,[],by simp [sent],by simp,by simp [holding,bytesLeft,bytesGiven]⟩
    intro _ _ _ same
    cases same
  obtain ⟨sound,state,shows_,holds⟩ := CallMachine.run_satisfies (transmitting_kept ⟨3,3⟩ uart.sent) start initial ran
  obtain ⟨frames,made,format,bytes⟩ := holds.frames
  rw [shows_.shared] at made
  rw [shows_.shared,shows_.history] at bytes
  refine ⟨frames,made,format,?_,?_⟩
  · intro none
    cases current : state.current with
    | none => simpa [current,bytesLeft,bytesGiven] using bytes
    | some body =>
      have runs := (shows_.current body.1 body.2).mpr current
      rw [none] at runs
      cases runs
  · intro place data point runs
    obtain ⟨atTop,code,task⟩ := sound.running_body runs
    refine ⟨?_,?_⟩
    · rw [(shows_.current place (data,point)).mp runs] at bytes
      exact bytes
    · obtain ⟨labels,reached,ended,history⟩ := write_ends code task
      exact ⟨labels,reached,ended,by rw [history,← atTop]⟩

def blankUART : UART := ⟨0,0,0,0,0,0,[],[],[]⟩

def twoWriters : SerialMachine Bool :=
  ⟨⟨fun _ => false,fun _ => ⟨⟨true,[],.code,.idle⟩,[]⟩⟩,(initializePort blankUART).1,[]⟩

/-- The first of two bytes is on the line while another processor waits for the lock. -/
def writeTrace : List ((Bool × CallEvent (List UInt8)) ⊕ LineEvent) :=
  [CallMachine.labels false [.call [0x4F,0x4B],.lock,.proceed,.proceed,.proceed,.proceed],
    CallMachine.labels true [.call [0x21],.lock,.proceed,.proceed],CallMachine.labels false [.enter,.advance,.advance],
    CallMachine.labels true [.proceed],CallMachine.labels false [.advance],[.inr .shift]].flatten

theorem serial_writes_whole_writeTrace : ∃ final,
    Transition.run (CallMachine.step writeBody UART.step) twoWriters writeTrace = some final ∧
      final.inside (false,0) = some ([0x4F,0x4B],.poll [0x4B]) ∧
        ∃ labels reached, Transition.run (CallMachine.step writeBody UART.step) final labels = some reached ∧
          reached.history = [((false,0),[0x4F,0x4B],())] := by
  have runs : (Transition.run (CallMachine.step writeBody UART.step) twoWriters writeTrace).map
      (fun final => (final.inside (false,0),final.history.isEmpty)) = some (some ([0x4F,0x4B],.poll [0x4B]),true) := by
    decide +kernel
  obtain ⟨final,ran,ends⟩ := Option.map_eq_some_iff.mp runs
  rw [Prod.mk.injEq,List.isEmpty_iff] at ends
  have initial : CallMachine.Initial twoWriters := ⟨⟨fun _ => rfl,fun _ => ⟨rfl,rfl⟩⟩,fun _ => rfl,rfl⟩
  obtain ⟨_,_,_,_,current⟩ := serial_writes_whole initial rfl ran
  have goes_on := (current _ _ _ ends.1).2
  rw [ends.2] at goes_on
  exact ⟨final,ran,ends.1,goes_on⟩

end BorealOS.IO.Serial
