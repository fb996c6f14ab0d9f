import BorealOS.Interrupts.RedirectionTable
import BorealOS.Library.Transition

/-! Interprocessor interrupts. `SendIPI` reads and writes the command register of the
local APIC in steps of its own, and between any two of them an interrupt may run a handler
that sends too. The status bit of the register keeps the commands apart. -/
namespace BorealOS.Interrupts

inductive DestinationShorthand where
  | noShorthand
  | self
  | allIncludingSelf
  | allExcludingSelf
deriving DecidableEq, Repr

def DestinationShorthand.value : DestinationShorthand → BitVec 8
  | .noShorthand => 0#8
  | .self => 1#8
  | .allIncludingSelf => 2#8
  | .allExcludingSelf => 3#8

/-- The arguments of `SendIPI`. -/
structure IPI where
  vector : BitVec 8
  destination : BitVec 32
  deliveryMode : DeliveryMode
  triggerMode : TriggerMode
  destinationShorthand : DestinationShorthand
deriving DecidableEq, Repr

namespace IPI

def allExcludingSelf (vector : BitVec 8) : IPI := ⟨vector,0#32,.fixed,.edge,.allExcludingSelf⟩

def toSelf (vector : BitVec 8) : IPI := ⟨vector,0#32,.fixed,.edge,.self⟩

def high (ipi : IPI) : BitVec 32 := ipi.destination <<< 24

def low (ipi : IPI) : BitVec 32 :=
  ipi.vector.setWidth 32
    ||| ipi.deliveryMode.value.setWidth 32 <<< 8
    ||| 1#32 <<< 14
    ||| ipi.triggerMode.value.setWidth 32 <<< 15
    ||| ipi.destinationShorthand.value.setWidth 32 <<< 18

end IPI

/-- A command as the APIC reads it off the two words. The destination counts only where
no shorthand is given. -/
structure Command where
  vector : BitVec 8
  deliveryMode : DeliveryMode
  assert : Bool
  triggerMode : TriggerMode
  destinationShorthand : DestinationShorthand
  destination : Option (BitVec 8)
deriving DecidableEq, Repr

def DestinationShorthand.ofBits (bits : BitVec 2) : DestinationShorthand :=
  if bits = 0#2 then .noShorthand
  else if bits = 1#2 then .self
  else if bits = 2#2 then .allIncludingSelf
  else .allExcludingSelf

def Command.decode (words : BitVec 32 × BitVec 32) : Option Command := do
  let deliveryMode ← DeliveryMode.ofBits (words.2.extractLsb' 8 3)
  let destinationShorthand := DestinationShorthand.ofBits (words.2.extractLsb' 18 2)
  some {
    vector := words.2.extractLsb' 0 8
    deliveryMode
    assert := words.2.getLsbD 14
    triggerMode := if words.2.getLsbD 15 then .level else .edge
    destinationShorthand
    destination := if destinationShorthand = .noShorthand then some (words.1.extractLsb' 24 8) else none }

/-- What a call asks for. -/
def IPI.command (ipi : IPI) : Command where
  vector := ipi.vector
  deliveryMode := ipi.deliveryMode
  assert := true
  triggerMode := ipi.triggerMode
  destinationShorthand := ipi.destinationShorthand
  destination := if ipi.destinationShorthand = .noShorthand then some (ipi.destination.setWidth 8) else none

namespace IPI

/-- All of the lower half but the vector. -/
private def options (deliveryMode : DeliveryMode) (triggerMode : TriggerMode) (shorthand : DestinationShorthand) : BitVec 32 :=
  deliveryMode.value.setWidth 32 <<< 8
    ||| 1#32 <<< 14
    ||| triggerMode.value.setWidth 32 <<< 15
    ||| shorthand.value.setWidth 32 <<< 18

private theorem low_eq (ipi : IPI) : ipi.low =
    ipi.vector.setWidth 32 ||| options ipi.deliveryMode ipi.triggerMode ipi.destinationShorthand := by
  simp only [low,options,BitVec.or_assoc]

private theorem options_fields (deliveryMode : DeliveryMode) (triggerMode : TriggerMode) (shorthand : DestinationShorthand) :
    (options deliveryMode triggerMode shorthand).extractLsb' 0 8 = 0#8 ∧
      (options deliveryMode triggerMode shorthand).extractLsb' 8 3 = deliveryMode.value.setWidth 3 ∧
      (options deliveryMode triggerMode shorthand).getLsbD 14 = true ∧
      (options deliveryMode triggerMode shorthand).getLsbD 15 = decide (triggerMode = .level) ∧
      DestinationShorthand.ofBits ((options deliveryMode triggerMode shorthand).extractLsb' 18 2) = shorthand := by
  cases deliveryMode <;> cases triggerMode <;> cases shorthand <;> decide

private theorem vector_above (vector : BitVec 8) (start len : Nat) (above : 8 ≤ start) :
    (vector.setWidth 32).extractLsb' start len = BitVec.ofNat len 0 := by
  apply BitVec.eq_of_getLsbD_eq
  intro k bound
  simp only [BitVec.getLsbD_extractLsb',BitVec.getLsbD_setWidth,BitVec.getLsbD_zero]
  rw [BitVec.getLsbD_of_ge vector (start + k) (by omega)]
  simp

/-- The words of a call give the command it asks for, as far as the destination is the
one of the call. -/
theorem decode_low (ipi : IPI) (high : BitVec 32) : Command.decode (high,ipi.low) =
    some { ipi.command with
      destination := if ipi.destinationShorthand = .noShorthand then some (high.extractLsb' 24 8) else none } := by
  obtain ⟨low,mode,level,trigger,shorthand⟩ := options_fields ipi.deliveryMode ipi.triggerMode ipi.destinationShorthand
  have vector : ipi.low.extractLsb' 0 8 = ipi.vector := by
    rw [low_eq,BitVec.extractLsb'_or,low,BitVec.or_zero,BitVec.extractLsb'_setWidth_of_le (by omega)]
    exact BitVec.extractLsb'_eq_self
  have bits : ∀ k, 8 ≤ k → ipi.low.getLsbD k =
      (options ipi.deliveryMode ipi.triggerMode ipi.destinationShorthand).getLsbD k := by
    intro k above
    rw [low_eq,BitVec.getLsbD_or,BitVec.getLsbD_setWidth,BitVec.getLsbD_of_ge ipi.vector k above]
    simp
  simp only [Command.decode,vector,bits 14 (by omega),bits 15 (by omega),level,trigger]
  rw [low_eq,BitVec.extractLsb'_or,BitVec.extractLsb'_or,vector_above _ _ _ (by omega),vector_above _ _ _ (by omega),
    BitVec.zero_or,BitVec.zero_or,mode,shorthand,RedirectionEntry.ofBits_value]
  simp only [command,Option.bind_eq_bind,Option.bind_some,Option.some.injEq,Command.mk.injEq,true_and,and_true]
  cases ipi.triggerMode <;> simp

theorem extractLsb'_high (ipi : IPI) : ipi.high.extractLsb' 24 8 = ipi.destination.setWidth 8 := by
  apply BitVec.eq_of_getLsbD_eq
  intro k bound
  simp only [high,BitVec.getLsbD_extractLsb',BitVec.getLsbD_shiftLeft,BitVec.getLsbD_setWidth]
  grind

end IPI

/-- The command register of a local APIC, with the command that waits for the bus and
those that were sent. -/
structure CommandRegister where
  high : BitVec 32
  low : BitVec 32
  pending : Option (BitVec 32 × BitVec 32)
  bus : List (BitVec 32 × BitVec 32)
deriving DecidableEq, Repr

namespace CommandRegister

/-- Bit 12 of the lower half shows whether a command waits. -/
def readLow (register : CommandRegister) : BitVec 32 :=
  if register.pending.isSome then register.low ||| 1#32 <<< 12 else register.low &&& ~~~(1#32 <<< 12)

def writeHigh (register : CommandRegister) (value : BitVec 32) : CommandRegister := { register with high := value }

/-- A write of the lower half gives a command. One that still waits is lost. -/
def writeLow (register : CommandRegister) (value : BitVec 32) : CommandRegister :=
  { register with low := value, pending := some (register.high,value) }

def busy (register : CommandRegister) : Bool := register.readLow &&& 1#32 <<< 12 ≠ 0#32

def commands (register : CommandRegister) : List (BitVec 32 × BitVec 32) := register.bus ++ register.pending.toList

@[simp] theorem pending_writeHigh (register : CommandRegister) (value : BitVec 32) :
    (register.writeHigh value).pending = register.pending := rfl

@[simp] theorem commands_writeHigh (register : CommandRegister) (value : BitVec 32) :
    (register.writeHigh value).commands = register.commands := rfl

theorem busy_eq (register : CommandRegister) : register.busy = register.pending.isSome := by
  cases waits : register.pending.isSome with
  | true =>
    simp only [busy,readLow,waits,if_true,decide_eq_true_eq]
    intro zero
    have bit := congrArg (fun word : BitVec 32 => word.getLsbD 12) zero
    simp at bit
  | false =>
    simp only [busy,readLow,waits,Bool.false_eq_true,if_false,decide_eq_false_iff_not,not_not]
    rw [BitVec.and_assoc,BitVec.not_and_self]
    exact BitVec.and_zero

end CommandRegister

/-- How far a context is in a call of `SendIPI`. -/
inductive SendIPI where
  | idle
  | waitIdle (ipi : IPI)
  | writeHigh (ipi : IPI)
  | writeLow (ipi : IPI)
  | waitSent (ipi : IPI)
deriving DecidableEq, Repr

/-- A processor with its contexts, the calls that gave their command, in that order, and
those that have returned. -/
structure Sender where
  icr : CommandRegister
  running : SendIPI
  interrupted : List SendIPI
  sent : List IPI
  returned : List IPI
deriving DecidableEq, Repr

inductive SendEvent where
  | call (ipi : IPI)
  | proceed
  | interrupt
  | resume
  | deliver
deriving DecidableEq, Repr

namespace Sender

def proceed (sender : Sender) : Option Sender :=
  match sender.running with
  | .idle => none
  | .waitIdle ipi =>
    if sender.icr.busy then some sender
    else if ipi.destinationShorthand = .noShorthand then some { sender with running := .writeHigh ipi }
    else some { sender with running := .writeLow ipi }
  | .writeHigh ipi => some { sender with icr := sender.icr.writeHigh ipi.high, running := .writeLow ipi }
  | .writeLow ipi =>
    some { sender with icr := sender.icr.writeLow ipi.low, running := .waitSent ipi, sent := sender.sent ++ [ipi] }
  | .waitSent ipi =>
    if sender.icr.busy then some sender
    else some { sender with running := .idle, returned := sender.returned ++ [ipi] }

def step (sender : Sender) : SendEvent → Option Sender
  | .call ipi => if sender.running = .idle then some { sender with running := .waitIdle ipi } else none
  | .proceed => sender.proceed
  | .interrupt => some { sender with running := .idle, interrupted := sender.running :: sender.interrupted }
  | .resume =>
    match sender.interrupted with
    | [] => none
    | below :: deeper => if sender.running = .idle then some { sender with running := below, interrupted := deeper } else none
  | .deliver =>
    sender.icr.pending.map fun command =>
      { sender with icr := { sender.icr with pending := none, bus := sender.icr.bus ++ [command] } }

def contexts (sender : Sender) : List SendIPI := sender.running :: sender.interrupted

def Initial (sender : Sender) : Prop :=
  sender.icr.pending = none ∧ sender.icr.bus = [] ∧ sender.running = .idle ∧ sender.interrupted = [] ∧ sender.sent = [] ∧
    sender.returned = []

end Sender

namespace SendIPI

/-- The call whose command may still wait. -/
def waiting : SendIPI → Option IPI
  | .waitSent ipi => some ipi
  | _ => none

/-- A context that has given no command and is not about to give one. -/
def Asks : SendIPI → Prop
  | .idle => True
  | .waitIdle _ => True
  | _ => False

/-- In a call that names its destination. -/
def Directs (place : SendIPI) : Prop := match place with
  | .idle => False
  | .waitIdle ipi => ipi.destinationShorthand = .noShorthand
  | .writeHigh _ => True
  | .writeLow ipi => ipi.destinationShorthand = .noShorthand
  | .waitSent ipi => ipi.destinationShorthand = .noShorthand

/-- Between the two writes of a call that names its destination. -/
def Aimed : SendIPI → Prop
  | .writeLow ipi => ipi.destinationShorthand = .noShorthand
  | _ => False

instance : DecidablePred Aimed
  | .writeLow ipi => inferInstanceAs (Decidable (ipi.destinationShorthand = .noShorthand))
  | .idle | .waitIdle _ | .writeHigh _ | .waitSent _ => isFalse id

end SendIPI

namespace Sender

/-- No command is lost or given twice, and the one that waits is that of the last call,
above which no context gives another. -/
structure Sending (sender : Sender) : Prop where
  words : sender.icr.commands.map Prod.snd = sender.sent.map IPI.low
  alone : sender.icr.pending ≠ none → ∃ above ipi below, sender.contexts = above ++ .waitSent ipi :: below ∧
    (∀ place ∈ above, place.Asks) ∧ sender.sent.getLast? = some ipi
  counted : sender.sent.Perm (sender.returned ++ sender.contexts.filterMap SendIPI.waiting)

variable {sender next : Sender}

theorem Initial.sending (initial : sender.Initial) : sender.Sending := by
  obtain ⟨pending,bus,running,interrupted,sent,returned⟩ := initial
  refine ⟨?_,fun waits => absurd pending waits,?_⟩
  · simp [CommandRegister.commands,pending,bus,sent]
  · simp [contexts,sent,returned,running,interrupted,SendIPI.waiting]

/-- A context that may give a command runs only while none waits. -/
theorem Sending.free (sending : sender.Sending) (gives : ¬ sender.running.Asks) (runs : sender.running.waiting = none) :
    sender.icr.pending = none := by
  by_contra waits
  obtain ⟨above,ipi,below,stack,asks,-⟩ := sending.alone waits
  cases above with
  | nil =>
    have top : sender.running = .waitSent ipi := (List.cons.inj stack).1
    simp [top,SendIPI.waiting] at runs
  | cons place above =>
    have top : sender.running = place := (List.cons.inj stack).1
    exact gives (top ▸ asks place (by simp))

/-- What a step of the running context leaves as it is when it gives no command. -/
theorem Sending.run (sending : sender.Sending) (icr : CommandRegister) (place : SendIPI) (commands : icr.commands = sender.icr.commands)
    (pending : icr.pending = sender.icr.pending) (asks : sender.icr.pending ≠ none → sender.running.Asks ∧ place.Asks)
    (before : sender.running.waiting = none) (after : place.waiting = none) :
    ({ sender with icr, running := place } : Sender).Sending where
  words := by rw [commands]; exact sending.words
  alone := by
    intro waits
    rw [pending] at waits
    obtain ⟨above,ipi,below,stack,quiet,last⟩ := sending.alone waits
    cases above with
    | nil =>
      have top : sender.running = .waitSent ipi := (List.cons.inj stack).1
      rw [top] at before
      simp [SendIPI.waiting] at before
    | cons other above =>
      refine ⟨place :: above,ipi,below,?_,?_,last⟩
      · exact congrArg (place :: ·) (List.cons.inj stack).2
      · intro another member
        rcases List.mem_cons.mp member with rfl | member
        · exact (asks waits).2
        · exact quiet another (List.mem_cons_of_mem _ member)
  counted := by
    have same : ({ sender with icr, running := place } : Sender).contexts.filterMap SendIPI.waiting =
        sender.contexts.filterMap SendIPI.waiting := by
      simp only [contexts,List.filterMap_cons,before,after]
    rw [same]
    exact sending.counted

theorem Sending.proceed (sending : sender.Sending) (step : sender.proceed = some next) : next.Sending := by
  cases place : sender.running with
  | idle => simp [Sender.proceed,place] at step
  | waitIdle ipi =>
    simp only [Sender.proceed,place,CommandRegister.busy_eq] at step
    by_cases waits : sender.icr.pending.isSome
    · rw [if_pos waits,Option.some.injEq] at step
      exact step ▸ sending
    · have free : sender.icr.pending = none := by simpa using waits
      rw [if_neg waits] at step
      split_ifs at step with direct
      · rw [← Option.some.inj step]
        exact sending.run sender.icr (.writeHigh ipi) rfl rfl (fun waits => absurd free waits) (by rw [place]; rfl) rfl
      · rw [← Option.some.inj step]
        exact sending.run sender.icr (.writeLow ipi) rfl rfl (fun waits => absurd free waits) (by rw [place]; rfl) rfl
  | writeHigh ipi =>
    simp only [Sender.proceed,place,Option.some.injEq] at step
    have free : sender.icr.pending = none := by
      apply sending.free
      · rw [place]; exact id
      · rw [place]; rfl
    subst step
    apply sending.run (sender.icr.writeHigh ipi.high) (.writeLow ipi) (by simp) (by simp)
    · exact fun waits => absurd free waits
    · rw [place]; rfl
    · rfl
  | writeLow ipi =>
    simp only [Sender.proceed,place,Option.some.injEq] at step
    have free : sender.icr.pending = none := by
      apply sending.free
      · rw [place]; exact id
      · rw [place]; rfl
    subst step
    refine ⟨?_,fun _ => ⟨[],ipi,sender.interrupted,rfl,by simp,by simp⟩,?_⟩
    · have words := sending.words
      simp only [CommandRegister.commands,free,Option.toList_none,List.append_nil] at words
      simp [CommandRegister.commands,CommandRegister.writeLow,words]
    · have counted := sending.counted
      simp only [contexts,place,SendIPI.waiting,List.filterMap_cons] at counted ⊢
      have moved : (sender.returned ++ ipi :: sender.interrupted.filterMap SendIPI.waiting).Perm
          (sender.returned ++ sender.interrupted.filterMap SendIPI.waiting ++ [ipi]) := by
        rw [List.append_assoc]
        exact (List.perm_append_singleton _ _).symm.append_left _
      exact (counted.append_right _).trans moved.symm
  | waitSent ipi =>
    simp only [Sender.proceed,place,CommandRegister.busy_eq] at step
    by_cases waits : sender.icr.pending.isSome
    · rw [if_pos waits,Option.some.injEq] at step
      exact step ▸ sending
    · have free : sender.icr.pending = none := by simpa using waits
      rw [if_neg waits,Option.some.injEq] at step
      subst step
      refine ⟨sending.words,fun waits => absurd free waits,?_⟩
      have counted := sending.counted
      simp only [contexts,place,SendIPI.waiting,List.filterMap_cons] at counted ⊢
      rw [List.append_assoc]
      exact counted

theorem Sending.step {event : SendEvent} (sending : sender.Sending) (step : sender.step event = some next) : next.Sending := by
  cases event with
  | call ipi =>
    simp only [Sender.step,Option.ite_none_right_eq_some,Option.some.injEq] at step
    obtain ⟨idle,rfl⟩ := step
    exact sending.run sender.icr (.waitIdle ipi) rfl rfl (fun _ => ⟨by rw [idle]; trivial,trivial⟩) (by rw [idle]; rfl) rfl
  | proceed => exact sending.proceed step
  | interrupt =>
    simp only [Sender.step,Option.some.injEq] at step
    subst step
    refine ⟨sending.words,?_,sending.counted⟩
    intro waits
    obtain ⟨above,ipi,below,stack,asks,last⟩ := sending.alone waits
    refine ⟨.idle :: above,ipi,below,congrArg (SendIPI.idle :: ·) stack,?_,last⟩
    intro place member
    rcases List.mem_cons.mp member with rfl | member
    · trivial
    · exact asks place member
  | resume =>
    cases stack : sender.interrupted with
    | nil => simp [Sender.step,stack] at step
    | cons below deeper =>
      simp only [Sender.step,stack,Option.ite_none_right_eq_some,Option.some.injEq] at step
      obtain ⟨idle,rfl⟩ := step
      have before : sender.contexts = .idle :: below :: deeper := by rw [contexts,idle,stack]
      refine ⟨sending.words,?_,?_⟩
      · intro waits
        obtain ⟨above,ipi,rest,here,asks,last⟩ := sending.alone waits
        rw [before] at here
        cases above with
        | nil => simp at here
        | cons place above =>
          refine ⟨above,ipi,rest,(List.cons.inj here).2,?_,last⟩
          exact fun other member => asks other (List.mem_cons_of_mem _ member)
      · have counted := sending.counted
        rw [before] at counted
        exact counted
  | deliver =>
    simp only [Sender.step,Option.map_eq_some_iff] at step
    obtain ⟨command,pending,rfl⟩ := step
    refine ⟨?_,fun waits => absurd rfl waits,sending.counted⟩
    have words := sending.words
    simp only [CommandRegister.commands,pending,Option.toList_some] at words
    simp only [CommandRegister.commands,Option.toList_none,List.append_nil]
    exact words

/-- A call returns only after its own command has been sent. -/
theorem Sending.returned_sent (sending : sender.Sending) :
    (sender.returned.map IPI.low).Subperm (sender.icr.bus.map Prod.snd) := by
  have words := sending.words
  cases pending : sender.icr.pending with
  | none =>
    simp only [CommandRegister.commands,pending,Option.toList_none,List.append_nil] at words
    rw [words]
    obtain ⟨chosen,same,part⟩ := (List.sublist_append_left _ _).subperm.trans sending.counted.symm.subperm
    exact ⟨chosen.map IPI.low,same.map _,part.map _⟩
  | some command =>
    obtain ⟨above,ipi,below,stack,_,last⟩ := sending.alone (by simp [pending])
    obtain ⟨earlier,sent⟩ := List.getLast?_eq_some_iff.mp last
    simp only [CommandRegister.commands,pending,Option.toList_some,List.map_append,List.map_cons,List.map_nil,sent] at words
    rw [(List.append_inj' words rfl).1]
    have counted := sending.counted
    simp only [sent,stack,List.filterMap_append,List.filterMap_cons,SendIPI.waiting] at counted
    have others : earlier.Perm (sender.returned ++ (above.filterMap SendIPI.waiting ++ below.filterMap SendIPI.waiting)) := by
      apply List.Perm.cons_inv
      apply (List.perm_append_singleton _ _).symm.trans
      apply counted.trans
      rw [← List.append_assoc,← List.append_assoc]
      exact List.perm_middle
    obtain ⟨chosen,same,part⟩ := (List.sublist_append_left _ _).subperm.trans others.symm.subperm
    exact ⟨chosen.map IPI.low,same.map _,part.map _⟩

/-- No handler names a destination while a context that it interrupts is between its two
writes with one. -/
def Quiet (sender : Sender) : SendEvent → Prop
  | .call ipi => ipi.destinationShorthand = .noShorthand → ∀ place ∈ sender.interrupted, ¬ place.Aimed
  | _ => True

instance (sender : Sender) : ∀ event, Decidable (sender.Quiet event)
  | .call ipi =>
    inferInstanceAs (Decidable (ipi.destinationShorthand = .noShorthand → ∀ place ∈ sender.interrupted, ¬ place.Aimed))
  | .proceed | .interrupt | .resume | .deliver => isTrue trivial

/-- Each command is the one its call asked for, and the upper half stays as the context
has written it that is about to write the lower one. -/
structure Addressed (sender : Sender) : Prop where
  commands : sender.icr.commands.map Command.decode = sender.sent.map fun ipi => some ipi.command
  aimed : ∀ ipi, .writeLow ipi ∈ sender.contexts → ipi.destinationShorthand = .noShorthand → sender.icr.high = ipi.high
  apart : sender.contexts.Pairwise fun upper lower => lower.Aimed → ¬ upper.Directs

theorem Initial.addressed (initial : sender.Initial) : sender.Addressed := by
  obtain ⟨pending,bus,running,interrupted,sent,_⟩ := initial
  refine ⟨?_,?_,?_⟩
  · simp [CommandRegister.commands,pending,bus,sent]
  · simp [contexts,running,interrupted]
  · simp [contexts,interrupted]

/-- A step of the running context that goes on with its call and leaves the register. -/
theorem Addressed.run (addressed : sender.Addressed) (place : SendIPI) (returned : List IPI) (aims : ¬ place.Aimed)
    (directs : place.Directs → sender.running.Directs ∨ ∀ lower ∈ sender.interrupted, ¬ lower.Aimed) :
    ({ sender with running := place, returned } : Sender).Addressed where
  commands := addressed.commands
  aimed := by
    intro ipi member direct
    rcases List.mem_cons.mp member with rfl | member
    · exact absurd direct aims
    · exact addressed.aimed ipi (List.mem_cons_of_mem _ member) direct
  apart := by
    obtain ⟨first,rest⟩ := List.pairwise_cons.mp addressed.apart
    refine List.pairwise_cons.mpr ⟨?_,rest⟩
    intro lower member aimed there
    rcases directs there with before | none
    · exact first lower member aimed before
    · exact none lower member aimed

theorem Addressed.proceed (addressed : sender.Addressed) (sending : sender.Sending) (step : sender.proceed = some next) :
    next.Addressed := by
  cases place : sender.running with
  | idle => simp [Sender.proceed,place] at step
  | waitIdle ipi =>
    simp only [Sender.proceed,place] at step
    split_ifs at step with waits direct
    · exact Option.some.inj step ▸ addressed
    · rw [← Option.some.inj step]
      exact addressed.run (.writeHigh ipi) sender.returned id fun _ => .inl (by rw [place]; exact direct)
    · rw [← Option.some.inj step]
      exact addressed.run (.writeLow ipi) sender.returned direct fun there => absurd there direct
  | writeHigh ipi =>
    simp only [Sender.proceed,place,Option.some.injEq] at step
    subst step
    obtain ⟨first,rest⟩ := List.pairwise_cons.mp addressed.apart
    have alone : ∀ lower ∈ sender.interrupted, ¬ lower.Aimed := by
      intro lower member aimed
      exact first lower member aimed (by rw [place]; trivial)
    refine ⟨?_,?_,List.pairwise_cons.mpr ⟨?_,rest⟩⟩
    · simp only [CommandRegister.commands_writeHigh]
      exact addressed.commands
    · intro other member direct
      rcases List.mem_cons.mp member with same | member
      · exact congrArg IPI.high (SendIPI.writeLow.inj same).symm
      · exact absurd direct (alone _ member)
    · exact fun lower member aimed => absurd aimed (alone lower member)
  | writeLow ipi =>
    simp only [Sender.proceed,place,Option.some.injEq] at step
    have free : sender.icr.pending = none := by
      apply sending.free
      · rw [place]; exact id
      · rw [place]; rfl
    have given : Command.decode (sender.icr.high,ipi.low) = some ipi.command := by
      rw [IPI.decode_low]
      by_cases direct : ipi.destinationShorthand = .noShorthand
      · have high := addressed.aimed ipi (by simp [contexts,place]) direct
        rw [if_pos direct,high,IPI.extractLsb'_high]
        simp [IPI.command,direct]
      · simp [IPI.command,direct]
    subst step
    obtain ⟨first,rest⟩ := List.pairwise_cons.mp addressed.apart
    refine ⟨?_,?_,List.pairwise_cons.mpr ⟨?_,rest⟩⟩
    · have commands := addressed.commands
      simp only [CommandRegister.commands,free,Option.toList_none,List.append_nil] at commands
      simp [CommandRegister.commands,CommandRegister.writeLow,commands,given]
    · intro other member direct
      rcases List.mem_cons.mp member with same | member
      · simp at same
      · exact addressed.aimed other (List.mem_cons_of_mem _ member) direct
    · intro lower member aimed there
      exact first lower member aimed (by rw [place]; exact there)
  | waitSent ipi =>
    simp only [Sender.proceed,place] at step
    split_ifs at step with waits
    · exact Option.some.inj step ▸ addressed
    · rw [← Option.some.inj step]
      exact addressed.run .idle (sender.returned ++ [ipi]) id fun there => there.elim

theorem Addressed.step {event : SendEvent} (addressed : sender.Addressed) (sending : sender.Sending) (quiet : sender.Quiet event)
    (step : sender.step event = some next) : next.Addressed := by
  cases event with
  | call ipi =>
    simp only [Sender.step,Option.ite_none_right_eq_some,Option.some.injEq] at step
    obtain ⟨idle,rfl⟩ := step
    exact addressed.run (.waitIdle ipi) sender.returned id fun direct => .inr (quiet direct)
  | proceed => exact addressed.proceed sending step
  | interrupt =>
    simp only [Sender.step,Option.some.injEq] at step
    subst step
    refine ⟨addressed.commands,?_,List.pairwise_cons.mpr ⟨fun _ _ _ => id,addressed.apart⟩⟩
    intro ipi member direct
    rcases List.mem_cons.mp member with same | member
    · simp at same
    · exact addressed.aimed ipi member direct
  | resume =>
    cases stack : sender.interrupted with
    | nil => simp [Sender.step,stack] at step
    | cons below deeper =>
      simp only [Sender.step,stack,Option.ite_none_right_eq_some,Option.some.injEq] at step
      obtain ⟨_,rfl⟩ := step
      have before : sender.contexts = sender.running :: below :: deeper := by rw [contexts,stack]
      have apart := addressed.apart
      rw [before] at apart
      refine ⟨addressed.commands,?_,(List.pairwise_cons.mp apart).2⟩
      intro ipi member direct
      apply addressed.aimed ipi _ direct
      rw [before]
      exact List.mem_cons_of_mem _ member
  | deliver =>
    simp only [Sender.step,Option.map_eq_some_iff] at step
    obtain ⟨command,pending,rfl⟩ := step
    refine ⟨?_,addressed.aimed,addressed.apart⟩
    have commands := addressed.commands
    simp only [CommandRegister.commands,pending,Option.toList_some] at commands
    simp only [CommandRegister.commands,Option.toList_none,List.append_nil]
    exact commands

/-- How many steps a context still has to make, with that of the device for its command. -/
def remaining (sender : Sender) : Nat :=
  (sender.contexts.map fun place => match place with
    | .idle => 1
    | .waitSent _ => 2
    | .writeLow _ => 4
    | .writeHigh _ => 5
    | .waitIdle _ => 6).sum + sender.icr.pending.toList.length

def Finished (sender : Sender) : Prop := sender.icr.pending = none ∧ sender.running = .idle ∧ sender.interrupted = []

/-- Some step brings the calls nearer to their ends. -/
theorem exists_step (sender : Sender) : sender.Finished ∨ ∃ event next, sender.step event = some next ∧
    (event = .proceed ∨ event = .resume ∨ event = .deliver) ∧ next.remaining < sender.remaining := by
  cases pending : sender.icr.pending with
  | some command =>
    exact .inr ⟨.deliver,_,by rw [step,pending]; rfl,by simp,by simp [remaining,contexts,pending]⟩
  | none =>
    have free : sender.icr.busy = false := by rw [CommandRegister.busy_eq,pending]; rfl
    cases place : sender.running with
    | idle =>
      cases stack : sender.interrupted with
      | nil => exact .inl ⟨pending,place,stack⟩
      | cons below deeper =>
        exact .inr ⟨.resume,_,by rw [step,stack]; exact if_pos place,by simp,by simp [remaining,contexts,place,stack,pending]⟩
    | waitIdle ipi =>
      by_cases direct : ipi.destinationShorthand = .noShorthand
      · refine .inr ⟨.proceed,{ sender with running := .writeHigh ipi },?_,by simp,?_⟩
        · simp [step,proceed,place,free,direct]
        · simp [remaining,contexts,place]
      · refine .inr ⟨.proceed,{ sender with running := .writeLow ipi },?_,by simp,?_⟩
        · simp [step,proceed,place,free,direct]
        · simp [remaining,contexts,place]
    | writeHigh ipi =>
      exact .inr ⟨.proceed,_,by rw [step,proceed,place],by simp,by simp [remaining,contexts,place,pending]⟩
    | writeLow ipi =>
      refine .inr ⟨.proceed,_,by rw [step,proceed,place],by simp,?_⟩
      simp only [remaining,contexts,place,pending,CommandRegister.writeLow,List.map_cons,List.sum_cons,Option.toList_some,
        Option.toList_none,List.length_singleton,List.length_nil]
      omega
    | waitSent ipi =>
      refine .inr ⟨.proceed,{ sender with running := .idle, returned := sender.returned ++ [ipi] },?_,by simp,?_⟩
      · simp [step,proceed,place,free]
      · simp [remaining,contexts,place]

theorem exists_finish (sender : Sender) : ∃ events reached, Transition.run step sender events = some reached ∧
    (∀ event ∈ events, event = .proceed ∨ event = .resume ∨ event = .deliver) ∧ reached.Finished := by
  induction left : sender.remaining using Nat.strong_induction_on generalizing sender with
  | _ left ih =>
    rcases sender.exists_step with finished | ⟨event,next,moved,kind,fewer⟩
    · exact ⟨[],sender,rfl,by simp,finished⟩
    · obtain ⟨events,reached,ran,kinds,finished⟩ := ih _ (by omega) next rfl
      refine ⟨event :: events,reached,?_,?_,finished⟩
      · rw [Transition.run,moved]
        exact ran
      · intro other member
        rcases List.mem_cons.mp member with rfl | member
        · exact kind
        · exact kinds other member

theorem run_addressed {final : Sender} {events : List SendEvent} (initial : sender.Initial)
    (quiet : Transition.Along step Quiet sender events) (ran : Transition.run step sender events = some final) :
    final.Addressed := by
  have both := Transition.run_preserves step (fun sender => sender.Sending ∧ sender.Addressed) Quiet
    (fun _ _ _ quiet held moved => ⟨held.1.step moved,held.2.step held.1 quiet moved⟩) quiet
    ⟨initial.sending,initial.addressed⟩ ran
  exact both.2

def idleSender : Sender := ⟨⟨0#32,0#32,none,[]⟩,.idle,[],[],[]⟩

/-- A call for processor 3 is interrupted between its writes by a handler that sends. -/
def nestedCalls (handler : IPI) : List SendEvent :=
  [.call ⟨0x40#8,3#32,.fixed,.edge,.noShorthand⟩,.proceed,.proceed,.interrupt,.call handler] ++
    (if handler.destinationShorthand = .noShorthand then [.proceed] else []) ++
    [.proceed,.proceed,.deliver,.proceed,.resume,.proceed,.deliver,.proceed]

/-- Where the handler names processor 5, the interrupted call sends there too. -/
example : (Transition.run step idleSender (nestedCalls ⟨0x41#8,5#32,.fixed,.edge,.noShorthand⟩)).map
    (·.icr.bus.map Prod.fst) = some [5#32 <<< 24,5#32 <<< 24] := by decide +kernel

end Sender

end BorealOS.Interrupts
