import BorealOS.Interrupts.IRQHandler

/-! Interrupts in service. The local APIC delivers the highest requested vector when its
class is above that of every vector in service, and a write of the EOI register ends the
highest one. `IRQHandler` stores its frame by the vector and sends the EOI at its end,
without a word on which vector it ends. -/
namespace BorealOS.Interrupts

/-- The four upper bits of a vector, its class of priority. -/
def priorityClass (vector : BitVec 8) : Nat := vector.toNat / 16

/-- What an EOI leaves in service. -/
def endOfInterrupt (inService : Finset (BitVec 8)) : Finset (BitVec 8) :=
  inService.filter fun vector => ∃ other ∈ inService, vector.toNat < other.toNat

/-- A processor of `IRQHandler` with the registers of its local APIC. A frame is the
number of the interrupt that pushed it; `frames` are those of the handlers, the running
one first. `retired` tells for each EOI the vector of the handler that sent it and what it
ended. -/
structure ServedProcessor (State : Type) where
  processor : Processor State
  requested : Finset (BitVec 8)
  inService : Finset (BitVec 8)
  registersForInterrupts : BitVec 8 → Option Nat
  frames : List Nat
  delivered : Nat
  accepted : List (BitVec 8)
  retired : List (BitVec 8 × Finset (BitVec 8))

/-- A device or another processor requests a vector; the APIC delivers one, or the
spurious vector; code or a handler goes on as in `IRQHandler`. -/
inductive ServiceEvent (State : Type) where
  | request (vector : BitVec 8)
  | accept (vector : BitVec 8)
  | spurious
  | call (state : State)
  | proceed
  | resume
deriving DecidableEq, Repr

variable {State : Type}

namespace ServedProcessor

def contexts (served : ServedProcessor State) : List (Context State) :=
  served.processor.running :: served.processor.interrupted.map (·.context)

def Initial (served : ServedProcessor State) : Prop :=
  served.processor.running.place = .code ∧ served.processor.interrupted = [] ∧ served.processor.acknowledged = 0 ∧
    served.requested = ∅ ∧ served.inService = ∅ ∧ served.frames = [] ∧ served.accepted = [] ∧ served.retired = []

end ServedProcessor

namespace Place

/-- The vector that the handler has not ended yet. -/
def owes : Place State → Option (BitVec 8)
  | .code => none
  | .done => none
  | .backup irq => if irq = 0xFF then none else some irq
  | .toKernel irq _ => if irq = 0xFF then none else some irq
  | .handler irq _ => if irq = 0xFF then none else some irq
  | .compare irq _ => if irq = 0xFF then none else some irq
  | .back irq _ => if irq = 0xFF then none else some irq
  | .acknowledge irq => if irq = 0xFF then none else some irq

/-- The vector under which the handler has stored its frame. -/
def stored : Place State → Option (BitVec 8)
  | .code => none
  | .done => none
  | .backup _ => none
  | .toKernel _ _ => none
  | .handler irq _ => if irq = 0xFF then none else some irq
  | .compare irq _ => if irq = 0xFF then none else some irq
  | .back irq _ => if irq = 0xFF then none else some irq
  | .acknowledge irq => if irq = 0xFF then none else some irq

theorem owes_of_stored {place : Place State} {irq : BitVec 8} (stores : place.stored = some irq) : place.owes = some irq := by
  cases place with
  | code | done | backup | toKernel => simp [stored] at stores
  | handler | compare | back | acknowledge => exact stores

end Place

namespace ServedProcessor

/-- The vectors that the contexts still have to end, the running context first. -/
def owed (served : ServedProcessor State) : List (BitVec 8) := served.contexts.filterMap (·.place.owes)

/-- In service are the vectors of the handlers that have sent no EOI, and their classes
fall from the top of the stack on. -/
structure Serving (served : ServedProcessor State) : Prop where
  asked : ∀ vector ∈ served.requested, vector ≠ 0xFF
  service : ∀ vector, vector ∈ served.inService ↔ vector ∈ served.owed
  ordered : served.owed.Pairwise fun upper lower => priorityClass lower < priorityClass upper
  stored : ∀ entry ∈ served.contexts.zip served.frames, ∀ irq, entry.1.place.stored = some irq →
    served.registersForInterrupts irq = some entry.2
  bottom : ∃ handlers base, served.contexts = handlers ++ [base] ∧ base.place = .code ∧ handlers.length = served.frames.length
  counted : served.accepted.Perm (served.retired.map Prod.fst ++ served.owed)
  alone : ∀ entry ∈ served.retired, entry.2 = {entry.1}
  told : served.processor.acknowledged = served.retired.length

variable {served : ServedProcessor State}

theorem Initial.serving (initial : served.Initial) : served.Serving := by
  obtain ⟨place,interrupted,acknowledged,requested,inService,frames,accepted,retired⟩ := initial
  have owed : served.owed = [] := by simp [owed,contexts,place,interrupted,Place.owes]
  refine ⟨?_,?_,?_,?_,⟨[],served.processor.running,?_,place,?_⟩,?_,?_,?_⟩
  · simp [requested]
  · simp [inService,owed]
  · rw [owed]
    exact .nil
  · simp [frames]
  · simp [contexts,interrupted]
  · simp [frames]
  · simp [accepted,retired,owed]
  · simp [retired]
  · simp [acknowledged,retired]

/-- The highest vector in service is that of the first handler that owes one, and it is
the only one that an EOI ends. -/
theorem Serving.endOfInterrupt (serving : served.Serving) {irq : BitVec 8} {rest : List (BitVec 8)} (owed : served.owed = irq :: rest) :
    (∀ vector, vector ∈ endOfInterrupt served.inService ↔ vector ∈ rest) ∧
      served.inService \ endOfInterrupt served.inService = {irq} := by
  have service := serving.service
  have ordered := serving.ordered
  rw [owed] at service ordered
  have below : ∀ vector ∈ rest, vector.toNat < irq.toNat := by
    intro vector member
    have lower := (List.pairwise_cons.mp ordered).1 vector member
    simp only [priorityClass] at lower
    omega
  have left : ∀ vector, vector ∈ Interrupts.endOfInterrupt served.inService ↔ vector ∈ rest := by
    intro vector
    simp only [Interrupts.endOfInterrupt,Finset.mem_filter]
    constructor
    · rintro ⟨inside,other,also,lower⟩
      rcases List.mem_cons.mp ((service vector).mp inside) with rfl | inside
      · rcases List.mem_cons.mp ((service other).mp also) with rfl | also
        · exact absurd lower (Nat.lt_irrefl _)
        · exact absurd (below other also) (Nat.lt_asymm lower)
      · exact inside
    · intro inside
      refine ⟨(service vector).mpr (List.mem_cons_of_mem _ inside),irq,?_,below vector inside⟩
      exact (service irq).mpr (by simp)
  refine ⟨left,?_⟩
  ext vector
  rw [Finset.mem_sdiff,left,service,List.mem_cons,Finset.mem_singleton]
  constructor
  · rintro ⟨same | inside,outside⟩
    · exact same
    · exact absurd inside outside
  · rintro rfl
    exact ⟨.inl rfl,fun inside => Nat.lt_irrefl _ (below vector inside)⟩

theorem owed_cons (served : ServedProcessor State) : served.owed = served.processor.running.place.owes.toList ++
    (served.processor.interrupted.map (·.context)).filterMap (·.place.owes) := by
  simp only [owed,contexts,List.filterMap_cons]
  cases served.processor.running.place.owes <;> rfl

/-- A step of the running context that owes and stores what it did before. -/
theorem Serving.move (serving : served.Serving) (processor : Processor State)
    (interrupted : processor.interrupted = served.processor.interrupted) (acknowledged : processor.acknowledged = served.processor.acknowledged)
    (owes : processor.running.place.owes = served.processor.running.place.owes)
    (code : served.processor.running.place = .code → processor.running.place = .code)
    (stores : ∀ irq, processor.running.place.stored = some irq → served.processor.running.place.stored = some irq) :
    ({ served with processor } : ServedProcessor State).Serving := by
  have owed : ({ served with processor } : ServedProcessor State).owed = served.owed := by
    rw [owed_cons,owed_cons]
    simp only [interrupted,owes]
  obtain ⟨asked,service,ordered,stored,⟨handlers,base,stack,plain,count⟩,counted,alone,told⟩ := serving
  refine ⟨asked,?_,?_,?_,?_,?_,alone,acknowledged.trans told⟩
  · rwa [owed]
  · rwa [owed]
  · intro entry member irq kept
    cases frames : served.frames with
    | nil => simp [frames] at member
    | cons frame frames' =>
      simp only [contexts,interrupted,frames,List.zip_cons_cons,List.mem_cons] at member
      simp only [contexts,frames,List.zip_cons_cons,List.mem_cons] at stored
      rcases member with rfl | member
      · exact stored _ (.inl rfl) irq (stores irq kept)
      · exact stored entry (.inr member) irq kept
  · cases handlers with
    | nil =>
      obtain ⟨only,none⟩ := List.cons.inj stack
      refine ⟨[],processor.running,?_,?_,count⟩
      · simp only [contexts,interrupted,none,List.nil_append]
      · exact code (only ▸ plain)
    | cons handler handlers =>
      refine ⟨processor.running :: handlers,base,?_,plain,count⟩
      simp only [contexts,interrupted,(List.cons.inj stack).2,List.cons_append]
      rfl
  · rwa [owed]

/-- The handler stores its frame. Those below it owe other vectors. -/
theorem Serving.store (serving : served.Serving) {irq : BitVec 8} {backupState : State}
    (place : served.processor.running.place = .toKernel irq backupState) :
    ({ served with
      processor := { served.processor with running := ⟨.handler irq backupState,.idle⟩ }
      registersForInterrupts := Function.update served.registersForInterrupts irq served.frames.head? } :
        ServedProcessor State).Serving := by
  have moved := serving.move { served.processor with running := ⟨.backup irq,.idle⟩ } rfl rfl (by rw [place]; rfl)
    (by rw [place]; simp) (by simp [Place.stored])
  obtain ⟨asked,service,ordered,stored,⟨handlers,base,stack,plain,count⟩,counted,alone,told⟩ := moved
  have owed := served.owed_cons
  refine ⟨asked,service,ordered,?_,?_,counted,alone,told⟩
  · intro entry member other kept
    cases frames : served.frames with
    | nil => simp [frames] at member
    | cons frame below =>
      simp only [contexts,frames,List.zip_cons_cons,List.mem_cons] at member stored
      rcases member with rfl | member
      · simp only [Place.stored] at kept
        split_ifs at kept with spurious
        rw [← Option.some.inj kept]
        simp
      · have different : other ≠ irq := by
          rintro rfl
          have lower : other ∈ (served.processor.interrupted.map (·.context)).filterMap (·.place.owes) :=
            List.mem_filterMap.mpr ⟨entry.1,(List.of_mem_zip member).1,Place.owes_of_stored kept⟩
          have legal : other ≠ 0xFF := by
            rintro rfl
            revert kept
            cases entry.1.place <;> simp [Place.stored]
          have order := serving.ordered
          rw [owed,place] at order
          simp only [Place.owes,if_neg legal,Option.toList_some,List.singleton_append] at order
          exact absurd ((List.pairwise_cons.mp order).1 other lower) (Nat.lt_irrefl _)
        exact (Function.update_of_ne different _ _).trans (stored entry (.inr member) other kept)
  · cases handlers with
    | nil =>
      have code : base.place = .backup irq := congrArg Context.place (List.cons.inj stack).1.symm
      rw [plain] at code
      simp at code
    | cons handler handlers =>
      refine ⟨⟨.handler irq backupState,.idle⟩ :: handlers,base,?_,plain,count⟩
      exact congrArg (⟨Place.handler irq backupState,Switch.idle⟩ :: ·) (List.cons.inj stack).2

/-- The handler sends the EOI and ends its own vector. -/
theorem Serving.retire (serving : served.Serving) {irq : BitVec 8} (place : served.processor.running.place = .acknowledge irq)
    (legal : irq ≠ 0xFF) :
    ({ served with
      processor := { served.processor with running := ⟨.done,.idle⟩, acknowledged := served.processor.acknowledged + 1 }
      inService := Interrupts.endOfInterrupt served.inService
      retired := served.retired ++ [(irq,served.inService \ Interrupts.endOfInterrupt served.inService)] } :
        ServedProcessor State).Serving := by
  have owed := served.owed_cons
  simp only [place,Place.owes,if_neg legal,Option.toList_some,List.singleton_append] at owed
  obtain ⟨left,ended⟩ := serving.endOfInterrupt owed
  obtain ⟨asked,service,ordered,stored,⟨handlers,base,stack,plain,count⟩,counted,alone,told⟩ := serving
  rw [owed] at ordered counted
  refine ⟨asked,?_,(List.pairwise_cons.mp ordered).2,?_,?_,?_,?_,?_⟩
  · intro vector
    exact left vector
  · intro entry member other kept
    cases frames : served.frames with
    | nil => simp [frames] at member
    | cons frame below =>
      simp only [contexts,frames,List.zip_cons_cons,List.mem_cons] at member stored
      rcases member with rfl | member
      · simp [Place.stored] at kept
      · exact stored entry (.inr member) other kept
  · cases handlers with
    | nil =>
      have code : base.place = .acknowledge irq := by rw [← (List.cons.inj stack).1,place]
      rw [plain] at code
      simp at code
    | cons handler handlers =>
      refine ⟨⟨.done,.idle⟩ :: handlers,base,?_,plain,count⟩
      exact congrArg (⟨Place.done,Switch.idle⟩ :: ·) (List.cons.inj stack).2
  · simp only [List.map_append,List.map_cons,List.map_nil,List.append_assoc,List.singleton_append]
    exact counted
  · intro entry member
    rcases List.mem_append.mp member with member | member
    · exact alone entry member
    · rw [List.mem_singleton.mp member]
      exact ended
  · simp [told]

/-- A handler that has just begun stores nothing, and its frame comes on top. -/
theorem Serving.stored_push (serving : served.Serving) (irq : BitVec 8) (frame : Nat) :
    (∀ entry ∈ (⟨.backup irq,.idle⟩ :: served.contexts).zip (frame :: served.frames), ∀ other,
      entry.1.place.stored = some other → served.registersForInterrupts other = some entry.2) ∧
    ∃ handlers base, ⟨.backup irq,.idle⟩ :: served.contexts = handlers ++ [base] ∧ base.place = .code ∧
      handlers.length = (frame :: served.frames).length := by
  refine ⟨?_,?_⟩
  · intro entry member other kept
    rcases List.mem_cons.mp member with rfl | member
    · simp [Place.stored] at kept
    · exact serving.stored entry member other kept
  · obtain ⟨handlers,base,stack,plain,count⟩ := serving.bottom
    refine ⟨⟨.backup irq,.idle⟩ :: handlers,base,?_,plain,by simp [count]⟩
    rw [stack,List.cons_append]

/-- A handler that has stored its frame finds it there. -/
theorem Serving.own_frame (serving : served.Serving) {irq : BitVec 8} (stores : served.processor.running.place.stored = some irq) :
    ∃ frame, served.frames.head? = some frame ∧ served.registersForInterrupts irq = some frame := by
  obtain ⟨handlers,base,stack,plain,count⟩ := serving.bottom
  cases handlers with
  | nil =>
    rw [(List.cons.inj stack).1,plain] at stores
    simp [Place.stored] at stores
  | cons handler handlers =>
    cases frames : served.frames with
    | nil => simp [frames] at count
    | cons frame below =>
      refine ⟨frame,rfl,?_⟩
      apply serving.stored (served.processor.running,frame) _ irq stores
      rw [frames,contexts,List.zip_cons_cons]
      exact List.mem_cons_self

end ServedProcessor

namespace Setting

/-- What the next line of the running context does besides to `cr3` and `pageState`: it
stores the frame, or it writes the EOI register. -/
def record (served : ServedProcessor State) : ServedProcessor State :=
  match served.processor.running.switch, served.processor.running.place with
  | .idle, .toKernel irq _ =>
    { served with registersForInterrupts := Function.update served.registersForInterrupts irq served.frames.head? }
  | .idle, .acknowledge irq =>
    if irq = 0xFF then served
    else { served with
      inService := endOfInterrupt served.inService
      retired := served.retired ++ [(irq,served.inService \ endOfInterrupt served.inService)] }
  | _, _ => served

theorem record_of_switch {served : ServedProcessor State} (moves : served.processor.running.switch ≠ .idle) :
    record served = served := by
  cases switch : served.processor.running.switch with
  | idle => exact absurd switch moves
  | called | written => simp only [record,switch]

variable [DecidableEq State]

def deliver (setting : Setting State) (served : ServedProcessor State) (irq : BitVec 8) : Option (ServedProcessor State) :=
  (setting.step served.processor (.interrupt irq)).map fun processor =>
    { served with processor, frames := served.delivered :: served.frames, delivered := served.delivered + 1 }

/-- Vectors below 32 are exceptions, which do not come from the APIC, and the spurious
vector is kept from the devices. -/
def serve (setting : Setting State) (served : ServedProcessor State) : ServiceEvent State → Option (ServedProcessor State)
  | .request vector =>
    if 32 ≤ vector.toNat ∧ vector ≠ 0xFF then some { served with requested := insert vector served.requested } else none
  | .accept vector =>
    if vector ∈ served.requested ∧ (∀ other ∈ served.requested, other.toNat ≤ vector.toNat) ∧
        ∀ other ∈ served.inService, priorityClass other < priorityClass vector then
      (setting.deliver served vector).map fun next =>
        { next with
          requested := next.requested.erase vector
          inService := insert vector next.inService
          accepted := next.accepted ++ [vector] }
    else none
  | .spurious => setting.deliver served 0xFF
  | .call state => (setting.step served.processor (.call state)).map fun processor => { served with processor }
  | .proceed => (setting.step served.processor .proceed).map fun processor => { record served with processor }
  | .resume =>
    (setting.step served.processor .resume).map fun processor => { served with processor, frames := served.frames.tail }

end Setting

namespace ServedProcessor

variable [DecidableEq State] {setting : Setting State} {served next : ServedProcessor State}

theorem deliver_eq {irq : BitVec 8} (step : setting.deliver served irq = some next) : next = { served with
    processor := { served.processor with
      running := ⟨.backup irq,.idle⟩
      interrupted := ⟨served.processor.running,served.processor.cr3,served.processor.pageState⟩ :: served.processor.interrupted }
    frames := served.delivered :: served.frames
    delivered := served.delivered + 1 } := by
  simp only [Setting.deliver,Setting.step,Option.map_some,Option.some.injEq] at step
  exact step.symm

theorem Serving.spurious (serving : served.Serving) (step : setting.deliver served 0xFF = some next) : next.Serving := by
  obtain ⟨stored,bottom⟩ := serving.stored_push 0xFF served.delivered
  rw [deliver_eq step]
  exact ⟨serving.asked,serving.service,serving.ordered,stored,bottom,serving.counted,serving.alone,serving.told⟩

theorem Serving.accept {vector : BitVec 8} (serving : served.Serving) (requested : vector ∈ served.requested)
    (above : ∀ other ∈ served.inService, priorityClass other < priorityClass vector)
    (step : setting.deliver served vector = some next) :
    ({ next with
      requested := next.requested.erase vector
      inService := insert vector next.inService
      accepted := next.accepted ++ [vector] } : ServedProcessor State).Serving := by
  have legal := serving.asked vector requested
  obtain ⟨stored,bottom⟩ := serving.stored_push vector served.delivered
  rw [deliver_eq step]
  have owed : ∀ list : List (Context State), (⟨.backup vector,.idle⟩ :: list).filterMap (·.place.owes) =
      vector :: list.filterMap (·.place.owes) := by
    intro list
    rw [List.filterMap_cons,Place.owes,if_neg legal]
  refine ⟨?_,?_,?_,stored,bottom,?_,serving.alone,serving.told⟩
  · exact fun other member => serving.asked other (Finset.mem_of_mem_erase member)
  · intro other
    rw [ServedProcessor.owed,contexts,owed,List.mem_cons,Finset.mem_insert]
    exact or_congr Iff.rfl (serving.service other)
  · rw [ServedProcessor.owed,contexts,owed]
    exact .cons (fun other member => above other ((serving.service other).mpr member)) serving.ordered
  · rw [ServedProcessor.owed,contexts,owed]
    have counted := (serving.counted.append_right [vector]).trans (List.perm_append_singleton vector _)
    exact counted.trans List.perm_middle.symm

theorem Serving.resume (serving : served.Serving) {processor : Processor State}
    (step : setting.step served.processor .resume = some processor) :
    ({ served with processor, frames := served.frames.tail } : ServedProcessor State).Serving := by
  cases stack : served.processor.interrupted with
  | nil => simp [Setting.step,stack] at step
  | cons below deeper =>
    simp only [Setting.step,stack,Option.ite_none_right_eq_some,Option.some.injEq] at step
    obtain ⟨done,rfl⟩ := step
    have contexts : served.contexts = served.processor.running :: below.context :: deeper.map (·.context) := by
      simp only [contexts,stack,List.map_cons]
    have owed : served.owed = (below.context :: deeper.map (·.context)).filterMap (·.place.owes) := by
      rw [ServedProcessor.owed,contexts,List.filterMap_cons,done]
      rfl
    obtain ⟨asked,service,ordered,stored,⟨handlers,base,split,plain,count⟩,counted,alone,told⟩ := serving
    rw [owed] at service ordered counted
    rw [contexts] at stored split
    refine ⟨asked,service,ordered,?_,?_,counted,alone,told⟩
    · intro entry member irq kept
      apply stored entry _ irq kept
      cases frames : served.frames with
      | nil => simp [frames] at member
      | cons frame frames' =>
        rw [frames] at member
        exact List.mem_cons_of_mem _ member
    · cases handlers with
      | nil => simp at split
      | cons handler handlers => exact ⟨handlers,base,(List.cons.inj split).2,plain,by simp [← count]⟩

theorem Serving.proceed (serving : served.Serving) {processor : Processor State}
    (step : setting.step served.processor .proceed = some processor) :
    ({ Setting.record served with processor } : ServedProcessor State).Serving := by
  simp only [Setting.step,Setting.proceed] at step
  cases switch : served.processor.running.switch with
  | called state =>
    simp only [switch,Option.some.injEq] at step
    rw [Setting.record_of_switch (by rw [switch]; exact nofun),← step]
    exact serving.move _ rfl rfl rfl id fun _ => id
  | written state =>
    simp only [switch,Option.some.injEq] at step
    rw [Setting.record_of_switch (by rw [switch]; exact nofun),← step]
    exact serving.move _ rfl rfl rfl id fun _ => id
  | idle =>
    simp only [switch,Setting.proceedHandler] at step
    cases place : served.processor.running.place with
    | code | done => simp [place] at step
    | backup irq =>
      simp only [place,Option.some.injEq] at step
      rw [← step]
      simp only [Setting.record,switch,place]
      exact serving.move _ rfl rfl (by rw [place]; rfl) (by rw [place]; exact nofun) (by simp [Place.stored])
    | toKernel irq backupState =>
      simp only [place,Option.some.injEq] at step
      rw [← step]
      simp only [Setting.record,switch,place]
      exact serving.store place
    | handler irq backupState =>
      simp only [place,Option.some.injEq] at step
      rw [← step]
      simp only [Setting.record,switch,place]
      exact serving.move _ rfl rfl (by rw [place]; rfl) (by rw [place]; exact nofun) (by rw [place]; exact fun _ => id)
    | compare irq backupState =>
      simp only [place] at step
      simp only [Setting.record,switch,place]
      split_ifs at step with same
      · rw [← Option.some.inj step]
        exact serving.move _ rfl rfl (by rw [place]; rfl) (by rw [place]; exact nofun) (by rw [place]; exact fun _ => id)
      · rw [← Option.some.inj step]
        exact serving.move _ rfl rfl (by rw [place]; rfl) (by rw [place]; exact nofun) (by rw [place]; exact fun _ => id)
    | back irq backupState =>
      simp only [place,Option.some.injEq] at step
      rw [← step]
      simp only [Setting.record,switch,place]
      exact serving.move _ rfl rfl (by rw [place]; rfl) (by rw [place]; exact nofun) (by rw [place]; exact fun _ => id)
    | acknowledge irq =>
      simp only [place] at step
      simp only [Setting.record,switch,place]
      by_cases spurious : irq = 0xFF
      · rw [if_pos spurious,Option.some.injEq] at step
        rw [if_pos spurious,← step]
        exact serving.move _ rfl rfl (by rw [place]; simp [Place.owes,spurious]) (by rw [place]; exact nofun) (by simp [Place.stored])
      · rw [if_neg spurious,Option.some.injEq] at step
        rw [if_neg spurious,← step]
        exact serving.retire place spurious

theorem Serving.serve {event : ServiceEvent State} (serving : served.Serving) (step : setting.serve served event = some next) :
    next.Serving := by
  cases event with
  | request vector =>
    simp only [Setting.serve,Option.ite_none_right_eq_some,Option.some.injEq] at step
    obtain ⟨⟨_,legal⟩,rfl⟩ := step
    refine ⟨?_,serving.service,serving.ordered,serving.stored,serving.bottom,serving.counted,serving.alone,serving.told⟩
    intro other member
    rcases Finset.mem_insert.mp member with rfl | member
    · exact legal
    · exact serving.asked other member
  | accept vector =>
    simp only [Setting.serve,Option.ite_none_right_eq_some,Option.map_eq_some_iff] at step
    obtain ⟨⟨requested,_,above⟩,pushed,delivered,rfl⟩ := step
    exact serving.accept requested above delivered
  | spurious => exact serving.spurious step
  | call state =>
    simp only [Setting.serve,Option.map_eq_some_iff] at step
    obtain ⟨processor,called,rfl⟩ := step
    simp only [Setting.step,Option.ite_none_right_eq_some,Option.some.injEq] at called
    obtain ⟨_,rfl⟩ := called
    exact serving.move _ rfl rfl rfl id fun _ => id
  | proceed =>
    simp only [Setting.serve,Option.map_eq_some_iff] at step
    obtain ⟨processor,moved,rfl⟩ := step
    exact serving.proceed moved
  | resume =>
    simp only [Setting.serve,Option.map_eq_some_iff] at step
    obtain ⟨processor,moved,rfl⟩ := step
    exact serving.resume moved

/-- In every run of devices that request vectors, an APIC that delivers them by priority,
and handlers that are interrupted and interrupt others, each EOI ends the vector of the
handler that sends it and no other; the vectors in service are those whose handlers have
sent none, so that each accepted interrupt is ended once; and a registered handler of any
vector but the spurious 0xFF finds its own frame under its vector, whatever came in between. -/
theorem end_of_interrupt_by_own_handler {final : ServedProcessor State} {events : List (ServiceEvent State)}
    (initial : served.Initial) (ran : Transition.run setting.serve served events = some final) :
    (∀ entry ∈ final.retired, entry.2 = {entry.1}) ∧
      final.accepted.Perm (final.retired.map Prod.fst ++ final.owed) ∧
      (∀ vector, vector ∈ final.inService ↔ vector ∈ final.owed) ∧
      final.processor.acknowledged = final.retired.length ∧
      (final.processor.interrupted = [] → final.inService = ∅) ∧
      ∀ irq backupState, final.processor.running.place = .handler irq backupState → irq ≠ 0xFF →
        ∃ frame, final.frames.head? = some frame ∧ final.registersForInterrupts irq = some frame := by
  have serving : final.Serving := Transition.run_invariant setting.serve Serving (fun _ _ _ held step => held.serve step)
    initial.serving ran
  refine ⟨serving.alone,serving.counted,serving.service,serving.told,?_,?_⟩
  · intro none
    obtain ⟨handlers,base,stack,plain,_⟩ := serving.bottom
    simp only [contexts,none,List.map_nil] at stack
    have code : final.processor.running.place = .code := by
      cases handlers with
      | nil => rw [(List.cons.inj stack).1,plain]
      | cons handler handlers => simp at stack
    apply Finset.eq_empty_of_forall_notMem
    intro vector member
    have owed := (serving.service vector).mp member
    rw [owed_cons,none,code] at owed
    simp [Place.owes] at owed
  · intro irq backupState place legal
    exact serving.own_frame (by rw [place]; exact if_neg legal)

def keyboardSetting : Setting Bool := ⟨fun _ => 0x1000,false,fun _ => true⟩

def unserved : ServedProcessor Bool := ⟨⟨0x1000,false,⟨.code,.idle⟩,[],0⟩,∅,∅,fun _ => none,[],0,[],[]⟩

/-- The handler of vector 33 is interrupted by vector 64, whose handler ends it before
the spurious vector comes. -/
def nestedInterrupts : List (ServiceEvent Bool) :=
  [[.request 33,.accept 33],List.replicate 4 .proceed,[.request 64,.accept 64],List.replicate 7 .proceed,[.resume,.spurious],
    List.replicate 7 .proceed,[.resume]].flatten

theorem end_of_interrupt_by_own_handler_nestedInterrupts : ∃ final,
    Transition.run keyboardSetting.serve unserved nestedInterrupts = some final ∧
      final.retired = [(64,{64})] ∧ final.inService = {33} ∧
      ∃ frame, final.frames.head? = some frame ∧ final.registersForInterrupts 33 = some frame := by
  have runs : (Transition.run keyboardSetting.serve unserved nestedInterrupts).map
      (fun final => (final.retired,final.inService,final.processor.running.place)) =
        some ([(64,{64})],{33},.handler 33 false) := by decide +kernel
  obtain ⟨final,ran,facts⟩ := Option.map_eq_some_iff.mp runs
  simp only [Prod.mk.injEq] at facts
  obtain ⟨_,_,_,_,_,own⟩ := end_of_interrupt_by_own_handler ⟨rfl,rfl,rfl,rfl,rfl,rfl,rfl,rfl⟩ ran
  exact ⟨final,ran,facts.1,facts.2.1,own 33 false facts.2.2 (by decide)⟩

end ServedProcessor

end BorealOS.Interrupts
