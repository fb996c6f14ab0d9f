import BorealOS.Library.Journal
import BorealOS.Library.Transition
import BorealOS.Logging.LogFmt

/-! The records on the debug port. A context begins its record while it has the log
lock, and ends it after it has given the lock back. As long as nobody writes in
between, the port receives whole records. -/
namespace BorealOS.Logging

open Threading

variable {Id : Type}

/-- A message as the writers hand it over: the calls of `LogFmt`, then the end of the
line. -/
def Message.pieces (message : Message) : List (List UInt8) := message.chunks ++ [lineEnd]

def Stage.progress : Stage → Option (Message × List (List UInt8))
  | .idle => none
  | .logging message left => some (message,left ++ [lineEnd])

theorem Message.flatten_pieces (message : Message) : message.pieces.flatten = message.record := by
  simp [pieces,record]

theorem Message.chunks_ne_nil (message : Message) : message.chunks ≠ [] := by simp [chunks]

theorem Stage.progress_eq_some {stage : Stage} {message : Message} {pieces : List (List UInt8)}
    (busy : stage.progress = some (message,pieces)) : ∃ left, stage = .logging message left ∧ pieces = left ++ [lineEnd] := by
  cases stage with
  | idle => simp [progress] at busy
  | logging other left =>
    simp only [progress,Option.some.injEq,Prod.mk.injEq] at busy
    obtain ⟨rfl,rfl⟩ := busy
    exact ⟨left,rfl,rfl⟩

def Unfinished (context : Context Unit Stage) : Prop := context.sections = [] ∧ ∃ message, context.task = .logging message []

/-- Without the lock, a context has written nothing of its message or has only the end
of the line to write. -/
def Consistent (context : Context Unit Stage) : Prop :=
  ∀ message left, context.task = .logging message left →
    (context.sections = [] → left = message.chunks ∨ left = []) ∧ (context.phase = .store → left = [])

/-- The step writes no part of a record while another context has its line to end. -/
def Undisturbed (log : LogMachine Id) (label : Id × LogEvent) : Prop :=
  label.2 = .write → ∀ id, ∀ context ∈ (log.threads.processors id).contexts, ¬ Unfinished context

instance (context : Context Unit Stage) : Decidable (Unfinished context) :=
  match task : context.task with
  | .logging message [] => decidable_of_iff (context.sections = []) ⟨fun none => ⟨none,message,task⟩,And.left⟩
  | .logging _ (_ :: _) => isFalse fun ⟨_,_,same⟩ => by simp [task] at same
  | .idle => isFalse fun ⟨_,_,same⟩ => by simp [task] at same

instance [Fintype Id] (log : LogMachine Id) (label : Id × LogEvent) : Decidable (Undisturbed log label) :=
  inferInstanceAs (Decidable (label.2 = .write → ∀ id, ∀ context ∈ (log.threads.processors id).contexts, ¬ Unfinished context))

theorem Consistent.of_idle {context : Context Unit Stage} (idle : context.task = .idle) : Consistent context := by
  intro message left task
  rw [idle] at task
  exact Stage.noConfusion task

theorem Consistent.same_sections {context after : Context Unit Stage} (consistent : Consistent context)
    (task : after.task = context.task) (sections : after.sections = context.sections) (elsewhere : after.phase ≠ .store) :
    Consistent after := by
  intro message left busy
  refine ⟨fun outside => ?_,fun store => absurd store elsewhere⟩
  exact (consistent message left (task ▸ busy)).1 (sections ▸ outside)

theorem Consistent.proceed {context after : Context Unit Stage} {locked marks : Unit → Bool} (consistent : Consistent context)
    (step : context.proceed true locked = some (after,marks)) : Consistent after ∧ after.task = context.task := by
  obtain ⟨interrupts,sections,phase,task⟩ := context
  cases phase with
  | code => simp [Context.proceed] at step
  | readFlag | clearFlag | setFlag | leave =>
    simp only [Context.proceed,Option.some.injEq,Prod.mk.injEq] at step
    obtain ⟨rfl,rfl⟩ := step
    exact ⟨consistent.same_sections rfl rfl (by simp),rfl⟩
  | load lock had before =>
    simp only [Context.proceed,Option.some.injEq,Prod.mk.injEq] at step
    obtain ⟨rfl,rfl⟩ := step
    refine ⟨consistent.same_sections rfl rfl ?_,rfl⟩
    cases locked lock <;> simp
  | compareExchange lock had before =>
    simp only [Context.proceed] at step
    split at step
    · simp only [Option.some.injEq,Prod.mk.injEq] at step
      obtain ⟨rfl,rfl⟩ := step
      exact ⟨consistent.same_sections rfl rfl (by simp),rfl⟩
    · simp only [Option.some.injEq,Prod.mk.injEq] at step
      obtain ⟨rfl,rfl⟩ := step
      exact ⟨fun message left task => by simp,rfl⟩
  | store =>
    cases sections with
    | nil => simp [Context.proceed] at step
    | cons innermost outer =>
      simp only [Context.proceed,Option.some.injEq,Prod.mk.injEq] at step
      obtain ⟨rfl,rfl⟩ := step
      refine ⟨fun message left task => ?_,rfl⟩
      have nothing := (consistent message left task).2 rfl
      simp [nothing]

namespace LogMachine

def journal (log : LogMachine Id) : Journal.State (Id × Nat) Message UInt8 :=
  ⟨(fun context => context.bind (·.task.progress)) ∘ log.threads.contextAt,log.port,log.issued⟩

theorem journal_open {log : LogMachine Id} {place : Id × Nat} (opened : Journal.Open Message.pieces log.journal place) :
    ∃ context message left, log.threads.contextAt place = some context ∧ context.task = .logging message left ∧
      left ≠ message.chunks := by
  obtain ⟨message,pieces,busy,different⟩ := opened
  obtain ⟨context,here,progress⟩ := Option.bind_eq_some_iff.mp busy
  obtain ⟨left,task,rfl⟩ := Stage.progress_eq_some progress
  refine ⟨context,message,left,here,task,fun same => different ?_⟩
  rw [same,Message.pieces]

/-- What a run of undisturbed steps keeps of the contexts. -/
structure Sound (log : LogMachine Id) : Prop where
  disciplined : log.threads.Disciplined
  consistent : ∀ place context, log.threads.contextAt place = some context → Consistent context

theorem Sound.running {log : LogMachine Id} (sound : log.Sound) (id : Id) : Consistent (log.threads.processors id).running :=
  sound.consistent _ _ (log.threads.contextAt_top id)

theorem Sound.none_open {log : LogMachine Id} (sound : log.Sound) {id : Id} {message : Message}
    (inside : (log.threads.processors id).running.sections ≠ [])
    (task : (log.threads.processors id).running.task = .logging message message.chunks)
    (finished : ∀ id, ∀ context ∈ (log.threads.processors id).contexts, ¬ Unfinished context) (other : Id × Nat) :
    ¬ Journal.Open Message.pieces log.journal other := by
  intro opened
  obtain ⟨context,theirs,left,here,busy,written⟩ := journal_open opened
  have holding : ∀ context : Context Unit Stage, context.sections ≠ [] → () ∈ context.locks := by
    intro context inside
    obtain ⟨innermost,outer,sections⟩ := List.exists_cons_of_ne_nil inside
    simp [Context.locks,sections]
  by_cases outside : context.sections = []
  · have done := ((sound.consistent other context here theirs left busy).1 outside).resolve_left written
    subst done
    obtain ⟨id,late,member,unfinished⟩ :=
      (log.threads.exists_context_iff Unfinished).mp ⟨other,context,here,outside,theirs,busy⟩
    exact finished id late member unfinished
  · -- the lock has one owner, and the owner has written nothing
    have same := sound.disciplined.alone here (log.threads.contextAt_top id) (holding context outside) (holding _ inside)
    rw [same,log.threads.contextAt_top id,Option.some.injEq] at here
    subst here
    rw [task,Stage.logging.injEq] at busy
    exact written (by rw [← busy.2,busy.1])

theorem journal_top (log : LogMachine Id) (id : Id) :
    log.journal.progress (log.threads.top id) = (log.threads.processors id).running.task.progress := by
  simp [journal,Machine.contextAt_top]

theorem Initial.stack {log : LogMachine Id} (initial : log.Initial) {place : Id × Nat} {context : Context Unit Stage}
    (here : log.threads.contextAt place = some context) : context.task = .idle := by
  rw [initial.threads.contextAt here,initial.idle]

variable [DecidableEq Id]

theorem journal_progress {log next : LogMachine Id} {place : Id × Nat} {after : Option (Context Unit Stage)}
    (contexts : next.threads.contextAt = Function.update log.threads.contextAt place after) :
    next.journal.progress = Function.update log.journal.progress place (after.bind (·.task.progress)) := by
  simp only [journal]
  rw [contexts,Function.comp_update]

theorem Sound.update {log next : LogMachine Id} {place : Id × Nat} {after : Option (Context Unit Stage)} (sound : log.Sound)
    (disciplined : next.threads.Disciplined)
    (contexts : next.threads.contextAt = Function.update log.threads.contextAt place after)
    (consistent : ∀ context, after = some context → Consistent context) : next.Sound :=
  ⟨disciplined,Machine.forall_context_update contexts sound.consistent consistent⟩

theorem journal_keep {log next : LogMachine Id} {place : Id × Nat} {after : Option (Context Unit Stage)}
    (contexts : next.threads.contextAt = Function.update log.threads.contextAt place after)
    (same : after.bind (·.task.progress) = log.journal.progress place) (port : next.port = log.port)
    (issued : next.issued = log.issued) : Journal.Step Message.pieces log.journal next.journal := by
  refine .keep ?_ port issued
  rw [journal_progress contexts,same,Function.update_eq_self]

theorem Sound.run {log next : LogMachine Id} {id : Id} {context : Context Unit Stage} {locked : Unit → Bool} (sound : log.Sound)
    (disciplined : next.threads.Disciplined) (consistent : Consistent context)
    (threads : next.threads =
      ⟨locked,Function.update log.threads.processors id { log.threads.processors id with running := context }⟩) :
    next.Sound ∧ next.journal.progress = Function.update log.journal.progress (log.threads.top id) context.task.progress := by
  have contexts : next.threads.contextAt = Function.update log.threads.contextAt (log.threads.top id) (some context) := by
    rw [threads]
    exact Machine.contextAt_run context
  refine ⟨sound.update disciplined contexts fun other same => ?_,journal_progress contexts⟩
  rw [Option.some.injEq] at same
  exact same ▸ consistent

theorem Sound.run_keep {log next : LogMachine Id} {id : Id} {context : Context Unit Stage} {locked : Unit → Bool}
    (sound : log.Sound) (disciplined : next.threads.Disciplined) (consistent : Consistent context)
    (threads : next.threads =
      ⟨locked,Function.update log.threads.processors id { log.threads.processors id with running := context }⟩)
    (task : context.task = (log.threads.processors id).running.task) (port : next.port = log.port)
    (issued : next.issued = log.issued) : next.Sound ∧ Journal.Step Message.pieces log.journal next.journal := by
  obtain ⟨sound,progress⟩ := sound.run disciplined consistent threads
  refine ⟨sound,.keep ?_ port issued⟩
  rw [progress,task,← journal_top,Function.update_eq_self]

variable {minimumLogLevel : LogLevel} {log next : LogMachine Id} {id : Id}

theorem step_threads {action : LogEvent} (step : log.step minimumLogLevel (id,action) = some next) : ∃ event bytes processor locked,
    translate minimumLogLevel (log.threads.processors id).running action = some (event,bytes) ∧
      (log.threads.processors id).perform true log.threads.locked event = some (processor,locked) ∧
        next.threads = ⟨locked,Function.update log.threads.processors id processor⟩ ∧ next.port = log.port ++ bytes ∧
          next.issued = log.issued ++ called (log.threads.top id) action := by
  simp only [LogMachine.step,Machine.step,Option.bind_eq_bind,Option.bind_eq_some_iff,Option.map_eq_some_iff,Prod.exists] at step
  obtain ⟨event,bytes,translated,threads,⟨processor,locked,performed,rfl⟩,made⟩ := step
  rw [Option.pure_def,Option.some.injEq] at made
  subst made
  exact ⟨event,bytes,processor,locked,translated,performed,rfl,rfl,rfl⟩

theorem Sound.disciplined_next {action : LogEvent} (sound : log.Sound)
    (step : log.step minimumLogLevel (id,action) = some next) : next.threads.Disciplined := by
  obtain ⟨event,_,_,_,_,performed,threads,_,_⟩ := step_threads step
  have moved : log.threads.step true (id,event) = some next.threads := by
    rw [Machine.step,performed,threads,Option.map_some]
  exact sound.disciplined.step moved

theorem Sound.call {message : Message} (sound : log.Sound) (step : log.step minimumLogLevel (id,.call message) = some next) :
    next.Sound ∧ Journal.Step Message.pieces log.journal next.journal := by
  obtain ⟨event,bytes,processor,locked,translated,performed,threads,port,issued⟩ := step_threads step
  simp only [translate,Option.ite_none_right_eq_some,Option.some.injEq,Prod.mk.injEq] at translated
  obtain ⟨⟨idle,_⟩,rfl,rfl⟩ := translated
  simp only [Processor.perform,Option.ite_none_right_eq_some,Option.some.injEq,Prod.mk.injEq] at performed
  obtain ⟨code,rfl,rfl⟩ := performed
  have consistent : Consistent { (log.threads.processors id).running with task := .logging message message.chunks } := by
    intro other left task
    rw [Stage.logging.injEq] at task
    exact ⟨fun _ => Or.inl (task.1 ▸ task.2.symm),fun store => absurd (code.symm.trans store) (by simp)⟩
  obtain ⟨after,progress⟩ := sound.run (sound.disciplined_next step) consistent threads
  refine ⟨after,.issue (log.threads.top id) message ?_ progress ?_ issued⟩
  · rw [journal_top,idle,Stage.progress]
  · rw [journal,journal,port,List.append_nil]

theorem Sound.write (sound : log.Sound) (undisturbed : Undisturbed log (id,.write))
    (step : log.step minimumLogLevel (id,.write) = some next) :
    next.Sound ∧ Journal.Step Message.pieces log.journal next.journal := by
  obtain ⟨event,bytes,processor,locked,translated,performed,threads,port,issued⟩ := step_threads step
  simp only [translate] at translated
  split at translated
  · rename_i message chunk left task
    simp only [Option.ite_none_right_eq_some,Option.some.injEq,Prod.mk.injEq] at translated
    obtain ⟨inside,rfl,rfl⟩ := translated
    simp only [Processor.perform,Option.ite_none_right_eq_some,Option.some.injEq,Prod.mk.injEq] at performed
    obtain ⟨code,rfl,rfl⟩ := performed
    have consistent : Consistent { (log.threads.processors id).running with task := .logging message left } := by
      intro other more task
      exact ⟨fun outside => absurd outside inside,fun store => absurd (code.symm.trans store) (by simp)⟩
    obtain ⟨after,progress⟩ := sound.run (sound.disciplined_next step) consistent threads
    refine ⟨after,.write (log.threads.top id) message chunk (left ++ [lineEnd]) ?_ (by simp) ?_ progress port ?_⟩
    · rw [journal_top,task,Stage.progress,List.cons_append]
    · intro whole
      have all : chunk :: left = message.chunks := List.append_cancel_right whole
      exact sound.none_open inside (all ▸ task) (undisturbed rfl)
    · simpa [journal,called] using issued
  · exact absurd translated (by simp)

theorem Sound.endLine (sound : log.Sound) (step : log.step minimumLogLevel (id,.endLine) = some next) :
    next.Sound ∧ Journal.Step Message.pieces log.journal next.journal := by
  obtain ⟨event,bytes,processor,locked,translated,performed,threads,port,issued⟩ := step_threads step
  simp only [translate] at translated
  split at translated
  · rename_i message task
    simp only [Option.ite_none_right_eq_some,Option.some.injEq,Prod.mk.injEq] at translated
    obtain ⟨outside,rfl,rfl⟩ := translated
    simp only [Processor.perform,Option.ite_none_right_eq_some,Option.some.injEq,Prod.mk.injEq] at performed
    obtain ⟨code,rfl,rfl⟩ := performed
    obtain ⟨after,progress⟩ := sound.run (sound.disciplined_next step) (Consistent.of_idle rfl) threads
    refine ⟨after,.finish (log.threads.top id) message lineEnd ?_ ?_ progress port ?_⟩
    · rw [journal_top,task,Stage.progress,List.nil_append]
    · intro whole
      have nothing : message.chunks = [] := by simpa [Message.pieces] using whole.symm
      exact absurd nothing message.chunks_ne_nil
    · simpa [journal,called] using issued
  · exact absurd translated (by simp)

theorem Sound.lock (sound : log.Sound) (step : log.step minimumLogLevel (id,.lock) = some next) :
    next.Sound ∧ Journal.Step Message.pieces log.journal next.journal := by
  obtain ⟨event,bytes,processor,locked,translated,performed,threads,port,issued⟩ := step_threads step
  simp only [translate] at translated
  split at translated
  · simp only [Option.ite_none_right_eq_some,Option.some.injEq,Prod.mk.injEq] at translated
    obtain ⟨_,rfl,rfl⟩ := translated
    simp only [Processor.perform,Option.ite_none_right_eq_some,Option.some.injEq,Prod.mk.injEq] at performed
    obtain ⟨_,rfl,rfl⟩ := performed
    refine sound.run_keep (sound.disciplined_next step) ?_ threads rfl (by simpa using port) (by simpa [called] using issued)
    exact (sound.running id).same_sections rfl rfl (by simp)
  · exact absurd translated (by simp)

theorem Sound.unlock (sound : log.Sound) (step : log.step minimumLogLevel (id,.unlock) = some next) :
    next.Sound ∧ Journal.Step Message.pieces log.journal next.journal := by
  obtain ⟨event,bytes,processor,locked,translated,performed,threads,port,issued⟩ := step_threads step
  simp only [translate] at translated
  split at translated
  · rename_i message task
    simp only [Option.some.injEq,Prod.mk.injEq] at translated
    obtain ⟨rfl,rfl⟩ := translated
    simp only [Processor.perform,Option.ite_none_right_eq_some,Option.some.injEq,Prod.mk.injEq] at performed
    obtain ⟨_,rfl,rfl⟩ := performed
    have consistent : Consistent { (log.threads.processors id).running with phase := .store } := by
      intro other left busy
      have nothing : left = [] := by
        rw [task,Stage.logging.injEq] at busy
        exact busy.2.symm
      exact ⟨fun _ => Or.inr nothing,fun _ => nothing⟩
    exact sound.run_keep (sound.disciplined_next step) consistent threads rfl (by simpa using port) (by simpa [called] using issued)
  · exact absurd translated (by simp)

theorem Sound.proceed (sound : log.Sound) (step : log.step minimumLogLevel (id,.proceed) = some next) :
    next.Sound ∧ Journal.Step Message.pieces log.journal next.journal := by
  obtain ⟨event,bytes,processor,locked,translated,performed,threads,port,issued⟩ := step_threads step
  simp only [translate,Option.some.injEq,Prod.mk.injEq] at translated
  obtain ⟨rfl,rfl⟩ := translated
  simp only [Processor.perform,Option.map_eq_some_iff,Prod.mk.injEq,Prod.exists] at performed
  obtain ⟨context,marks,moved,rfl,rfl⟩ := performed
  obtain ⟨consistent,task⟩ := (sound.running id).proceed moved
  exact sound.run_keep (sound.disciplined_next step) consistent threads task (by simpa using port) (by simpa [called] using issued)

theorem Sound.changeFlag {interrupts : Bool} (sound : log.Sound)
    (step : log.step minimumLogLevel (id,.changeFlag interrupts) = some next) :
    next.Sound ∧ Journal.Step Message.pieces log.journal next.journal := by
  obtain ⟨event,bytes,processor,locked,translated,performed,threads,port,issued⟩ := step_threads step
  simp only [translate,Option.ite_none_right_eq_some,Option.some.injEq,Prod.mk.injEq] at translated
  obtain ⟨idle,rfl,rfl⟩ := translated
  simp only [Processor.perform,Option.ite_none_right_eq_some,Option.some.injEq,Prod.mk.injEq] at performed
  obtain ⟨_,rfl,rfl⟩ := performed
  refine sound.run_keep (sound.disciplined_next step) ?_ threads rfl (by simpa using port) (by simpa [called] using issued)
  exact Consistent.of_idle idle

theorem Sound.interrupt (sound : log.Sound) (step : log.step minimumLogLevel (id,.interrupt) = some next) :
    next.Sound ∧ Journal.Step Message.pieces log.journal next.journal := by
  obtain ⟨event,bytes,processor,locked,translated,performed,threads,port,issued⟩ := step_threads step
  simp only [translate,Option.some.injEq,Prod.mk.injEq] at translated
  obtain ⟨rfl,rfl⟩ := translated
  simp only [Processor.perform,Option.ite_none_right_eq_some,Option.some.injEq,Prod.mk.injEq] at performed
  obtain ⟨_,rfl,rfl⟩ := performed
  have contexts := congrArg Machine.contextAt threads
  rw [Machine.contextAt_interrupt] at contexts
  refine ⟨sound.update (sound.disciplined_next step) contexts fun context same => ?_,?_⟩
  · rw [Option.some.injEq] at same
    exact same ▸ Consistent.of_idle rfl
  · refine journal_keep contexts ?_ (by simpa using port) (by simpa [called] using issued)
    simp [journal,Machine.contextAt_above,Context.handler,Stage.progress]

theorem Sound.resume (sound : log.Sound) (step : log.step minimumLogLevel (id,.resume) = some next) :
    next.Sound ∧ Journal.Step Message.pieces log.journal next.journal := by
  obtain ⟨event,bytes,processor,locked,translated,performed,threads,port,issued⟩ := step_threads step
  simp only [translate,Option.ite_none_right_eq_some,Option.some.injEq,Prod.mk.injEq] at translated
  obtain ⟨idle,rfl,rfl⟩ := translated
  obtain ⟨context,deeper,stack,_,rfl,rfl⟩ := Processor.perform_resume performed
  have contexts := congrArg Machine.contextAt threads
  rw [Machine.contextAt_resume stack] at contexts
  refine ⟨sound.update (sound.disciplined_next step) contexts fun context same => ?_,?_⟩
  · exact absurd same (by simp)
  · refine journal_keep contexts ?_ (by simpa using port) (by simpa [called] using issued)
    rw [journal_top,idle,Stage.progress,Option.bind_none]

theorem Sound.step {label : Id × LogEvent} (sound : log.Sound) (undisturbed : Undisturbed log label)
    (step : log.step minimumLogLevel label = some next) :
    next.Sound ∧ Journal.Step Message.pieces log.journal next.journal := by
  obtain ⟨id,action⟩ := label
  cases action with
  | call message => exact sound.call step
  | lock => exact sound.lock step
  | write => exact sound.write undisturbed step
  | unlock => exact sound.unlock step
  | endLine => exact sound.endLine step
  | proceed => exact sound.proceed step
  | changeFlag interrupts => exact sound.changeFlag step
  | interrupt => exact sound.interrupt step
  | resume => exact sound.resume step

def current (log : LogMachine Id) (place : Id × Nat) : Option Message := log.journal.current place

/-- The port has received whole records, at the end perhaps with the beginning of one
that is in the making, and the records of every context are its messages in the order
of its calls. -/
def Unspliced (log : LogMachine Id) : Prop :=
  ∃ (records : List ((Id × Nat) × Message)) (fragment : List UInt8),
    log.port = records.flatMap (fun entry => entry.2.record) ++ fragment ∧
      (fragment = [] ∨ ∃ place message, log.current place = some message ∧ fragment <+: message.record) ∧
        ∀ place, Journal.ofWriter log.issued place = Journal.ofWriter records place ++ (log.current place).toList

theorem unspliced_of_recorded {records : List ((Id × Nat) × Message)} {fragment : List UInt8}
    (recorded : Journal.Recorded Message.pieces log.journal records fragment) : log.Unspliced := by
  refine ⟨records,fragment,?_,?_,recorded.order⟩
  · have output := recorded.output
    simp only [Message.flatten_pieces] at output
    exact output
  · refine recorded.fragment_begins.imp_right ?_
    rintro ⟨place,message,busy,begins⟩
    rw [Message.flatten_pieces] at begins
    exact ⟨place,message,busy,begins⟩

/-- In every run in which no part of a record is written while another context has its
line to end, the port receives records that are not spliced. -/
theorem records_unspliced {final : LogMachine Id} {trace : List (Id × LogEvent)} (initial : log.Initial)
    (undisturbed : Transition.Along (step minimumLogLevel) Undisturbed log trace)
    (ran : Transition.run (step minimumLogLevel) log trace = some final) : final.Unspliced := by
  have kept : final.Sound ∧ ∃ records fragment, Journal.Recorded Message.pieces final.journal records fragment := by
    refine Transition.run_preserves (step minimumLogLevel)
      (fun log => log.Sound ∧ ∃ records fragment, Journal.Recorded Message.pieces log.journal records fragment)
      Undisturbed ?_ undisturbed ?_ ran
    · rintro log label next allowed ⟨sound,records,fragment,recorded⟩ moved
      obtain ⟨after,step⟩ := sound.step allowed moved
      exact ⟨after,recorded.step step⟩
    · refine ⟨⟨Machine.disciplined_initial initial.threads,fun place context here => ?_⟩,[],[],?_⟩
      · exact Consistent.of_idle (initial.stack here)
      · refine .initial (fun place => ?_) initial.port initial.issued
        simp only [journal,Function.comp_apply,Option.bind_eq_none_iff]
        intro context here
        rw [initial.stack here,Stage.progress]
  obtain ⟨_,records,fragment,recorded⟩ := kept
  exact unspliced_of_recorded recorded

/-- When only one message was called for and nothing is in the making, the port has
received nothing or begins with the record of the message. -/
theorem Unspliced.begins (unspliced : log.Unspliced) {message : Message} (completed : ∀ place, log.current place = none)
    (only : ∀ entry ∈ log.issued, entry.2 = message) : log.port = [] ∨ message.record <+: log.port := by
  obtain ⟨records,fragment,port,making,order⟩ := unspliced
  have nothing : fragment = [] := by
    rcases making with nothing | ⟨place,other,busy,_⟩
    · exact nothing
    · simp [completed] at busy
  rw [nothing,List.append_nil] at port
  cases records with
  | nil => exact Or.inl port
  | cons entry rest =>
    have member : entry.2 ∈ Journal.ofWriter log.issued entry.1 := by
      rw [order,completed,Option.toList_none,List.append_nil,Journal.mem_ofWriter]
      exact List.mem_cons_self
    have same := only _ ((Journal.mem_ofWriter _ _ _).mp member)
    simp only at same
    rw [port,List.flatMap_cons,same]
    exact Or.inr (List.prefix_append _ _)

end LogMachine

def silentPair : LogMachine Bool := ⟨⟨fun _ => false,fun _ => ⟨⟨true,[],.code,.idle⟩,[]⟩⟩,[],[]⟩

theorem silentPair_initial : silentPair.Initial :=
  ⟨⟨fun _ => rfl,fun _ => ⟨rfl,rfl⟩⟩,fun _ => rfl,rfl,rfl⟩

def blank : Message := ⟨.info,[],[]⟩

/-- What `LogFmt` does for such a message: it takes the lock, makes its seven writes and
gives the lock back. -/
def logFmt (id : Bool) : List (Bool × LogEvent) :=
  [(id,.call blank),(id,.lock)] ++ List.replicate 4 (id,.proceed) ++ List.replicate 7 (id,.write) ++ [(id,.unlock)] ++
    List.replicate 3 (id,.proceed)

def oneAfterTheOther : List (Bool × LogEvent) := logFmt false ++ [(false,.endLine)] ++ logFmt true ++ [(true,.endLine)]

theorem records_unspliced_oneAfterTheOther : ∃ final,
    Transition.run (LogMachine.step .info) silentPair oneAfterTheOther = some final ∧
      final.port = blank.record ++ blank.record ∧ final.Unspliced := by
  have runs : (Transition.run (LogMachine.step .info) silentPair oneAfterTheOther).map (·.port) =
      some (blank.record ++ blank.record) := by decide +kernel
  have undisturbed : Transition.Along (LogMachine.step .info) Undisturbed silentPair oneAfterTheOther := by decide +kernel
  obtain ⟨final,ran,port⟩ := Option.map_eq_some_iff.mp runs
  exact ⟨final,ran,port,LogMachine.records_unspliced silentPair_initial undisturbed ran⟩

def beforeTheEnd : List (Bool × LogEvent) := logFmt false ++ logFmt true ++ [(false,.endLine),(true,.endLine)]

theorem not_always_unspliced : ¬ ∀ trace final,
    Transition.run (LogMachine.step .info) silentPair trace = some final → final.Unspliced := by
  intro always
  have runs : (Transition.run (LogMachine.step .info) silentPair beforeTheEnd).isSome := by decide +kernel
  have ran := (Option.some_get runs).symm
  generalize reached : (Transition.run (LogMachine.step .info) silentPair beforeTheEnd).get runs = final at ran
  have port : final.port = blank.chunks.flatten ++ blank.chunks.flatten ++ lineEnd ++ lineEnd := by
    rw [← reached]
    rfl
  have issued : final.issued = [((false,0),blank),((true,0),blank)] := by
    rw [← reached]
    rfl
  have completed : ∀ place, final.current place = none := by
    rw [← reached]
    rintro ⟨id,height⟩
    cases id <;> cases height <;> rfl
  have only : ∀ entry ∈ final.issued, entry.2 = blank := by simp [issued]
  rcases (always _ _ ran).begins completed only with nothing | begins
  · rw [port] at nothing
    exact absurd nothing (by decide)
  · rw [port] at begins
    exact absurd begins (by decide)

end BorealOS.Logging
