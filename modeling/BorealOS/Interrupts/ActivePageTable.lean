import BorealOS.Interrupts.IRQHandler

/-! Whether `cr3` and `pageState` name the same page table. `IRQHandler` brings back
the recorded page table and not the active one, so an interrupt between the two
writes of a switch leaves them apart. Without such an interrupt they agree whenever
no switch is in progress, and interrupted code finds both as it left them. -/
namespace BorealOS.Interrupts

variable {State : Type} (setting : Setting State)

namespace Processor

def Settled (processor : Processor State) : Prop :=
  processor.running.switch = .idle ∧ ∀ below ∈ processor.interrupted, below.context.switch = .idle

end Processor

/-- The active and the recorded page table agree unless a switch is in progress, and a
return to code outside of a switch finds both as they were at the interrupt. -/
def Steady [DecidableEq State] (processor : Processor State) : Prop :=
  (processor.Settled → processor.cr3 = setting.pml4 processor.pageState) ∧
    ∀ below deeper next, processor.interrupted = below :: deeper → below.context.switch = .idle →
      setting.step processor .resume = some next → next.cr3 = below.cr3 ∧ next.pageState = below.pageState

/-- An interrupt does not come between the two writes of a switch to another table. -/
def Harmless (processor : Processor State) : Event State → Prop
  | .interrupt _ => ∀ state, processor.running.switch = .written state →
    setting.pml4 state = setting.pml4 processor.pageState
  | _ => True

def Agrees (cr3 : Word) (pageState : State) : Switch State → Prop
  | .idle => cr3 = setting.pml4 pageState
  | .called _ => cr3 = setting.pml4 pageState
  | .written state => cr3 = setting.pml4 state

/-- A handler on its way to bring back a recorded page table. -/
def Restores (context : Context State) (pageState saved : State) : Prop :=
  match context.place with
  | .code => False
  | .backup _ => context.switch = .idle ∧ pageState = saved
  | .toKernel _ backupState => backupState = saved
  | .handler _ backupState => backupState = saved
  | .compare _ backupState => backupState = saved
  | .back _ backupState => backupState = saved ∧
    (context.switch = .called saved ∨ context.switch = .written saved ∨ context.switch = .idle ∧ pageState = saved)
  | .acknowledge _ => context.switch = .idle ∧ pageState = saved
  | .done => context.switch = .idle ∧ pageState = saved

/-- Every context restores the page table of the one below it, down to plain code. -/
def Stacked (context : Context State) (pageState : State) : List (Interrupted State) → Prop
  | [] => context.place = .code
  | below :: deeper => Restores context pageState below.pageState ∧ below.cr3 = setting.pml4 below.pageState ∧
    Agrees setting below.cr3 below.pageState below.context.switch ∧ Stacked below.context below.pageState deeper

variable {setting} in
theorem Stacked.change {context next : Context State} {pageState after : State} {stack : List (Interrupted State)}
    (stacked : Stacked setting context pageState stack) (stays : context.place = .code → next.place = .code)
    (restores : ∀ saved, Restores context pageState saved → Restores next after saved) :
    Stacked setting next after stack := by
  cases stack with
  | nil => exact stays stacked
  | cons below deeper => exact ⟨restores _ stacked.1,stacked.2⟩

def Tracked (processor : Processor State) : Prop :=
  Agrees setting processor.cr3 processor.pageState processor.running.switch ∧
    Stacked setting processor.running processor.pageState processor.interrupted

variable {setting} {processor next : Processor State}

theorem restores_written {place : Place State} {state pageState saved : State}
    (restores : Restores ⟨place,.called state⟩ pageState saved) : Restores ⟨place,.written state⟩ pageState saved := by
  cases place with
  | back irq backupState =>
    obtain ⟨same,begun | written | ⟨idle,_⟩⟩ := restores
    · exact ⟨same,.inr (.inl (congrArg Switch.written (Switch.called.inj begun)))⟩
    · exact nomatch written
    · exact nomatch idle
  | backup irq => exact nomatch restores.1
  | acknowledge irq => exact nomatch restores.1
  | done => exact nomatch restores.1
  | code => exact restores
  | toKernel irq backupState => exact restores
  | handler irq backupState => exact restores
  | compare irq backupState => exact restores

theorem restores_stored {place : Place State} {state pageState saved : State}
    (restores : Restores ⟨place,.written state⟩ pageState saved) : Restores ⟨place,.idle⟩ state saved := by
  cases place with
  | back irq backupState =>
    obtain ⟨same,begun | written | ⟨idle,_⟩⟩ := restores
    · exact nomatch begun
    · exact ⟨same,.inr (.inr ⟨rfl,Switch.written.inj written⟩)⟩
    · exact nomatch idle
  | backup irq => exact nomatch restores.1
  | acknowledge irq => exact nomatch restores.1
  | done => exact nomatch restores.1
  | code => exact restores
  | toKernel irq backupState => exact restores
  | handler irq backupState => exact restores
  | compare irq backupState => exact restores

variable [DecidableEq State]

theorem Tracked.proceedHandler (tracked : Tracked setting processor) (idle : processor.running.switch = .idle)
    (step : setting.proceedHandler processor = some next) : Tracked setting next := by
  obtain ⟨cr3,pageState,⟨place,switch⟩,interrupted,acknowledged⟩ := processor
  obtain ⟨agrees,stacked⟩ := tracked
  subst idle
  cases place with
  | code => simp [Setting.proceedHandler] at step
  | backup irq =>
    simp only [Setting.proceedHandler,Option.some.injEq] at step
    subst step
    exact ⟨agrees,stacked.change nofun (fun saved holds => holds.2)⟩
  | toKernel irq backupState =>
    simp only [Setting.proceedHandler,Option.some.injEq] at step
    subst step
    exact ⟨agrees,stacked.change nofun (fun saved holds => holds)⟩
  | handler irq backupState =>
    simp only [Setting.proceedHandler,Option.some.injEq] at step
    subst step
    exact ⟨agrees,stacked.change nofun (fun saved holds => holds)⟩
  | compare irq backupState =>
    simp only [Setting.proceedHandler] at step
    split at step
    · simp only [Option.some.injEq] at step
      subst step
      refine ⟨agrees,stacked.change nofun (fun saved holds => ?_)⟩
      have same : backupState = saved := holds
      exact ⟨same,.inl (congrArg Switch.called same)⟩
    · rename_i unchanged
      simp only [Option.some.injEq] at step
      subst step
      refine ⟨agrees,stacked.change nofun (fun saved holds => ⟨rfl,?_⟩)⟩
      exact (not_not.mp unchanged).symm.trans holds
  | back irq backupState =>
    simp only [Setting.proceedHandler,Option.some.injEq] at step
    subst step
    refine ⟨agrees,stacked.change nofun (fun saved holds => ⟨rfl,?_⟩)⟩
    obtain ⟨_,begun | written | ⟨_,same⟩⟩ := holds
    · exact nomatch begun
    · exact nomatch written
    · exact same
  | acknowledge irq =>
    simp only [Setting.proceedHandler] at step
    split at step
    · simp only [Option.some.injEq] at step
      subst step
      exact ⟨agrees,stacked.change nofun (fun saved holds => holds)⟩
    · simp only [Option.some.injEq] at step
      subst step
      exact ⟨agrees,stacked.change nofun (fun saved holds => holds)⟩
  | done => simp [Setting.proceedHandler] at step

theorem Tracked.proceed (tracked : Tracked setting processor) (step : setting.proceed processor = some next) :
    Tracked setting next := by
  simp only [Setting.proceed] at step
  split at step
  · rename_i idle
    exact tracked.proceedHandler idle step
  · rename_i state called
    obtain ⟨cr3,pageState,⟨place,switch⟩,interrupted,acknowledged⟩ := processor
    simp only [Option.some.injEq] at step
    subst called step
    exact ⟨rfl,tracked.2.change (fun code => code) (fun saved => restores_written)⟩
  · rename_i state written
    obtain ⟨cr3,pageState,⟨place,switch⟩,interrupted,acknowledged⟩ := processor
    simp only [Option.some.injEq] at step
    subst written step
    exact ⟨tracked.1,tracked.2.change (fun code => code) (fun saved => restores_stored)⟩

theorem Tracked.step {event : Event State} (harmless : Harmless setting processor event)
    (tracked : Tracked setting processor) (step : setting.step processor event = some next) : Tracked setting next := by
  obtain ⟨agrees,stacked⟩ := tracked
  cases event with
  | call state =>
    simp only [Setting.step,Option.ite_none_right_eq_some,Option.some.injEq] at step
    obtain ⟨⟨idle,allowed⟩,rfl⟩ := step
    obtain ⟨cr3,pageState,⟨place,switch⟩,interrupted,acknowledged⟩ := processor
    subst idle
    refine ⟨agrees,stacked.change (fun code => code) (fun saved holds => ?_)⟩
    cases place with
    | code => exact holds
    | handler irq backupState => exact holds
    | backup irq => exact nomatch allowed
    | toKernel irq backupState => exact nomatch allowed
    | compare irq backupState => exact nomatch allowed
    | back irq backupState => exact nomatch allowed
    | acknowledge irq => exact nomatch allowed
    | done => exact nomatch allowed
  | proceed => exact Tracked.proceed ⟨agrees,stacked⟩ step
  | interrupt irq =>
    simp only [Setting.step,Option.some.injEq] at step
    subst step
    have recorded : processor.cr3 = setting.pml4 processor.pageState := by
      cases switch : processor.running.switch with
      | idle => simpa [Agrees,switch] using agrees
      | called state => simpa [Agrees,switch] using agrees
      | written state =>
        rw [← harmless state switch]
        simpa [Agrees,switch] using agrees
    exact ⟨recorded,⟨rfl,rfl⟩,recorded,agrees,stacked⟩
  | resume =>
    simp only [Setting.step] at step
    split at step
    · exact nomatch step
    · rename_i below deeper top
      simp only [Option.ite_none_right_eq_some,Option.some.injEq] at step
      obtain ⟨done,rfl⟩ := step
      rw [top] at stacked
      obtain ⟨restores,recorded,agreed,beneath⟩ := stacked
      rw [Restores,done] at restores
      rw [restores.1] at agrees
      have same : processor.cr3 = below.cr3 := by
        rw [recorded,← restores.2]
        exact agrees
      simp only [Tracked,same,restores.2]
      exact ⟨agreed,beneath⟩

theorem Tracked.steady (tracked : Tracked setting processor) : Steady setting processor := by
  obtain ⟨agrees,stacked⟩ := tracked
  refine ⟨fun settled => ?_,fun below deeper next top idle step => ?_⟩
  · rw [settled.1] at agrees
    exact agrees
  · simp only [Setting.step,top,Option.ite_none_right_eq_some,Option.some.injEq] at step
    obtain ⟨done,rfl⟩ := step
    rw [top] at stacked
    obtain ⟨restores,recorded,_⟩ := stacked
    rw [Restores,done] at restores
    rw [restores.1] at agrees
    refine ⟨?_,restores.2⟩
    rw [recorded,← restores.2]
    exact agrees

def Processor.start (setting : Setting State) (pageState : State) : Processor State :=
  ⟨setting.pml4 pageState,pageState,⟨.code,.idle⟩,[],0⟩

/-- In every run in which no interrupt comes between the two writes of a switch to
another table, every state is steady. -/
theorem steady_of_harmless (setting : Setting State) (pageState : State) (trace : List (Event State)) (final : Processor State)
    (harmless : Transition.Along setting.step (Harmless setting) (.start setting pageState) trace)
    (ran : Transition.run setting.step (.start setting pageState) trace = some final) : Steady setting final := by
  have tracked : Tracked setting final := Transition.run_preserves setting.step (Tracked setting) (Harmless setting)
    (fun _ _ _ allowed holds step => holds.step allowed step) harmless ⟨rfl,rfl⟩ ran
  exact tracked.steady

def twoTables : Setting Bool := ⟨fun state => if state then 0x2000 else 0x1000,false,fun _ => false⟩

def interruptedBefore : List (Event Bool) :=
  [.call true,.interrupt 32,.proceed,.proceed,.proceed,.proceed,.proceed,.proceed,.proceed,.resume,.proceed,.proceed]

theorem steady_of_harmless_interruptedBefore :
    Transition.run twoTables.step (.start twoTables false) interruptedBefore = some ⟨0x2000,true,⟨.code,.idle⟩,[],1⟩ ∧
      Steady twoTables ⟨0x2000,true,⟨.code,.idle⟩,[],1⟩ := by
  have ran : Transition.run twoTables.step (.start twoTables false) interruptedBefore =
      some ⟨0x2000,true,⟨.code,.idle⟩,[],1⟩ := by decide
  have harmless : Transition.Along twoTables.step (Harmless twoTables) (.start twoTables false) interruptedBefore := by
    simp [interruptedBefore,Transition.Along,Harmless,Setting.step,Setting.proceed,Setting.proceedHandler,
      Setting.mayCall,Processor.start]
  exact ⟨ran,steady_of_harmless twoTables false interruptedBefore _ harmless ran⟩

def interruptedBetween : List (Event Bool) :=
  [.call true,.proceed,.interrupt 32,.proceed,.proceed,.proceed,.proceed,.proceed,.proceed,.proceed,.resume,.proceed]

theorem not_always_steady : ¬ ∀ trace final,
    Transition.run twoTables.step (.start twoTables false) trace = some final → Steady twoTables final := by
  intro always
  have ran : Transition.run twoTables.step (.start twoTables false) interruptedBetween =
      some ⟨0x1000,true,⟨.code,.idle⟩,[],1⟩ := by decide
  have settled : Processor.Settled (⟨0x1000,true,⟨.code,.idle⟩,[],1⟩ : Processor Bool) := ⟨rfl,nofun⟩
  exact absurd ((always _ _ ran).1 settled) (by decide)

end BorealOS.Interrupts
