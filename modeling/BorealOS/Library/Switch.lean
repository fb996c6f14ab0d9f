import Mathlib

/-! A device that a command switches on, some time after it is written. A caller reads
whether the device is on, and if not it writes the command and reads again until it
is. When callers enter one at a time, at most one command is ever written. -/
namespace Switch

variable {Caller Command : Type}

inductive Status where
  | outside
  | entered
  | writing
  | polling
  | returning
deriving DecidableEq, Repr

structure State (Caller Command : Type) where
  status : Caller → Status
  on : Bool
  commands : List Command

def State.read (state : State Caller Command) (otherwise : Status) : Status := if state.on then .returning else otherwise

/-- One step of the callers or of the device, where callers enter one at a time. -/
inductive Move [DecidableEq Caller] (state next : State Caller Command) : Prop
  | keep (status : next.status = state.status) (on : next.on = state.on) (commands : next.commands = state.commands)
  | enter (caller : Caller) (alone : ∀ other, state.status other = .outside)
    (status : next.status = Function.update state.status caller .entered)
    (on : next.on = state.on) (commands : next.commands = state.commands)
  | test (caller : Caller) (had : state.status caller = .entered)
    (status : next.status = Function.update state.status caller (state.read .writing))
    (on : next.on = state.on) (commands : next.commands = state.commands)
  | write (caller : Caller) (command : Command) (had : state.status caller = .writing)
    (status : next.status = Function.update state.status caller .polling)
    (on : next.on = state.on) (commands : next.commands = state.commands ++ [command])
  | poll (caller : Caller) (had : state.status caller = .polling)
    (status : next.status = Function.update state.status caller (state.read .polling))
    (on : next.on = state.on) (commands : next.commands = state.commands)
  | leave (caller : Caller) (had : state.status caller = .returning)
    (status : next.status = Function.update state.status caller .outside)
    (on : next.on = state.on) (commands : next.commands = state.commands)
  | switch (written : state.commands ≠ []) (status : next.status = state.status) (on : next.on = true)
    (commands : next.commands = state.commands)

/-- At most one caller is not outside. No command is written while a caller is about to
write, and a written command is awaited until the device is on. -/
structure Sound (state : State Caller Command) : Prop where
  alone : ∀ caller other, state.status caller ≠ .outside → state.status other ≠ .outside → caller = other
  unwritten : ∀ caller, state.status caller = .writing → state.commands = []
  awaited : state.commands ≠ [] → state.on = true ∨ ∃ caller, state.status caller = .polling
  few : state.commands.length ≤ 1

theorem sound_start {state : State Caller Command} (outside : ∀ caller, state.status caller = .outside)
    (unwritten : state.commands = []) : Sound state where
  alone caller _ inside := absurd (outside caller) inside
  unwritten caller writing := by simp [outside caller] at writing
  awaited written := absurd unwritten written
  few := by simp [unwritten]

variable {state next : State Caller Command}

private theorem sound_of_only {caller : Caller} (only : ∀ other, next.status other ≠ .outside → other = caller)
    (unwritten : next.status caller = .writing → next.commands = [])
    (awaited : next.commands ≠ [] → next.on = true ∨ next.status caller = .polling) (few : next.commands.length ≤ 1) :
    Sound next where
  alone first second inside also := (only first inside).trans (only second also).symm
  unwritten other writing := unwritten (only other (by simp [writing]) ▸ writing)
  awaited written := (awaited written).imp_right fun polling => ⟨caller,polling⟩
  few := few

private theorem Sound.settled (sound : Sound state) (quiet : ∀ caller, state.status caller ≠ .polling)
    (written : state.commands ≠ []) : state.on = true := by
  rcases sound.awaited written with on | ⟨caller,polling⟩
  · exact on
  · exact absurd polling (quiet caller)

private theorem Sound.quiet (sound : Sound state) (caller : Caller) (inside : state.status caller ≠ .outside)
    (other : state.status caller ≠ .polling) (second : Caller) : state.status second ≠ .polling := by
  intro polling
  have same := sound.alone second caller (by simp [polling]) inside
  exact other (same ▸ polling)

variable [DecidableEq Caller]

private theorem Sound.others {caller : Caller} {status : Status} (sound : Sound state) (had : state.status caller ≠ .outside)
    (moved : next.status = Function.update state.status caller status) :
    ∀ other, next.status other ≠ .outside → other = caller := by
  intro other inside
  by_contra apart
  rw [moved,Function.update_of_ne apart] at inside
  exact apart (sound.alone other caller inside had)

theorem Sound.move (sound : Sound state) (move : Move state next) : Sound next := by
  cases move with
  | keep status on commands =>
    refine ⟨?_,?_,?_,?_⟩
    · rw [status]
      exact sound.alone
    · rw [status,commands]
      exact sound.unwritten
    · rw [status,commands,on]
      exact sound.awaited
    · rw [commands]
      exact sound.few
  | enter caller alone status on commands =>
    have only : ∀ other, next.status other ≠ .outside → other = caller := by
      intro other inside
      by_contra apart
      rw [status,Function.update_of_ne apart,alone] at inside
      exact inside rfl
    have here : next.status caller = .entered := by rw [status,Function.update_self]
    refine sound_of_only only (by simp [here]) ?_ (by rw [commands]; exact sound.few)
    rw [commands,on]
    exact fun written => Or.inl (sound.settled (by simp [alone]) written)
  | test caller had status on commands =>
    have settled := sound.settled (sound.quiet caller (by simp [had]) (by simp [had]))
    have here : next.status caller = state.read .writing := by rw [status,Function.update_self]
    refine sound_of_only (sound.others (by simp [had]) status) ?_ ?_ (by rw [commands]; exact sound.few)
    · intro writing
      rw [commands]
      by_contra written
      rw [here,State.read,settled written] at writing
      cases writing
    · rw [commands,on]
      exact fun written => Or.inl (settled written)
  | write caller command had status on commands =>
    have first := sound.unwritten caller had
    have here : next.status caller = .polling := by rw [status,Function.update_self]
    exact sound_of_only (sound.others (by simp [had]) status) (by simp [here]) (fun _ => Or.inr here) (by rw [commands,first]; simp)
  | poll caller had status on commands =>
    have here : next.status caller = state.read .polling := by rw [status,Function.update_self]
    refine sound_of_only (sound.others (by simp [had]) status) ?_ ?_ (by rw [commands]; exact sound.few)
    · intro writing
      rw [here,State.read] at writing
      split at writing <;> cases writing
    · intro _
      rw [on,here,State.read]
      cases state.on with
      | true => exact Or.inl rfl
      | false => exact Or.inr rfl
  | leave caller had status on commands =>
    have here : next.status caller = .outside := by rw [status,Function.update_self]
    refine sound_of_only (sound.others (by simp [had]) status) (by simp [here]) ?_ (by rw [commands]; exact sound.few)
    rw [commands,on]
    exact fun written => Or.inl (sound.settled (sound.quiet caller (by simp [had]) (by simp [had])) written)
  | switch written status on commands =>
    refine ⟨?_,?_,fun _ => Or.inl on,by rw [commands]; exact sound.few⟩
    · rw [status]
      exact sound.alone
    · rw [status,commands]
      exact sound.unwritten

end Switch
