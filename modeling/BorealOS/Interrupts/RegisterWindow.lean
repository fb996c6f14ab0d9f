import BorealOS.Interrupts.RedirectionTable
import BorealOS.Library.Journal
import BorealOS.Threading.Sections

/-! The index and data windows of an I/O APIC under concurrent calls. `ReadRegister` and
`WriteRegister` write the index window and then use the data window, each under the lock
of the I/O APIC, so that no call ever uses a register that another one selected. -/
namespace BorealOS.Interrupts

open Threading

inductive RegisterCall where
  | readRegister (reg : BitVec 32)
  | writeRegister (reg value : BitVec 32)
deriving DecidableEq, Repr

def RegisterCall.reg : RegisterCall → BitVec 32
  | .readRegister reg => reg
  | .writeRegister reg _ => reg

/-- A body before its access to the index window, before its access to the data window,
and at its end with the value of a read. -/
inductive RegisterPoint where
  | select (call : RegisterCall)
  | access (call : RegisterCall)
  | done (value : Option (BitVec 32))
deriving DecidableEq, Repr

def RegisterPoint.advance (point : RegisterPoint) (device : IOAPICDevice) : Option (RegisterPoint × IOAPICDevice) :=
  match point with
  | .select call => some (.access call,{ device with index := call.reg &&& 0xFF#32 })
  | .access (.readRegister _) => some (.done (some (device.registers (device.index.setWidth 8))),device)
  | .access (.writeRegister _ value) =>
    some (.done none,{ device with registers := Function.update device.registers (device.index.setWidth 8) value })
  | .done _ => none

def registerBody : Exclusive.Body RegisterCall RegisterPoint IOAPICDevice (Option (BitVec 32)) where
  start := .select
  advance := RegisterPoint.advance
  answer
    | .done value => some value
    | _ => none

/-- The two functions as they are without concurrency. -/
def RegisterCall.perform (call : RegisterCall) (device : IOAPICDevice) : Option (BitVec 32) × IOAPICDevice :=
  match call with
  | .readRegister reg => (some (device.readRegister reg).1,(device.readRegister reg).2)
  | .writeRegister reg value => (none,device.writeRegister reg value)

def RegisterPoint.rest (point : RegisterPoint) (device : IOAPICDevice) : Option (BitVec 32) × IOAPICDevice :=
  match point with
  | .select call => call.perform device
  | .access (.readRegister _) => (some (device.registers (device.index.setWidth 8)),device)
  | .access (.writeRegister _ value) =>
    (none,{ device with registers := Function.update device.registers (device.index.setWidth 8) value })
  | .done value => (value,device)

def RegisterPoint.left : RegisterPoint → Nat
  | .select _ => 2
  | .access _ => 1
  | .done _ => 0

def registerAgrees : Exclusive.Agrees registerBody RegisterCall.perform Prod.mk where
  rest := RegisterPoint.rest
  left point _ := point.left
  start _ _ := rfl
  advance point after device next moved := by
    cases point with
    | select call =>
      simp only [registerBody,RegisterPoint.advance,Option.some.injEq,Prod.mk.injEq] at moved
      obtain ⟨rfl,rfl⟩ := moved
      refine ⟨?_,by simp [RegisterPoint.left]⟩
      cases call <;> rfl
    | access call =>
      refine ⟨?_,?_⟩ <;> cases call <;> simp only [registerBody,RegisterPoint.advance,Option.some.injEq,Prod.mk.injEq] at moved <;>
        obtain ⟨rfl,rfl⟩ := moved
      · rfl
      · rfl
      · simp [RegisterPoint.left]
      · simp [RegisterPoint.left]
    | done value => simp [registerBody,RegisterPoint.advance] at moved
  answer point value device done := by
    cases point <;> simp only [registerBody,Option.some.injEq,reduceCtorEq] at done
    rw [RegisterPoint.rest,done]
  moves point value device after _ unanswered := by
    cases point with
    | select call => rfl
    | access call => cases call <;> rfl
    | done given => simp [registerBody] at unanswered

/-- The registers after the writes of the calls. -/
def registersAfter (registers : BitVec 8 → BitVec 32) (calls : List RegisterCall) : BitVec 8 → BitVec 32 :=
  calls.foldl (fun registers call =>
    match call with
    | .readRegister _ => registers
    | .writeRegister reg value => Function.update registers (reg.setWidth 8) value) registers

/-- What a call leaves in a register that had the value. -/
def RegisterCall.leaves (register : BitVec 8) (value : BitVec 32) : RegisterCall → BitVec 32
  | .readRegister _ => value
  | .writeRegister reg written => if reg.setWidth 8 = register then written else value

theorem selected_eq (reg : BitVec 32) : ((reg &&& 0xFF#32).setWidth 8 : BitVec 8) = reg.setWidth 8 := by
  apply BitVec.eq_of_getLsbD_eq
  intro k small
  have ones : (0xFF#32).getLsbD k = true := by
    have all : ∀ k < 8, (0xFF#32).getLsbD k = true := by decide
    exact all k small
  rw [BitVec.getLsbD_setWidth,BitVec.getLsbD_and,ones,Bool.and_true,BitVec.getLsbD_setWidth]

theorem registersAfter_apply (registers : BitVec 8 → BitVec 32) (calls : List RegisterCall) (register : BitVec 8) :
    registersAfter registers calls register = calls.foldl (RegisterCall.leaves register) (registers register) := by
  induction calls generalizing registers with
  | nil => rfl
  | cons call calls ih =>
    rw [registersAfter,List.foldl_cons,List.foldl_cons,← registersAfter,ih]
    cases call with
    | readRegister reg => rfl
    | writeRegister reg value =>
      congr 1
      simp only [RegisterCall.leaves,Function.update_apply]
      exact if_congr eq_comm rfl rfl

section
variable {Caller : Type}

def callsOf (history : List (Caller × RegisterCall × Option (BitVec 32))) : List RegisterCall := history.map (·.2.1)

theorem replays_registers {history : List (Caller × RegisterCall × Option (BitVec 32))} {device final : IOAPICDevice}
    (replays : Exclusive.Replays RegisterCall.perform Prod.mk device history final) :
    final.registers = registersAfter device.registers (callsOf history) := by
  induction history generalizing device with
  | nil => 
    have same : device = final := replays
    rw [same]
    rfl
  | cons entry history ih =>
    obtain ⟨caller,call,value⟩ := entry
    obtain ⟨middle,made,later⟩ := replays
    rw [ih later]
    cases call with
    | readRegister reg =>
      rw [RegisterCall.perform,Prod.mk.injEq] at made
      rw [← made.2]
      rfl
    | writeRegister reg written =>
      rw [RegisterCall.perform,Prod.mk.injEq] at made
      rw [← made.2]
      simp only [IOAPICDevice.writeRegister,selected_eq]
      rfl

end

abbrev RegisterMachine (Id : Type) := CallMachine Id RegisterCall RegisterPoint IOAPICDevice (Option (BitVec 32))

/-- Nothing but the two functions uses the windows. -/
def windowsKept (_ : IOAPICDevice) (change : Empty) : Option IOAPICDevice := change.elim

variable {Id : Type} [DecidableEq Id]

/-- Over every interleaving a read gives what the last earlier write of the same register
left, and while no call runs each register has what the last write of it left. -/
theorem io_apic_registers_linear {machine final : RegisterMachine Id} {trace : List ((Id × CallEvent RegisterCall) ⊕ Empty)}
    (initial : machine.Initial) (ran : Transition.run (CallMachine.step registerBody windowsKept) machine trace = some final) :
    ((∀ place, final.inside place = none) →
      final.shared.registers = registersAfter machine.shared.registers (callsOf final.history)) ∧
    ∀ earlier place reg value later, final.history = earlier ++ (place,.readRegister reg,value) :: later →
      value = some (registersAfter machine.shared.registers (callsOf earlier) (reg.setWidth 8)) := by
  have closed : ∀ device change, windowsKept device change = none := by
    intro device change
    exact change.elim
  obtain ⟨_,before,replays,outside,_⟩ := CallMachine.run_linear registerAgrees closed initial ran
  refine ⟨?_,?_⟩
  · intro none
    rw [outside none]
    exact replays_registers replays
  · intro earlier place reg value later history
    rw [history,Exclusive.replays_append] at replays
    obtain ⟨middle,first,next,made,_⟩ := replays
    rw [RegisterCall.perform,Prod.mk.injEq] at made
    rw [← made.1,← replays_registers first]
    simp only [IOAPICDevice.readRegister,selected_eq]

def twoRouters : RegisterMachine Bool := ⟨⟨fun _ => false,fun _ => ⟨⟨true,[],.code,.idle⟩,[]⟩⟩,⟨0,fun _ => 0⟩,[]⟩

/-- A processor reads a register that it has written, while another one asks for the
lock. -/
def windowTrace : List ((Bool × CallEvent RegisterCall) ⊕ Empty) :=
  [CallMachine.labels false [.call (.writeRegister 0x10 0x31),.lock,.proceed,.proceed,.proceed,.proceed],
    CallMachine.labels true [.call (.writeRegister 0x12 0x32),.lock],CallMachine.labels false [.enter,.advance],
    CallMachine.labels true [.proceed,.proceed,.proceed],
    CallMachine.labels false [.advance,.finish,.unlock,.proceed,.proceed,.proceed,.leave],
    CallMachine.labels false (CallMachine.wholeCall (.readRegister 0x10) 2)].flatten

theorem io_apic_registers_linear_windowTrace : ∃ final,
    Transition.run (CallMachine.step registerBody windowsKept) twoRouters windowTrace = some final ∧
      final.history = [((false,0),.writeRegister 0x10 0x31,none),((false,0),.readRegister 0x10,some 0x31)] ∧
        registersAfter (fun _ => 0) [.writeRegister 0x10 0x31] 0x10 = 0x31 := by
  have runs : (Transition.run (CallMachine.step registerBody windowsKept) twoRouters windowTrace).map (·.history) =
      some [((false,0),.writeRegister 0x10 0x31,none),((false,0),.readRegister 0x10,some 0x31)] := by decide +kernel
  obtain ⟨final,ran,history⟩ := Option.map_eq_some_iff.mp runs
  have initial : CallMachine.Initial twoRouters := ⟨⟨fun _ => rfl,fun _ => ⟨rfl,rfl⟩⟩,fun _ => rfl,rfl⟩
  have read := (io_apic_registers_linear initial ran).2 [((false,0),.writeRegister 0x10 0x31,none)] _ _ _ [] history
  exact ⟨final,ran,history,(Option.some.inj read).symm⟩

/-! `SetRedirectionEntry` makes two calls, and the lock is free between them. -/

/-- The calls of `SetRedirectionEntryInternal` for an index that is in bounds. -/
def entryCalls (index : BitVec 32) (entry : Word) : List RegisterCall :=
  let regLow : BitVec 8 := (IOAPICRegister.redirectionTableBase + index * 2#32).setWidth 8
  let regHigh := regLow + 1#8
  [.writeRegister (regHigh.setWidth 32) ((entry >>> 32 &&& 0xFFFFFFFF#64).setWidth 32),
    .writeRegister (regLow.setWidth 32) ((entry &&& 0xFFFFFFFF#64).setWidth 32)]

theorem setRedirectionEntryInternal_calls {ioApic : IOAPIC} {index : BitVec 32} (inside : index < ioApic.maxRedirectionEntries)
    (entry : Word) : (ioApic.setRedirectionEntryInternal index entry).device =
      (entryCalls index entry).foldl (fun device call => (call.perform device).2) ioApic.device := by
  have present : ¬ ioApic.maxRedirectionEntries ≤ index := BitVec.not_le.mpr inside
  simp only [IOAPIC.setRedirectionEntryInternal,if_neg present]
  rfl

theorem entryCalls_eq (index : BitVec 32) (entry : Word) : entryCalls index entry =
    [.writeRegister ((entryRegister index.toNat + 1#8).setWidth 32) (highHalf entry),
      .writeRegister ((entryRegister index.toNat).setWidth 32) (lowHalf entry)] := by
  have low : (IOAPICRegister.redirectionTableBase + index * 2#32).setWidth 8 = entryRegister index.toNat := by
    apply BitVec.eq_of_toNat_eq
    simp only [entryRegister,IOAPICRegister.redirectionTableBase,BitVec.toNat_setWidth,BitVec.toNat_add,BitVec.toNat_mul,
      BitVec.toNat_ofNat]
    omega
  rw [entryCalls,low]
  rfl

theorem registersAfter_append (registers : BitVec 8 → BitVec 32) (calls more : List RegisterCall) :
    registersAfter registers (calls ++ more) = registersAfter (registersAfter registers calls) more :=
  List.foldl_append

theorem registersAfter_entryCalls (registers : BitVec 8 → BitVec 32) (index : BitVec 32) (entry : Word) :
    registersAfter registers (entryCalls index entry) = writeEntry registers index.toNat entry := by
  simp [entryCalls_eq,registersAfter,writeEntry]

theorem shows_sets (registers : BitVec 8 → BitVec 32) {n : Nat} (few : n ≤ 120) (sets : List (BitVec 32 × RedirectionEntry))
    (inside : ∀ set ∈ sets, set.1.toNat < n) :
    Shows registers (registersAfter registers (sets.flatMap fun set => entryCalls set.1 set.2.pack)) n
      (sets.foldl (fun entries set => Function.update entries set.1.toNat (some set.2)) fun _ => none) := by
  induction sets using List.reverseRecOn with
  | nil => exact .initial registers n
  | append_singleton sets set ih =>
    rw [List.flatMap_append,List.flatMap_singleton,registersAfter_append,registersAfter_entryCalls,List.foldl_concat]
    exact (ih fun other member => inside other (List.mem_append_left _ member)).write few (inside set (by simp)) set.2

section
variable {Caller : Type} [DecidableEq Caller]

/-- A register that only one caller writes has what this caller's calls leave in it. -/
theorem leaves_ofWriter (history : List (Caller × RegisterCall × Option (BitVec 32))) (caller : Caller) (register : BitVec 8)
    (value : BitVec 32) (only : ∀ entry ∈ history, entry.1 ≠ caller → ∀ value, entry.2.1.leaves register value = value) :
    (callsOf history).foldl (RegisterCall.leaves register) value =
      ((Journal.ofWriter history caller).map Prod.fst).foldl (RegisterCall.leaves register) value := by
  induction history generalizing value with
  | nil => rfl
  | cons entry history ih =>
    have later := fun value => ih value fun other member => only other (List.mem_cons_of_mem entry member)
    rw [callsOf,List.map_cons,List.foldl_cons,← callsOf,later]
    by_cases mine : entry.1 = caller
    · simp [Journal.ofWriter,mine]
    · rw [only entry (by simp) mine]
      simp [Journal.ofWriter,mine]

end

theorem leaves_entryCalls {index other : BitVec 32} {register : BitVec 8} (first : index.toNat < 120) (second : other.toNat < 120)
    (apart : other ≠ index) (mine : register = entryRegister index.toNat ∨ register = entryRegister index.toNat + 1#8)
    {entry : Word} {call : RegisterCall} (member : call ∈ entryCalls other entry) (value : BitVec 32) :
    call.leaves register value = value := by
  have different : other.toNat ≠ index.toNat := fun same => apart (BitVec.eq_of_toNat_eq same)
  obtain ⟨low,high⟩ := entryRegister_ne second first different
  have lowHigh := entryRegister_ne_succ second first
  have highLow := (entryRegister_ne_succ first second).symm
  have kept : ∀ written : BitVec 8, ((written.setWidth 32).setWidth 8 : BitVec 8) = written := by simp
  rw [entryCalls_eq,List.mem_cons,List.mem_singleton] at member
  rcases member with rfl | rfl <;> rw [RegisterCall.leaves,kept] <;> rcases mine with rfl | rfl
  · exact if_neg highLow
  · exact if_neg high
  · exact if_neg low
  · exact if_neg lowHigh

theorem leaves_elsewhere {n : Nat} (few : n ≤ 120) {index : BitVec 32} (inside : index.toNat < n) {register : BitVec 8}
    (elsewhere : register.toNat < 0x10 ∨ 0x10 + 2 * n ≤ register.toNat) {entry : Word} {call : RegisterCall}
    (member : call ∈ entryCalls index entry) (value : BitVec 32) : call.leaves register value = value := by
  have kept : ∀ written : BitVec 8, ((written.setWidth 32).setWidth 8 : BitVec 8) = written := by simp
  have low := entryRegister_toNat (i := index.toNat) (by omega)
  have high := entryRegister_succ_toNat (i := index.toNat) (by omega)
  rw [entryCalls_eq,List.mem_cons,List.mem_singleton] at member
  rcases member with rfl | rfl <;> rw [RegisterCall.leaves,kept]
  · refine if_neg fun same => ?_
    rw [same] at high
    omega
  · refine if_neg fun same => ?_
    rw [same] at low
    omega

theorem foldl_leaves {register : BitVec 8} {calls : List RegisterCall}
    (kept : ∀ call ∈ calls, ∀ value, call.leaves register value = value) (value : BitVec 32) :
    calls.foldl (RegisterCall.leaves register) value = value := by
  induction calls with
  | nil => rfl
  | cons call calls ih =>
    rw [List.foldl_cons,kept call (by simp)]
    exact ih fun other member => kept other (by simp [member])

theorem foldl_sets_of_ne {later : List (BitVec 32 × RedirectionEntry)} {index : BitVec 32} (other : ∀ set ∈ later, set.1 ≠ index)
    (entries : Nat → Option RedirectionEntry) :
    later.foldl (fun (entries : Nat → Option RedirectionEntry) set => Function.update entries set.1.toNat (some set.2)) entries
      index.toNat = entries index.toNat := by
  induction later generalizing entries with
  | nil => rfl
  | cons set later ih =>
    have different : index.toNat ≠ set.1.toNat := fun same => other set (by simp) (BitVec.eq_of_toNat_eq same.symm)
    rw [List.foldl_cons,ih fun second member => other second (by simp [member]),Function.update_of_ne different]

/-- Contexts that set the entries of different indices, each by any number of calls of
`SetRedirectionEntry`, do not disturb one another: in the end every index has the entry
that its context set last, whole, and the registers of no entry are as they were. -/
theorem concurrent_redirection_entries {machine final : RegisterMachine Id} {trace : List ((Id × CallEvent RegisterCall) ⊕ Empty)}
    {n : Nat} (few : n ≤ 120) (sets : Id × Nat → List (BitVec 32 × RedirectionEntry)) (initial : machine.Initial)
    (ran : Transition.run (CallMachine.step registerBody windowsKept) machine trace = some final)
    (ended : ∀ place, final.inside place = none)
    (calls : ∀ place, (Journal.ofWriter final.history place).map Prod.fst =
      (sets place).flatMap fun set => entryCalls set.1 set.2.pack)
    (inside : ∀ place, ∀ set ∈ sets place, set.1.toNat < n)
    (apart : ∀ place other, ∀ set ∈ sets place, ∀ second ∈ sets other, set.1 = second.1 → place = other) :
    (∀ place earlier index entry later, sets place = earlier ++ (index,entry) :: later → (∀ set ∈ later, set.1 ≠ index) →
      RedirectionEntry.decode (final.shared.registers (entryRegister index.toNat))
        (final.shared.registers (entryRegister index.toNat + 1#8)) = some entry) ∧
    ∀ register : BitVec 8, register.toNat < 0x10 ∨ 0x10 + 2 * n ≤ register.toNat →
      final.shared.registers register = machine.shared.registers register := by
  have closed : ∀ device change, windowsKept device change = none := by
    intro device change
    exact change.elim
  obtain ⟨_,before,replays,outside,_⟩ := CallMachine.run_linear registerAgrees closed initial ran
  have registers : final.shared.registers = registersAfter machine.shared.registers (callsOf final.history) := by
    rw [outside ended]
    exact replays_registers replays
  have made : ∀ entry ∈ final.history, ∃ set ∈ sets entry.1, entry.2.1 ∈ entryCalls set.1 set.2.pack := by
    intro entry member
    have mine : entry.2.1 ∈ (Journal.ofWriter final.history entry.1).map Prod.fst :=
      List.mem_map_of_mem ((Journal.mem_ofWriter final.history entry.1 entry.2).mpr member)
    rw [calls] at mine
    exact List.mem_flatMap.mp mine
  refine ⟨?_,?_⟩
  · intro place earlier index entry later order last
    have here : (index,entry) ∈ sets place := by simp [order]
    have bound : index.toNat < n := inside place _ here
    have single : ∀ register, register = entryRegister index.toNat ∨ register = entryRegister index.toNat + 1#8 →
        final.shared.registers register = registersAfter machine.shared.registers
          ((sets place).flatMap fun set => entryCalls set.1 set.2.pack) register := by
      intro register mine
      rw [registers,registersAfter_apply,registersAfter_apply,← calls]
      apply leaves_ofWriter
      intro other member elsewhere value
      obtain ⟨set,theirs,call⟩ := made other member
      have different : set.1 ≠ index := fun same => elsewhere (apart _ _ set theirs _ here same)
      have second := inside other.1 set theirs
      exact leaves_entryCalls (by omega) (by omega) different mine call value
    rw [single _ (.inl rfl),single _ (.inr rfl)]
    apply (shows_sets machine.shared.registers few (sets place) (inside place)).shown _ bound
    rw [order,List.foldl_append,List.foldl_cons,foldl_sets_of_ne last,Function.update_self]
  · intro register elsewhere
    rw [registers,registersAfter_apply]
    apply foldl_leaves
    intro call member value
    obtain ⟨entry,there,rfl⟩ := List.mem_map.mp member
    obtain ⟨set,theirs,made⟩ := made entry there
    exact leaves_elsewhere few (inside entry.1 set theirs) elsewhere made value

def routedEntries (place : Bool × Nat) : List (BitVec 32 × RedirectionEntry) :=
  match place with
  | (false,0) => [(0,{ vector := 0x31, destination := 1 })]
  | (true,0) => [(1,{ vector := 0x32, destination := 2 })]
  | _ => []

/-- Two processors set two entries, and the halves of the entries alternate. -/
def routeTrace : List ((Bool × CallEvent RegisterCall) ⊕ Empty) :=
  [CallMachine.labels false (CallMachine.wholeCall (.writeRegister 0x11 0x01000000) 2),
    CallMachine.labels true (CallMachine.wholeCall (.writeRegister 0x13 0x02000000) 2),
    CallMachine.labels true (CallMachine.wholeCall (.writeRegister 0x12 0x32) 2),
    CallMachine.labels false (CallMachine.wholeCall (.writeRegister 0x10 0x31) 2)].flatten

theorem concurrent_redirection_entries_routeTrace : ∃ final,
    Transition.run (CallMachine.step registerBody windowsKept) twoRouters routeTrace = some final ∧
      RedirectionEntry.decode (final.shared.registers 0x10) (final.shared.registers 0x11) =
        some { vector := 0x31, destination := 1 } := by
  have runs : (Transition.run (CallMachine.step registerBody windowsKept) twoRouters routeTrace).map (·.history) =
      some [((false,0),.writeRegister 0x11 0x01000000,none),((true,0),.writeRegister 0x13 0x02000000,none),
        ((true,0),.writeRegister 0x12 0x32,none),((false,0),.writeRegister 0x10 0x31,none)] := by decide +kernel
  have rests : (Transition.run (CallMachine.step registerBody windowsKept) twoRouters routeTrace).all fun final =>
      [false,true].all fun id => (final.threads.processors id).running.task.body.isNone &&
        (final.threads.processors id).interrupted.isEmpty := by decide +kernel
  obtain ⟨final,ran,history⟩ := Option.map_eq_some_iff.mp runs
  have initial : CallMachine.Initial twoRouters := ⟨⟨fun _ => rfl,fun _ => ⟨rfl,rfl⟩⟩,fun _ => rfl,rfl⟩
  have ended : ∀ place, final.inside place = none := by
    rw [ran] at rests
    apply CallMachine.inside_of_idle
    intro id
    cases id <;> simp_all
  have calls : ∀ place, (Journal.ofWriter final.history place).map Prod.fst =
      (routedEntries place).flatMap fun set => entryCalls set.1 set.2.pack := by
    rw [history]
    rintro ⟨id,height⟩
    cases id <;> cases height <;> rfl
  have inside : ∀ place, ∀ set ∈ routedEntries place, set.1.toNat < 2 := by
    rintro ⟨id,height⟩
    cases id <;> cases height <;> simp [routedEntries]
  have apart : ∀ place other, ∀ set ∈ routedEntries place, ∀ second ∈ routedEntries other, set.1 = second.1 → place = other := by
    rintro ⟨id,height⟩ ⟨other,level⟩
    cases id <;> cases height <;> cases other <;> cases level <;> simp [routedEntries]
  have entries := (concurrent_redirection_entries (by omega) routedEntries initial ran ended calls inside apart).1
  exact ⟨final,ran,entries (false,0) [] 0 _ [] rfl (by simp)⟩

end BorealOS.Interrupts
