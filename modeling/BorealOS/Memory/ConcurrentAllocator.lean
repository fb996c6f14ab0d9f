import BorealOS.Memory.AllocatorBodies

/-! The manager under concurrent calls. Each body does, step by step, what the whole call
does at once, so the finished calls of any run are a sequential run of the manager and
keep its invariants. -/
namespace BorealOS.Memory.PhysicalMemoryManager

open PackedBitmap Threading Execution

section
variable (pmm : PhysicalMemoryManager)

theorem rest_allocate (pageCount : Word) : performCall (.allocatePages pageCount) pmm =
    if pageCount = 0 then .ok (.address 0) pmm
    else searchEnds pageCount pmm (pmm.findRun pageCount.toNat pmm.frameCount.toNat 0 0 0) := by
  by_cases none : pageCount = 0
  · subst none
    rfl
  · rw [if_neg none]
    simp only [performCall,allocatePages,none,if_false,Functor.map,EStateM.map,bind,EStateM.bind,get,getThe,MonadStateOf.get,
      EStateM.get]
    cases pmm.findRun pageCount.toNat pmm.frameCount.toNat 0 0 0 with
    | error panic => rfl
    | ok found =>
      simp only [MonadExcept.ofExcept,pure,EStateM.pure,searchEnds]
      by_cases short : found.2 < pageCount.toNat
      · simp only [if_pos short]
        rfl
      · simp only [if_neg short]
        rfl

theorem rest_free (start pageCount : Word) : performCall (.freePages start pageCount) pmm =
    if start % Architecture.pageSize ≠ 0 then .error .invalidPageStart pmm
    else freeEnds pageCount (freeLoop
      ((start / Architecture.pageSize + pageCount).toNat - (start / Architecture.pageSize).toNat)
      (start / Architecture.pageSize).toNat pmm) := by
  by_cases aligned : start % Architecture.pageSize = 0
  · rw [if_neg (not_not.mpr aligned)]
    simp only [performCall,freePages,aligned,ne_eq,not_true_eq_false,if_false,Functor.map,EStateM.map,bind,EStateM.bind]
    cases freeLoop _ _ pmm with
    | error panic stopped => rfl
    | ok _ freed => rfl
  · rw [if_pos aligned]
    simp only [performCall,freePages,ne_eq,aligned,not_false_eq_true,if_true]
    rfl

theorem isPageReserved_ok {page : Nat} {answer : Bool} (ok : pmm.isPageReserved page = .ok answer) :
    ¬ pmm.bitmapSize.toNat ≤ page / 8 := by
  intro outside
  rw [isPageReserved,if_pos outside] at ok
  cases ok

theorem findRun_succ (pageCount remaining page runStart runLength : Nat) :
    pmm.findRun pageCount (remaining + 1) page runStart runLength =
      match pmm.isPageReserved page with
      | .error panic => .error panic
      | .ok true => pmm.findRun pageCount remaining (page + 1) runStart 0
      | .ok false => (do
        if !(← pmm.isPageAllocated page) then
          let runStart := if runLength = 0 then page else runStart
          if runLength + 1 = pageCount then pure (runStart,runLength + 1)
          else findRun pmm pageCount remaining (page + 1) runStart (runLength + 1)
        else findRun pmm pageCount remaining (page + 1) runStart 0) := by
  rw [findRun]
  cases tested : pmm.isPageReserved page with
  | error panic => rfl
  | ok reserved =>
    have inside := pmm.isPageReserved_ok tested
    cases reserved with
    | true =>
      rw [isPageAllocated,if_neg inside]
      rfl
    | false =>
      rw [isPageAllocated,if_neg inside]
      simp only [bind,Except.bind,pure,Except.pure,Bool.not_false,Bool.true_and]

theorem freeLoop_succ (remaining page : Nat) : freeLoop (remaining + 1) page pmm =
    if pmm.bitmapSize.toNat ≤ page / 8 then .error .pageIndexOutOfBounds pmm
    else
      match pmm.isPageReserved page with
      | .error panic => .error panic pmm
      | .ok true => .error .freeReservedPage pmm
      | .ok false =>
        match pmm.isPageAllocated page with
        | .error panic => .error panic pmm
        | .ok true => freeLoop remaining (page + 1)
          (pmm.storeAllocatable page (pmm.allocatableBitmap.bytes (page / 8) &&& ~~~ mask page))
        | .ok false => .error .freeUnallocatedPage pmm := by
  simp only [freeLoop,bind,EStateM.bind,get,getThe,MonadStateOf.get,EStateM.get]
  by_cases outside : pmm.bitmapSize.toNat ≤ page / 8
  · simp only [if_pos outside]
    rfl
  · simp only [if_neg outside]
    cases pmm.isPageReserved page with
    | error panic => rfl
    | ok reserved =>
      cases reserved with
      | true => rfl
      | false =>
        cases pmm.isPageAllocated page with
        | error panic => rfl
        | ok allocated => cases allocated <;> rfl

theorem performCall_ok {call : AllocatorCall} {answer : AllocatorAnswer} {next : PhysicalMemoryManager}
    (ok : performCall call pmm = .ok answer next) :
    match call with
    | .allocatePages pageCount => ∃ address, answer = .address address ∧ allocatePages pageCount pmm = .ok address next
    | .freePages start pageCount => answer = .freed ∧ freePages start pageCount pmm = .ok () next := by
  cases call with
  | allocatePages pageCount =>
    simp only [performCall,Functor.map,EStateM.map] at ok
    cases made : allocatePages pageCount pmm with
    | error panic stopped => simp [made] at ok
    | ok address taken =>
      simp only [made,EStateM.Result.ok.injEq] at ok
      exact ⟨address,ok.1.symm,ok.2 ▸ made⟩
  | freePages start pageCount =>
    simp only [performCall,Functor.map,EStateM.map] at ok
    cases made : freePages start pageCount pmm with
    | error panic stopped => simp [made] at ok
    | ok _ freed =>
      simp only [made,EStateM.Result.ok.injEq] at ok
      exact ⟨ok.1.symm,ok.2 ▸ made⟩

end

namespace AllocatorPoint

/-- A step does a part of what was left to do. -/
def Progress (point : AllocatorPoint) (pmm : PhysicalMemoryManager) (after : AllocatorPoint) (next : PhysicalMemoryManager) : Prop :=
  after.rest next = point.rest pmm ∧ after.left next < point.left pmm

/-! One lemma for each test on the way: those of the search, and those of the release. -/

section Tests
variable {pmm next : PhysicalMemoryManager} {after : AllocatorPoint} {pageCount : Word} {remaining page runStart runLength : Nat}

theorem testReserved_progress
    (moved : (testReserved pageCount (remaining + 1) page runStart runLength).advance pmm = some (after,next)) :
    (testReserved pageCount (remaining + 1) page runStart runLength).Progress pmm after next := by
  have meaning := pmm.findRun_succ pageCount.toNat remaining page runStart runLength
  cases tested : pmm.isPageReserved page with
  | error panic =>
    simp only [advance,tested,Option.some.injEq,Prod.mk.injEq] at moved meaning
    obtain ⟨rfl,rfl⟩ := moved
    exact ⟨congrArg (searchEnds pageCount pmm) meaning.symm,by simp [left]⟩
  | ok reserved =>
    cases reserved with
    | true =>
      simp only [advance,tested,Option.some.injEq,Prod.mk.injEq] at moved meaning
      obtain ⟨rfl,rfl⟩ := moved
      exact ⟨congrArg (searchEnds pageCount pmm) meaning.symm,by simp only [left]; omega⟩
    | false =>
      simp only [advance,tested,Option.some.injEq,Prod.mk.injEq] at moved meaning
      obtain ⟨rfl,rfl⟩ := moved
      exact ⟨congrArg (searchEnds pageCount pmm) meaning.symm,by simp only [left]; omega⟩

theorem testAllocated_progress
    (moved : (testAllocated pageCount remaining page runStart runLength).advance pmm = some (after,next)) :
    (testAllocated pageCount remaining page runStart runLength).Progress pmm after next := by
  cases tested : pmm.isPageAllocated page with
  | error panic =>
    simp only [advance,tested,Option.some.injEq,Prod.mk.injEq] at moved
    obtain ⟨rfl,rfl⟩ := moved
    exact ⟨by rw [rest,rest,tested]; rfl,by simp [left]⟩
  | ok allocated =>
    cases allocated with
    | true =>
      simp only [advance,tested,Option.some.injEq,Prod.mk.injEq] at moved
      obtain ⟨rfl,rfl⟩ := moved
      exact ⟨by rw [rest,rest,tested]; rfl,by simp only [left]; omega⟩
    | false =>
      simp only [advance,tested,Option.some.injEq,Prod.mk.injEq] at moved
      obtain ⟨rfl,rfl⟩ := moved
      by_cases enough : runLength + 1 = pageCount.toNat
      · rw [if_pos enough,Progress,rest,rest,tested]
        exact ⟨congrArg (searchEnds pageCount pmm) (if_pos enough).symm,by simp only [left]; omega⟩
      · rw [if_neg enough,Progress,rest,rest,tested]
        exact ⟨congrArg (searchEnds pageCount pmm) (if_neg enough).symm,by simp only [left]; omega⟩

theorem searched_progress (moved : (searched pageCount runStart runLength).advance pmm = some (after,next)) :
    (searched pageCount runStart runLength).Progress pmm after next := by
  simp only [advance,Option.some.injEq,Prod.mk.injEq] at moved
  obtain ⟨rfl,rfl⟩ := moved
  by_cases short : runLength < pageCount.toNat
  · rw [if_pos short,Progress,rest,rest,searchEnds,if_pos short]
    exact ⟨rfl,by simp [left]⟩
  · rw [if_neg short,Progress,rest,rest,searchEnds,if_neg short]
    exact ⟨rfl,by simp only [left]; omega⟩

theorem freeReserved_progress (moved : (freeReserved pageCount (remaining + 1) page).advance pmm = some (after,next)) :
    (freeReserved pageCount (remaining + 1) page).Progress pmm after next := by
  have meaning := pmm.freeLoop_succ remaining page
  by_cases outside : pmm.bitmapSize.toNat ≤ page / 8
  · simp only [advance,if_pos outside,Option.some.injEq,Prod.mk.injEq] at moved meaning
    obtain ⟨rfl,rfl⟩ := moved
    exact ⟨congrArg (freeEnds pageCount) meaning.symm,by simp [left]⟩
  · cases tested : pmm.isPageReserved page with
    | error panic =>
      simp only [advance,if_neg outside,tested,Option.some.injEq,Prod.mk.injEq] at moved meaning
      obtain ⟨rfl,rfl⟩ := moved
      exact ⟨congrArg (freeEnds pageCount) meaning.symm,by simp [left]⟩
    | ok reserved =>
      cases reserved with
      | true =>
        simp only [advance,if_neg outside,tested,Option.some.injEq,Prod.mk.injEq] at moved meaning
        obtain ⟨rfl,rfl⟩ := moved
        exact ⟨congrArg (freeEnds pageCount) meaning.symm,by simp [left]⟩
      | false =>
        simp only [advance,if_neg outside,tested,Option.some.injEq,Prod.mk.injEq] at moved meaning
        obtain ⟨rfl,rfl⟩ := moved
        refine ⟨Eq.trans ?_ (congrArg (freeEnds pageCount) meaning.symm),by simp only [left]; omega⟩
        rw [rest]
        cases pmm.isPageAllocated page with
        | error panic => rfl
        | ok allocated => cases allocated <;> rfl

theorem freeAllocated_progress (moved : (freeAllocated pageCount remaining page).advance pmm = some (after,next)) :
    (freeAllocated pageCount remaining page).Progress pmm after next := by
  cases tested : pmm.isPageAllocated page with
  | error panic =>
    simp only [advance,tested,Option.some.injEq,Prod.mk.injEq] at moved
    obtain ⟨rfl,rfl⟩ := moved
    exact ⟨by rw [rest,rest,tested],by simp [left]⟩
  | ok allocated =>
    cases allocated <;> simp only [advance,tested,Option.some.injEq,Prod.mk.injEq] at moved <;> obtain ⟨rfl,rfl⟩ := moved <;>
      exact ⟨by rw [rest,rest,tested],by simp [left]⟩

end Tests

theorem advance_progress {point after : AllocatorPoint} {pmm next : PhysicalMemoryManager}
    (moved : point.advance pmm = some (after,next)) : point.Progress pmm after next := by
  cases point with
  | allocate pageCount =>
    simp only [advance,Option.some.injEq,Prod.mk.injEq] at moved
    obtain ⟨rfl,rfl⟩ := moved
    have meaning := rest_allocate pmm pageCount
    by_cases none : pageCount = 0
    · rw [if_pos none] at meaning ⊢
      exact ⟨meaning.symm,by simp [left]⟩
    · rw [if_neg none] at meaning ⊢
      exact ⟨meaning.symm,by simp only [left]; omega⟩
  | free start pageCount =>
    simp only [advance,Option.some.injEq,Prod.mk.injEq] at moved
    obtain ⟨rfl,rfl⟩ := moved
    have meaning := rest_free pmm start pageCount
    by_cases misaligned : start % Architecture.pageSize ≠ 0
    · rw [if_pos misaligned] at meaning ⊢
      exact ⟨meaning.symm,by simp [left]⟩
    · rw [if_neg misaligned] at meaning ⊢
      exact ⟨meaning.symm,by simp only [left]; omega⟩
  | testReserved _ remaining | freeReserved _ remaining =>
    cases remaining with
    | zero =>
      simp only [advance,Option.some.injEq,Prod.mk.injEq] at moved
      obtain ⟨rfl,rfl⟩ := moved
      exact ⟨rfl,by simp [left]⟩
    | succ remaining => first | exact testReserved_progress moved | exact freeReserved_progress moved
  | loadByte pageCount runStart remaining page =>
    cases remaining <;> simp only [advance,Option.some.injEq,Prod.mk.injEq] at moved <;> obtain ⟨rfl,rfl⟩ := moved
    · exact ⟨rfl,by simp [left]⟩
    · exact ⟨rfl,by simp only [left]; omega⟩
  | testAllocated => exact testAllocated_progress moved
  | searched => exact searched_progress moved
  | freeAllocated => exact freeAllocated_progress moved
  | storeByte | loadUsable | storeUsable | freeLoad | freeStore | loadFreed | storeFreed =>
    simp only [advance,Option.some.injEq,Prod.mk.injEq] at moved
    obtain ⟨rfl,rfl⟩ := moved
    exact ⟨rfl,by simp [left]⟩
  | done answer | panicked panic => simp [advance] at moved

end AllocatorPoint

/-- The only places without a next step are the ends of a call and of a panic. -/
theorem AllocatorPoint.advance_isSome (point : AllocatorPoint) (pmm : PhysicalMemoryManager) :
    (point.advance pmm).isSome ∨ (∃ answer, point = .done answer) ∨ ∃ panic, point = .panicked panic := by
  cases point with
  | done answer => exact .inr (.inl ⟨answer,rfl⟩)
  | panicked panic => exact .inr (.inr ⟨panic,rfl⟩)
  | testReserved _ remaining | loadByte _ _ remaining | freeReserved _ remaining =>
    left
    cases remaining <;> simp only [advance] <;> grind
  | _ =>
    left
    simp only [advance]
    grind

def allocatorAgrees : Exclusive.Agrees allocatorBody performCall .ok where
  rest := AllocatorPoint.rest
  left := AllocatorPoint.left
  start call pmm := by cases call <;> rfl
  advance point after pmm next moved := AllocatorPoint.advance_progress moved
  answer point answer pmm done := by
    cases point <;> simp only [allocatorBody,Option.some.injEq,reduceCtorEq] at done
    rw [AllocatorPoint.rest,done]
  moves point answer pmm after returns unanswered := by
    rcases point.advance_isSome pmm with moves | ⟨given,rfl⟩ | ⟨panic,rfl⟩
    · exact moves
    · simp [allocatorBody] at unanswered
    · simp [AllocatorPoint.rest] at returns

/-- Nothing but the two functions changes the manager. -/
def undisturbed (_ : PhysicalMemoryManager) (change : Empty) : Option PhysicalMemoryManager := change.elim

abbrev ConcurrentAllocator (Id : Type) :=
  CallMachine Id AllocatorCall AllocatorPoint PhysicalMemoryManager AllocatorAnswer

variable {Id : Type} [DecidableEq Id]

/-- Over every interleaving of processors and handlers the finished calls are a
sequential run of the manager, in the order in which their bodies end. The manager is as
this run leaves it unless a body runs; each caller gets the answer of its own call; and
a body whose call returns after the finished ones comes to that answer by its own steps,
whatever the other contexts do. -/
theorem concurrent_allocator_linear {machine final : ConcurrentAllocator Id} {trace : List ((Id × CallEvent AllocatorCall) ⊕ Empty)}
    (initial : machine.Initial) (ran : Transition.run (CallMachine.step allocatorBody undisturbed) machine trace = some final) :
    ∃ before, Exclusive.Replays performCall .ok machine.shared final.history before ∧
      ((∀ place, final.inside place = none) → final.shared = before) ∧
      (∀ place context answer, final.threads.contextAt place = some context → context.task = .returning answer →
        CallMachine.Last final.history place answer) ∧
      ∀ place call point answer after, final.inside place = some (call,point) → performCall call before = .ok answer after →
        ∃ count reached, Transition.run (CallMachine.step allocatorBody undisturbed) final
            (List.replicate count (.inl (place.1,.advance)) ++ [.inl (place.1,.finish)]) = some reached ∧
          reached.shared = after ∧ reached.history = final.history ++ [(place,call,answer)] := by
  have closed : ∀ pmm change, undisturbed pmm change = none := by
    intro pmm change
    exact change.elim
  obtain ⟨sound,before,replays,outside,within⟩ := CallMachine.run_linear allocatorAgrees closed initial ran
  refine ⟨before,replays,outside,sound.answered,?_⟩
  intro place call point answer after runs returns
  refine sound.completes allocatorAgrees ?_ runs ((within place call point runs).trans returns)
  intro answer pmm other next same
  exact EStateM.Result.ok.inj same

def twoAllocators : ConcurrentAllocator Bool := ⟨⟨fun _ => false,fun _ => ⟨⟨true,[],.code,.idle⟩,[]⟩⟩,eightFrames,[]⟩

/-- One processor allocates a page while the other one waits for the lock. -/
def contendedTrace : List ((Bool × CallEvent AllocatorCall) ⊕ Empty) :=
  [CallMachine.labels false [.call (.allocatePages 1),.lock,.proceed,.proceed,.proceed,.proceed],
    CallMachine.labels true [.call (.allocatePages 2),.lock,.proceed,.proceed],
    CallMachine.labels false (.enter :: List.replicate 10 .advance),CallMachine.labels true [.proceed],
    CallMachine.labels false [.finish]].flatten

theorem twoAllocators_initial : CallMachine.Initial twoAllocators :=
  ⟨⟨fun _ => rfl,fun _ => ⟨rfl,rfl⟩⟩,fun _ => rfl,rfl⟩

theorem contendedTrace_runs : ∃ final, Transition.run (CallMachine.step allocatorBody undisturbed) twoAllocators contendedTrace =
    some final ∧ final.history = [((false,0),.allocatePages 1,.address 4096)] := by
  have runs : (Transition.run (CallMachine.step allocatorBody undisturbed) twoAllocators contendedTrace).map (·.history) =
      some [((false,0),.allocatePages 1,.address 4096)] := by decide +kernel
  exact Option.map_eq_some_iff.mp runs

theorem concurrent_allocator_linear_contended : ∃ final before,
    Transition.run (CallMachine.step allocatorBody undisturbed) twoAllocators contendedTrace = some final ∧
      Exclusive.Replays performCall .ok eightFrames [((false,0),.allocatePages 1,.address 4096)] before := by
  obtain ⟨final,ran,history⟩ := contendedTrace_runs
  obtain ⟨before,replays,_⟩ := concurrent_allocator_linear twoAllocators_initial ran
  rw [history] at replays
  exact ⟨final,before,ran,replays⟩

/-- The frames that the calls of a history handed out and did not take back. -/
def outstandingAfter {Caller : Type} (history : List (Caller × AllocatorCall × AllocatorAnswer)) : Finset Nat :=
  history.foldl (fun outstanding entry =>
    match entry.2 with
    | (.allocatePages pageCount,.address address) =>
      if address = 0 then outstanding else outstanding ∪ pagesOf address pageCount
    | (.allocatePages _,.freed) => outstanding
    | (.freePages start pageCount,_) => outstanding \ pagesOf start pageCount) ∅

def AllocatorCall.Fits : AllocatorCall → Prop
  | .allocatePages _ => True
  | .freePages start pageCount => start.toNat / 4096 + pageCount.toNat < 2^64

theorem reaches_of_replays {Caller : Type} {initial final : PhysicalMemoryManager}
    {history : List (Caller × AllocatorCall × AllocatorAnswer)} (fits : ∀ entry ∈ history, entry.2.1.Fits)
    (replays : Exclusive.Replays performCall .ok initial history final) : Reaches initial final (outstandingAfter history) := by
  induction history using List.reverseRecOn generalizing final with
  | nil =>
    have same : initial = final := replays
    subst same
    exact .start
  | append_singleton history entry ih =>
    obtain ⟨middle,before,last,made,rfl⟩ := (Exclusive.replays_append performCall .ok initial final history [entry]).mp replays
    have reached := ih (fun other member => fits other (List.mem_append_left _ member)) before
    obtain ⟨caller,call,answer⟩ := entry
    have fit : call.Fits := fits (caller,call,answer) (by simp)
    rw [outstandingAfter,List.foldl_concat]
    cases call with
    | allocatePages pageCount =>
      obtain ⟨address,rfl,ok⟩ := middle.performCall_ok made
      exact .allocate pageCount address reached ok
    | freePages start pageCount =>
      obtain ⟨rfl,ok⟩ := middle.performCall_ok made
      exact .free start pageCount fit reached ok

theorem RunInvariant.hands_out {initial pmm next : PhysicalMemoryManager} {outstanding : Finset Nat} {pageCount address : Word}
    (state : RunInvariant initial pmm outstanding) (started : Initialized initial)
    (ok : allocatePages pageCount pmm = .ok address next) (nonzero : address ≠ 0) :
    ∀ page ∈ pagesOf address pageCount, page < initial.frameCount.toNat ∧ initial.reserved page = false ∧ page ∉ outstanding := by
  have zero : pmm.reserved 0 = true := by
    rw [reserved,state.reservedBitmap]
    exact started.firstReserved
  intro page member
  rcases allocatePages_spec pmm pageCount with ⟨first,positive,found,taken⟩ | ⟨_,nothing⟩
  · rw [taken] at ok
    cases ok
    rw [(found_answer zero positive found).2] at member
    obtain ⟨inside,unreserved,free⟩ := (pmm.mem_freeFrames page).mp (run_subset_freeFrames found member)
    refine ⟨state.frameCount ▸ inside,?_,?_⟩
    · rw [reserved,← state.reservedBitmap]
      exact unreserved
    · rw [← state.handedOut page inside,free]
      exact Bool.false_ne_true
  · rw [nothing] at ok
    cases ok
    exact absurd rfl nonzero

/-- Over every interleaving, an allocation hands out frames inside the frame count that
are not reserved and that no earlier call still holds, and while no body runs the bitmap
and the counter say exactly which frames are held. -/
theorem concurrent_allocator_frames {machine final : ConcurrentAllocator Id} {trace : List ((Id × CallEvent AllocatorCall) ⊕ Empty)}
    (initial : machine.Initial) (started : Initialized machine.shared)
    (ran : Transition.run (CallMachine.step allocatorBody undisturbed) machine trace = some final)
    (fits : ∀ entry ∈ final.history, entry.2.1.Fits) :
    (∀ earlier place pageCount address later,
      final.history = earlier ++ (place,.allocatePages pageCount,.address address) :: later → address ≠ 0 →
        ∀ page ∈ pagesOf address pageCount, page < machine.shared.frameCount.toNat ∧ machine.shared.reserved page = false ∧
          page ∉ outstandingAfter earlier) ∧
    ((∀ place, final.inside place = none) →
      (∀ page < machine.shared.frameCount.toNat,
        final.shared.allocated page = true ↔ page ∈ outstandingAfter final.history) ∧
      final.shared.usableFrames.toNat = ((Finset.range machine.shared.frameCount.toNat).filter fun page =>
        machine.shared.reserved page = false ∧ page ∉ outstandingAfter final.history).card) := by
  have closed : ∀ pmm change, undisturbed pmm change = none := by
    intro pmm change
    exact change.elim
  obtain ⟨_,before,replays,outside,_⟩ := CallMachine.run_linear allocatorAgrees closed initial ran
  constructor
  · intro earlier place pageCount address later history nonzero page member
    rw [history,Exclusive.replays_append] at replays
    obtain ⟨middle,first,next,made,_⟩ := replays
    rw [history] at fits
    have reached := reaches_of_replays (fun entry inside => fits entry (List.mem_append_left _ inside)) first
    have state := reaches_invariant started reached
    obtain ⟨given,same,ok⟩ := middle.performCall_ok made
    rw [AllocatorAnswer.address.injEq] at same
    subst same
    exact state.hands_out started ok nonzero page member
  · intro none
    have state := reaches_invariant started (reaches_of_replays fits replays)
    rw [outside none]
    refine ⟨?_,?_⟩
    · rw [← state.frameCount]
      exact state.handedOut
    · rw [state.counted]
      congr 1
      ext page
      rw [mem_freeFrames,Finset.mem_filter,Finset.mem_range,state.frameCount,reserved,state.reservedBitmap]
      refine and_congr_right fun inside => and_congr_right fun _ => ?_
      rw [← state.handedOut page (state.frameCount ▸ inside),Bool.not_eq_true]

theorem concurrent_allocator_frames_contended : ∃ final,
    Transition.run (CallMachine.step allocatorBody undisturbed) twoAllocators contendedTrace = some final ∧
      ∀ page ∈ pagesOf 4096 1, page < 8 ∧ eightFrames.reserved page = false := by
  obtain ⟨final,ran,history⟩ := contendedTrace_runs
  have started : Initialized eightFrames := ⟨by decide,by decide,by decide⟩
  have fits : ∀ entry ∈ final.history, entry.2.1.Fits := by
    rw [history]
    simp [AllocatorCall.Fits]
  have frames := (concurrent_allocator_frames twoAllocators_initial started ran fits).1 [] (false,0) 1 4096 [] history (by decide)
  exact ⟨final,ran,fun page member => ⟨(frames page member).1,(frames page member).2.1⟩⟩

end BorealOS.Memory.PhysicalMemoryManager
