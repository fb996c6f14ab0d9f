import BorealOS.Memory.AddressMap
import BorealOS.Memory.TranslationCache

/-! What the processors may find in their translation caches after any run of calls. A
call invalidates the page of its address on its own processor only. So the caches of a
processor follow the tables, but for the pages that other processors have unmapped since
it last invalidated them. This rests on the tables staying: `UnmapPage` frees a table
after its last `invlpg`, and every processor can keep such a table in its cache. -/
namespace BorealOS.Memory

open TableTree Execution Paging

section Requests
variable {P : Type}

namespace Request

def traced (state : State) : Request → TracedM Unit
  | .map virtualAddress physicalAddress flags => Traced.mapPage state virtualAddress physicalAddress (Flag.union flags)
  | .unmap virtualAddress => Traced.unmapPage state virtualAddress

theorem erases_traced (state : State) (request : Request) : Erases (request.traced state) (request.perform state) := by
  cases request with
  | map virtualAddress physicalAddress flags => exact Traced.erases_mapPage state virtualAddress physicalAddress _
  | unmap virtualAddress => exact Traced.erases_unmapPage state virtualAddress

theorem traced_ok {state : State} {request : Request} {moments after : List TableMoment} {machine final : Machine}
    (ok : request.traced state moments machine = .ok ((),after) final) :
    request.perform state machine = .ok () final := by
  have same := congrFun (erases_traced state request moments) machine
  change (EStateM.map Prod.fst (request.traced state moments)) machine = _ at same
  rw [← same,EStateM.map,ok]

theorem traced_of_ok {state : State} {request : Request} (moments : List TableMoment) {machine final : Machine}
    (ok : request.perform state machine = .ok () final) :
    ∃ after, request.traced state moments machine = .ok ((),after) final := by
  have same := congrFun (erases_traced state request moments) machine
  change (EStateM.map Prod.fst (request.traced state moments)) machine = _ at same
  rw [ok,EStateM.map] at same
  cases ended : request.traced state moments machine with
  | ok reached middle =>
    rw [ended] at same
    cases same
    exact ⟨reached.2,rfl⟩
  | error panic middle =>
    rw [ended] at same
    cases same

/-- The outdated paths of each processor after a call. -/
def outdates [DecidableEq P] (caller : P) (outdated : P → Set (List (Fin 512))) : Request → P → Set (List (Fin 512))
  | .map virtualAddress _ _ => Function.update outdated caller (outdated caller \ {leafPath virtualAddress})
  | .unmap virtualAddress => Function.update (fun party => outdated party ∪ {leafPath virtualAddress}) caller
    ((outdated caller ∪ {leafPath virtualAddress}) \ {leafPath virtualAddress})

/-- The table of pages of an address that is unmapped holds another page. -/
def LeavesTable (pages : PageMap) : Request → Prop
  | .map _ _ _ => True
  | .unmap virtualAddress => ∃ other, directoryPath other = directoryPath virtualAddress ∧
    pageOf other ≠ pageOf virtualAddress ∧ pages (pageOf other) ≠ none

end Request

def PageMap.FreesNoTable : PageMap → List Request → Prop
  | _, [] => True
  | pages, request :: requests => request.LeavesTable pages ∧ (pages.apply request).FreesNoTable requests

/-- Another processor has unmapped the page at the path, and since then the processor
has not invalidated it. -/
def Outdated (calls : List (P × Request)) (party : P) (path : List (Fin 512)) : Prop :=
  ∃ before caller virtualAddress after, calls = before ++ (caller,.unmap virtualAddress)::after ∧ caller ≠ party ∧
    path = leafPath virtualAddress ∧ ∀ call ∈ after, call.1 = party → leafPath call.2.address ≠ path

theorem Outdated.bottom {calls : List (P × Request)} {party : P} {path : List (Fin 512)}
    (old : Outdated calls party path) : path.length = 4 := by
  obtain ⟨_,_,_,_,_,_,rfl,_⟩ := old
  rfl

theorem Outdated.snoc {calls : List (P × Request)} {party : P} {path : List (Fin 512)} (old : Outdated calls party path)
    (call : P × Request) (elsewhere : call.1 = party → leafPath call.2.address ≠ path) :
    Outdated (calls ++ [call]) party path := by
  obtain ⟨before,caller,virtualAddress,after,rfl,other,same,since⟩ := old
  refine ⟨before,caller,virtualAddress,after ++ [call],by simp,other,same,?_⟩
  intro later member
  rcases List.mem_append.mp member with inside | last
  · exact since later inside
  · rw [List.mem_singleton.mp last]
    exact elsewhere

theorem outdates_subset [DecidableEq P] (calls : List (P × Request)) (caller : P) (request : Request) (party : P) :
    request.outdates caller (fun party => { path | Outdated calls party path }) party ⊆
      { path | Outdated (calls ++ [(caller,request)]) party path } := by
  intro path old
  have kept (before : Outdated calls party path) (elsewhere : caller = party → path ≠ leafPath request.address) :
      Outdated (calls ++ [(caller,request)]) party path := before.snoc _ fun same => (elsewhere same).symm
  cases request with
  | map virtualAddress physicalAddress flags =>
    simp only [Request.outdates,Function.update_apply] at old
    split at old
    · rename_i same
      subst same
      exact kept old.1 fun _ => old.2
    · rename_i apart
      exact kept old fun same => absurd same.symm apart
  | unmap virtualAddress =>
    simp only [Request.outdates,Function.update_apply] at old
    split at old
    · rename_i same
      subst same
      exact kept (old.1.resolve_right old.2) fun _ => old.2
    · rename_i apart
      rcases old with before | here
      · exact kept before fun same => absurd same.symm apart
      · exact ⟨calls,caller,virtualAddress,[],rfl,Ne.symm apart,here,by simp⟩

end Requests

namespace Machine

variable {P : Type} [DecidableEq P]

abbrev CacheFollows (machine : Machine) (state : State) (outdated : Set (List (Fin 512))) (cache : TranslationCache) : Prop :=
  Sound child present 4 (frameNumber state.pml4) machine.memory outdated cache

/-- Calls that return one after the other, each by some processor, while all processors
use their caches. -/
inductive CachedRun (state : State) : Machine → (P → TranslationCache) → List (P × Request) → Machine →
    (P → TranslationCache) → Prop
  | done {machine : Machine} {caches last : P → TranslationCache} :
    Working child present 4 (frameNumber state.pml4) machine.memory caches last →
    CachedRun state machine caches [] machine last
  | call {machine middle final : Machine} {caches between last : P → TranslationCache} {caller : P} {request : Request}
    {calls : List (P × Request)} {moments : List TableMoment} :
    request.traced state [] machine = .ok ((),moments) middle →
    Observes child present 4 (frameNumber state.pml4) caller machine.memory caches moments middle.memory between →
    CachedRun state middle between calls final last →
    CachedRun state machine caches ((caller,request)::calls) final last

variable {machine final : Machine} {state : State} {pages : PageMap}

theorem traced_ages (regular : machine.Regular state)
    (leaves : ∀ vaddr, machine.leafEntry state vaddr = (pages (pageOf vaddr)).map fun mapping => leafWord mapping.1 mapping.2)
    {request : Request} (leavesTable : request.LeavesTable pages) {moments : List TableMoment}
    (ok : request.traced state [] machine = .ok ((),moments) final) (caller : P) (outdated : P → Set (List (Fin 512))) :
    Ages state caller machine.memory outdated moments final.memory (request.outdates caller outdated) := by
  cases request with
  | map virtualAddress physicalAddress flags =>
    obtain ⟨_,rfl,ages⟩ := mapPage_ages (P := P) regular.wellFormed (regular.flat.smooth virtualAddress) ok
    exact ages caller outdated
  | unmap virtualAddress =>
    obtain ⟨other,sameTable,apart,used⟩ := leavesTable
    have inUse : machine.leafEntry state other ≠ none := by
      rw [leaves]
      simpa using used
    obtain ⟨_,rfl,ages⟩ := unmapPage_ages (P := P) regular.wellFormed (regular.flat.smooth virtualAddress) sameTable apart inUse ok
    exact ages caller outdated

theorem CachedRun.follows {caches last : P → TranslationCache} {calls : List (P × Request)}
    (run : CachedRun state machine caches calls final last) (before : List (P × Request)) (regular : machine.Regular state)
    (leaves : ∀ vaddr, machine.leafEntry state vaddr = (pages (pageOf vaddr)).map fun mapping => leafWord mapping.1 mapping.2)
    (frees : pages.FreesNoTable (calls.map Prod.snd))
    (follows : ∀ party, machine.CacheFollows state { path | Outdated before party path } (caches party)) :
    (∀ vaddr, final.leafEntry state vaddr =
      ((calls.map Prod.snd).foldl PageMap.apply pages (pageOf vaddr)).map fun mapping => leafWord mapping.1 mapping.2) ∧
    ∀ party, final.CacheFollows state { path | Outdated (before ++ calls) party path } (last party) := by
  have flat : ∀ entry, child 1 entry = none := child_of_leafLevel (by decide)
  induction run generalizing before pages with
  | done working =>
    rw [List.append_nil]
    exact ⟨leaves,working.sound flat follows⟩
  | @call machine middle final caches between last caller request calls moments traced observes _ ih =>
    have ok := request.traced_ok traced
    have ages := traced_ages regular leaves frees.1 traced caller fun party => { path | Outdated before party path }
    have next := regular.edited (request.edited regular.wellFormed (regular.flat.smooth _) ok)
    have sound := fun party => (observes.sound flat (by decide) ages follows party).mono
      (outdates_subset before caller request party) fun _ old => old.bottom
    have rest := ih (before ++ [(caller,request)]) next (leaves_step regular.wellFormed regular.flat leaves ok) frees.2 sound
    rwa [List.append_assoc] at rest

/-- Every run of calls that return can be observed. -/
theorem exists_cachedRun (regular : machine.Regular state)
    (leaves : ∀ vaddr, machine.leafEntry state vaddr = (pages (pageOf vaddr)).map fun mapping => leafWord mapping.1 mapping.2)
    (calls : List (P × Request)) (frees : pages.FreesNoTable (calls.map Prod.snd))
    (run : runAll (Request.perform state) (calls.map Prod.snd) machine = .ok () final) (caches : P → TranslationCache) :
    ∃ last, CachedRun state machine caches calls final last := by
  induction calls generalizing machine pages caches with
  | nil =>
    cases run
    exact ⟨caches,.done .refl⟩
  | cons call calls ih =>
    obtain ⟨caller,request⟩ := call
    obtain ⟨middle,ok,rest⟩ := (runAll_cons_ok _ _ _ _ _).mp run
    obtain ⟨moments,traced⟩ := Request.traced_of_ok [] ok
    obtain ⟨between,observes⟩ := (traced_ages regular leaves frees.1 traced caller fun _ => ∅).observed caches
    have next := regular.edited (request.edited regular.wellFormed (regular.flat.smooth _) ok)
    obtain ⟨last,run⟩ := ih next (leaves_step regular.wellFormed regular.flat leaves ok) frees.2 rest between
    exact ⟨last,.call traced observes run⟩

end Machine

namespace Hardware

/-- The rights that the processor combines from the entries of a walk. -/
def rightsOf : List Word → Option Rights
  | [] => none
  | [entry] => some (.ofEntry entry)
  | entry :: entries => (rightsOf entries).map (.combine (.ofEntry entry))

end Hardware

open Hardware

namespace Machine

variable {machine final : Machine} {state : State}

/-- The entries along the path of a page give the address and the rights that a walk
gives now. -/
theorem walk_of_chain {vaddr : Word} {entries : List Word}
    (chain : Chain child present 4 (frameNumber state.pml4) machine.memory (leafPath vaddr) entries) :
    ∃ entry, entries.getLast? = some entry ∧ machine.walk state vaddr = some ⟨1,entry⟩ ∧
      machine.leafEntry state vaddr = some entry ∧ machine.rights state vaddr = rightsOf entries := by
  obtain ⟨_,pt,rfl,chain,ptHere,set⟩ := Chain.snoc [tableIndex vaddr 39,tableIndex vaddr 30,tableIndex vaddr 21] chain
  obtain ⟨_,pd,rfl,chain,pdHere,_⟩ := Chain.snoc [tableIndex vaddr 39,tableIndex vaddr 30] chain
  obtain ⟨_,pdp,rfl,chain,pdpHere,_⟩ := Chain.snoc [tableIndex vaddr 39] chain
  obtain ⟨_,pml4,rfl,chain,top,_⟩ := Chain.snoc [] chain
  obtain rfl := chain.nil
  cases top
  have leaf : machine.leafEntry state vaddr = some (machine.memory pt (tableIndex vaddr 12)) := by
    rw [leafEntry,entryAt_of_table (show machine.tables state (directoryPath vaddr) = some pt from ptHere),
      Option.filter_some,if_pos set]
  have first := (tables_snoc tables_nil (tableIndex vaddr 39)).symm.trans pdpHere
  have second := (tables_snoc pdpHere (tableIndex vaddr 30)).symm.trans pdHere
  have third := (tables_snoc pdHere (tableIndex vaddr 21)).symm.trans ptHere
  refine ⟨_,by simp,?_,leaf,?_⟩
  · rw [walk_of_pageTable ptHere,leaf]
    rfl
  · rw [Machine.rights,rights_child first,rights_child second,rights_child third,rights_pages,Option.filter_some,if_pos set]
    rfl

end Machine

namespace Machine

theorem follows_of_empty {machine : Machine} {state : State} : machine.CacheFollows state ∅ fun _ => none := by
  refine ⟨?_,fun _ gone => absurd gone (Set.notMem_empty _)⟩
  intro path entries found
  cases found

theorem CachedRun.working {P : Type} [DecidableEq P] {machine final : Machine} {state : State}
    {caches middle last : P → TranslationCache} {calls : List (P × Request)}
    (run : CachedRun state machine caches calls final middle)
    (working : Working child present 4 (frameNumber state.pml4) final.memory middle last) :
    CachedRun state machine caches calls final last := by
  induction run with
  | done before => exact .done (before.trans working)
  | call traced observes _ ih => exact .call traced observes (ih working)

/-- The walk of a mapped page, as far as its table of pages and to its end. -/
theorem exists_chain {machine : Machine} {state : State} {vaddr : Word} (smooth : machine.Smooth state vaddr)
    (mapped : machine.leafEntry state vaddr ≠ none) :
    ∃ entries entry, Chain child present 4 (frameNumber state.pml4) machine.memory (directoryPath vaddr) entries ∧
      Chain child present 4 (frameNumber state.pml4) machine.memory (leafPath vaddr) (entries ++ [entry]) := by
  obtain ⟨pml4,pdp,pd,pt⟩ := smooth.leafEntry_words.mp mapped
  obtain ⟨pdpHere,pdHere,ptHere⟩ := smooth.tables_words pml4 pdp pd
  have first : Chain child present 4 (frameNumber state.pml4) machine.memory ([] ++ [tableIndex vaddr 39]) _ :=
    .entry .root tables_nil pml4
  have directories := (first.entry pdpHere pdp).entry pdHere pd
  exact ⟨_,_,directories,directories.entry ptHere pt⟩

end Machine

/-- After every run of calls in which no table is freed, what a processor has cached is
what a walk reads now, for directories and pages alike, and it agrees with the map of the
pages. It can differ only for a page that another processor has unmapped and that this
one has not invalidated since. -/
theorem cached_translations_current {P : Type} [DecidableEq P] (machine final : Machine) (state : State)
    (caches last : P → TranslationCache) (calls : List (P × Request)) (regular : machine.Regular state)
    (frees : (machine.pageMap state).FreesNoTable (calls.map Prod.snd))
    (start : ∀ party, machine.CacheFollows state ∅ (caches party))
    (run : Machine.CachedRun state machine caches calls final last) (party : P) (path : List (Fin 512))
    (entries : List Word) (found : last party path = some entries) :
    let pages := (calls.map Prod.snd).foldl PageMap.apply (machine.pageMap state)
    Outdated calls party path ∨
      Chain child present 4 (frameNumber state.pml4) final.memory path entries ∧ ∀ vaddr, path = leafPath vaddr →
        ∃ entry, entries.getLast? = some entry ∧ final.walk state vaddr = some ⟨1,entry⟩ ∧
          final.rights state vaddr = rightsOf entries ∧
          ∃ mapping, pages (pageOf vaddr) = some mapping ∧ entry = leafWord mapping.1 mapping.2 := by
  intro pages
  have clean (party : P) : machine.CacheFollows state { path | Outdated [] party path } (caches party) := by
    refine (start party).mono (Set.empty_subset _) ?_
    intro path old
    exact old.bottom
  obtain ⟨leaves,follows⟩ := run.follows [] regular (machine.represents_pageMap state).leaves frees clean
  rcases (follows party).current path entries found with chain | old
  · refine Or.inr ⟨chain,?_⟩
    rintro vaddr rfl
    obtain ⟨entry,last,walk,leaf,rights⟩ := Machine.walk_of_chain chain
    rw [leaves] at leaf
    obtain ⟨mapping,mapped,same⟩ := Option.map_eq_some_iff.mp leaf
    exact ⟨entry,last,walk,rights,mapping,mapped,same.symm⟩
  · exact Or.inl old

instance decidableStops (outcome : EStateM.Result Panic Machine Unit) : Decidable (Stops outcome) :=
  match outcome with
  | .ok _ _ => isFalse (not_stops_ok _ _)
  | .error _ _ => isTrue (stops_error _ _)

def twoMappings : List (Bool × Request) :=
  [(false,.map 0x400000 0x7000 [.readWrite]),(true,.map 0x401000 0x8000 []),(true,.unmap 0x400000)]

/-- One processor maps a page, the other one a second page before it unmaps the first.
Then the first processor finds the second page in its cache. -/
theorem cached_translations_current_twoMappings : ∃ final last entries,
    Machine.CachedRun topAtFrameOne emptyMachine (fun _ _ => none) twoMappings final last ∧
    last false (leafPath 0x401000) = some entries ∧
    final.walk topAtFrameOne 0x401000 = some ⟨1,leafWord 0x8000 (Flag.union [])⟩ := by
  have returns : ¬ Stops (runAll (Request.perform topAtFrameOne) (twoMappings.map Prod.snd) emptyMachine) := by
    decide +kernel
  obtain ⟨_,final,ended⟩ := (not_stops_iff _).mp returns
  have represents := emptyMachine.represents_pageMap topAtFrameOne
  have frees : (emptyMachine.pageMap topAtFrameOne).FreesNoTable (twoMappings.map Prod.snd) := by
    refine ⟨trivial,trivial,⟨0x401000,by decide,by decide,?_⟩,trivial⟩
    rw [PageMap.apply,Function.update_apply,if_pos rfl]
    exact Option.some_ne_none _
  obtain ⟨middle,run⟩ := Machine.exists_cachedRun emptyMachine_regular represents.leaves twoMappings frees ended fun _ _ => none
  obtain ⟨represents,regular⟩ := represents.run emptyMachine_regular (by simp [twoMappings,Request.Bounded]) ended
  have mapped : ((twoMappings.map Prod.snd).foldl PageMap.apply (emptyMachine.pageMap topAtFrameOne))
      (pageOf 0x401000) = some (0x8000,Flag.union []) := by decide
  have found : final.leafEntry topAtFrameOne 0x401000 ≠ none := by
    rw [represents.leaves,mapped]
    exact Option.some_ne_none _
  obtain ⟨_,_,_,chain⟩ := Machine.exists_chain (regular.flat.smooth 0x401000) found
  obtain ⟨last,working,cached⟩ := chain.cached false middle
  have read := cached.resolve_left (by simp [leafPath])
  refine ⟨final,last,_,run.working working,read,?_⟩
  rcases cached_translations_current emptyMachine final topAtFrameOne _ last twoMappings emptyMachine_regular frees
    (fun _ => Machine.follows_of_empty) (run.working working) false _ _ read with ⟨_,_,vaddr,_,whole,_,same,_⟩ | ⟨_,current⟩
  · have member : (_,Request.unmap vaddr) ∈ twoMappings := whole ▸ List.mem_append_right _ List.mem_cons_self
    simp only [twoMappings,List.mem_cons,Prod.mk.injEq,reduceCtorEq,and_false,Request.unmap.injEq,List.not_mem_nil,
      or_false,false_or] at member
    rw [member.2] at same
    exact absurd same (by decide)
  · obtain ⟨entry,_,walk,_,mapping,here,rfl⟩ := current _ rfl
    rw [mapped] at here
    cases here
    exact walk

namespace Machine

variable {machine reached final : Machine} {state : State} {vaddr : Word} {path : List (Fin 512)}

theorem freeFrames_unlinked {table : Nat} {index : Fin 512} {address : Word} (held : machine.pmm.Held (frameNumber address)) :
    (machine.unlinked table index address).pmm.freeFrames = insert (frameNumber address) machine.pmm.freeFrames := by
  have single : Finset.Ico (frameNumber address) (frameNumber address + (1 : Word).toNat) = {frameNumber address} :=
    Nat.Ico_succ_singleton _
  change (machine.pmm.release (frameNumber address) 1).freeFrames = _
  rw [PhysicalMemoryManager.freeFrames_release,single,Finset.union_comm,Finset.insert_eq]
  intro frame low high
  have member : frame ∈ ({frameNumber address} : Finset Nat) := single ▸ Finset.mem_Ico.mpr ⟨low,high⟩
  rw [Finset.mem_singleton.mp member]
  exact held

/-- `UnmapPage` has freed nothing yet, or the table of pages is free and out of the
hierarchy. -/
theorem Pruned.freed (wf : machine.WellFormed state) (pruned : Pruned state machine vaddr path reached) {table : Nat}
    (here : machine.tables state (directoryPath vaddr) = some table) :
    (path = directoryPath vaddr ∧ reached = machine.withEntry table (tableIndex vaddr 12) 0) ∨
      reached.tables state (directoryPath vaddr) = none ∧ table ∈ reached.pmm.freeFrames := by
  induction pruned with
  | start there _ =>
    rw [here] at there
    cases there
    exact Or.inl ⟨rfl,rfl⟩
  | @unlink path reached index parent address pruned above below empty held _ ih =>
    have kept := Edited.wellFormed wf pruned.edited
    rw [tables_unlinked kept above below empty,freeFrames_unlinked held]
    rcases ih with ⟨whole,same⟩ | ⟨gone,free⟩
    · have frame : table = frameNumber address := by
        rw [whole,same,tables_withEntry wf here rfl,here] at below
        exact Option.some.inj below
      rw [whole,Function.update_self,frame]
      exact Or.inr ⟨rfl,Finset.mem_insert_self _ _⟩
    · refine Or.inr ⟨?_,Finset.mem_insert_of_mem free⟩
      rw [Function.update_apply,gone,ite_self]

/-- Once the freeing is settled, the table of pages of the only page in it is free. -/
theorem table_freed (wf : machine.WellFormed state) (pruned : Pruned state machine vaddr path reached)
    (settled : reached.Settled state path)
    (alone : ∀ other, directoryPath other = directoryPath vaddr → pageOf other ≠ pageOf vaddr →
      machine.leafEntry state other = none) {table : Nat} (here : machine.tables state (directoryPath vaddr) = some table) :
    reached.tables state (directoryPath vaddr) = none ∧ table ∈ reached.pmm.freeFrames := by
  rcases pruned.freed wf here with ⟨rfl,rfl⟩ | freed
  · exfalso
    rcases settled with top | ⟨parent,i,there,set⟩ | ⟨index,single,_⟩
    · cases top
    · rw [tables_withEntry wf here rfl,here] at there
      cases there
      obtain ⟨other,sameTable,rfl⟩ := exists_address (show (directoryPath vaddr).length = 3 from rfl) i
      by_cases same : tableIndex other 12 = tableIndex vaddr 12
      · simp [withEntry,same] at set
      · have absent := alone other sameTable fun page => same ((path_eq_iff other vaddr).mpr page).2
        rw [leafEntry,sameTable,entryAt_of_table here] at absent
        simp [withEntry,write,same] at set
        simp [Option.filter,set] at absent
    · cases single
  · exact freed

end Machine

namespace Paging.Traced

variable {α β : Type}

/-- A computation whose moments are stores, of which the last one is the memory it
leaves. -/
def OnlyStores (traced : TracedM α) : Prop :=
  ∀ moments machine value after final, traced moments machine = .ok (value,after) final →
    ∃ stores : List PhysicalMemory, after = moments ++ stores.map .store ∧ final.memory = stores.getLastD machine.memory

theorem OnlyStores.bind {first : TracedM α} {next : α → TracedM β} (left : OnlyStores first)
    (right : ∀ value, OnlyStores (next value)) : OnlyStores (first >>= next) := by
  intro moments machine result after final ok
  obtain ⟨value,_,middle,step,rest⟩ := recorded_bind_ok.mp ok
  obtain ⟨stores,rfl,reached⟩ := left _ _ _ _ _ step
  obtain ⟨more,rfl,ended⟩ := right value _ _ _ _ _ rest
  refine ⟨stores ++ more,by rw [List.map_append,List.append_assoc],?_⟩
  rw [ended,reached]
  cases more with
  | nil => simp
  | cons memory more => simp [List.getLastD_eq_getLast?]

theorem onlyStores_pure (value : α) : OnlyStores (pure value) := by
  intro moments machine result after final ok
  cases ok
  exact ⟨[],(List.append_nil _).symm,rfl⟩

theorem OnlyStores.ite {condition : Prop} [Decidable condition] {first second : TracedM α} (left : OnlyStores first)
    (right : OnlyStores second) : OnlyStores (if condition then first else second) := by
  split
  · exact left
  · exact right

theorem onlyStores_isTableEmpty (table : Word) : OnlyStores (liftM (isTableEmpty table)) := by
  intro moments machine result after final ok
  obtain ⟨tested,rfl⟩ := recorded_lift_ok.mp ok
  rw [isTableEmpty_apply] at tested
  obtain ⟨_,rfl⟩ := EStateM.Result.ok.inj tested
  exact ⟨[],(List.append_nil _).symm,rfl⟩

theorem onlyStores_freePage (address : Word) : OnlyStores (liftM (freePage address)) := by
  intro moments machine result after final ok
  obtain ⟨freed,rfl⟩ := recorded_lift_ok.mp ok
  refine ⟨[],(List.append_nil _).symm,?_⟩
  rw [freePage] at freed
  cases released : PhysicalMemoryManager.freePages address 1 machine.pmm with
  | ok _ pmm =>
    rw [released] at freed
    cases freed
    rfl
  | error panic pmm =>
    rw [released] at freed
    cases freed

theorem onlyStores_visible (action : KernelM Unit) : OnlyStores (visible action) := by
  intro moments machine result after final ok
  obtain ⟨_,rfl⟩ := visible_ok.mp ok
  exact ⟨[final.memory],rfl,rfl⟩

theorem onlyStores_freeEmptyTables (state : State) (indices : PageTableIndices) (pdp pd pt : Word) :
    OnlyStores (freeEmptyTables state indices pdp pd pt) := by
  refine (onlyStores_isTableEmpty pt).bind fun _ => .ite ?_ (onlyStores_pure ())
  refine (onlyStores_freePage pt).bind fun _ => (onlyStores_visible _).bind fun _ => ?_
  refine (onlyStores_isTableEmpty pd).bind fun _ => .ite ?_ (onlyStores_pure ())
  refine (onlyStores_freePage pd).bind fun _ => (onlyStores_visible _).bind fun _ => ?_
  refine (onlyStores_isTableEmpty pdp).bind fun _ => .ite ?_ (onlyStores_pure ())
  exact (onlyStores_freePage pdp).bind fun _ => onlyStores_visible _

end Paging.Traced

/-- `UnmapPage` of the only page of a table frees the table after its `invlpg`. Whatever
the caches hold, a processor may then keep the freed frame as a table, and its next walk
reads entries from there. -/
theorem freed_table_stays_cached {P : Type} [DecidableEq P] (machine final : Machine) (state : State) (caller party : P)
    (vaddr : Word) (caches : P → TranslationCache) (regular : machine.Regular state)
    (alone : ∀ other, directoryPath other = directoryPath vaddr → pageOf other ≠ pageOf vaddr →
      machine.leafEntry state other = none)
    (ok : unmapPage state vaddr machine = .ok () final) :
    ∃ last entries table, Machine.CachedRun state machine caches [(caller,.unmap vaddr)] final last ∧
      Known child 4 (frameNumber state.pml4) (last party) (directoryPath vaddr) entries table ∧
      final.tables state (directoryPath vaddr) = none ∧ table ∈ final.pmm.freeFrames := by
  have wf := regular.wellFormed
  have smooth := regular.flat.smooth vaddr
  obtain ⟨moments,traced⟩ := Request.traced_of_ok [] (show (Request.unmap vaddr).perform state machine = _ from ok)
  obtain ⟨⟨pml4,pdp,pd,pt⟩,rest⟩ := Machine.unmapPage_clears traced
  obtain ⟨stores,whole,ended⟩ := Traced.onlyStores_freeEmptyTables state _ _ _ _ _ _ _ _ _ rest
  have here := (smooth.tables_words pml4 pdp pd).2.2
  obtain ⟨path,pruned,settled⟩ := unmapPage_ok wf smooth ok
  obtain ⟨gone,free⟩ := Machine.table_freed wf pruned settled alone here
  -- the walk to the table of pages is still there when the page has been invalidated
  obtain ⟨entries,_,chain,_⟩ := Machine.exists_chain smooth (smooth.leafEntry_words.mpr ⟨pml4,pdp,pd,pt⟩)
  have still := (chain.keeps (Machine.keeps_leaf wf here 0) Machine.leafPath_leaves).resolve_right fun same => by
    simp [leafPath] at same
  obtain ⟨last,working,found⟩ := still.cached party
    (Function.update caches caller ((caches caller).invalidate (leafPath vaddr)))
  have observes : Observes child present 4 (frameNumber state.pml4) caller machine.memory caches moments final.memory last := by
    rw [whole,ended]
    exact .store .refl (.invalidate .refl (.working _ working (.stores _ _ stores)))
  obtain ⟨before,directory,rfl,_,above,_⟩ := Chain.snoc [tableIndex vaddr 39,tableIndex vaddr 30] still
  have found : last party ([tableIndex vaddr 39,tableIndex vaddr 30] ++ [tableIndex vaddr 21]) = _ :=
    found.resolve_left (by simp [directoryPath])
  have down := Machine.tables_withEntry wf here rfl (tableIndex vaddr 12) 0
  have leads : child 2 ((machine.withEntry (frameOf (machine.pdWord state vaddr)) (tableIndex vaddr 12) 0).memory directory
      (tableIndex vaddr 21)) = some (frameOf (machine.pdWord state vaddr)) := by
    rw [← down] at here
    rw [← here]
    exact (tableAt_snoc child above (tableIndex vaddr 21)).symm
  exact ⟨last,_,_,.call traced observes (.done .refl),.cached found leads,gone,free⟩

/-- The only page is mapped and unmapped by one processor, and the other one keeps the
table that is freed. -/
theorem freed_table_stays_cached_onePage : ∃ machine final last entries table,
    Machine.CachedRun topAtFrameOne machine (fun _ _ => none) [(true,.unmap 0x400000)] final last ∧
    Known child 4 (frameNumber topAtFrameOne.pml4) (last false) (directoryPath 0x400000) entries table ∧
    table ∈ final.pmm.freeFrames := by
  have returns : ¬ Stops (runAll (Request.perform topAtFrameOne) [.map 0x400000 0x7000 [],.unmap 0x400000] emptyMachine) := by
    decide +kernel
  obtain ⟨_,final,ended⟩ := (not_stops_iff _).mp returns
  obtain ⟨machine,mapped,rest⟩ := (runAll_cons_ok _ _ _ _ _).mp ended
  obtain ⟨_,unmapped,same⟩ := (runAll_cons_ok _ _ _ _ _).mp rest
  cases same
  have bounded : (Request.map 0x400000 0x7000 []).Bounded := (by decide : (0x7000 : Word).toNat < 2^52)
  obtain ⟨represents,regular⟩ := (emptyMachine.represents_pageMap topAtFrameOne).step emptyMachine_regular bounded mapped
  have alone : ∀ other, directoryPath other = directoryPath 0x400000 → pageOf other ≠ pageOf 0x400000 →
      machine.leafEntry topAtFrameOne other = none := by
    intro other _ apart
    rw [represents.leaves,PageMap.apply,Function.update_of_ne apart,Machine.pageMap,emptyMachine_leafEntry]
    rfl
  obtain ⟨last,entries,table,run,known,_,free⟩ := freed_table_stays_cached machine final topAtFrameOne true false
    0x400000 (fun _ _ => none) regular alone unmapped
  exact ⟨machine,final,last,entries,table,run,known,free⟩

end BorealOS.Memory
