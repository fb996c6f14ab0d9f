import BorealOS.Memory.KernelHalf

/-! The rights of a page. The processor combines the four entries on the way of an
address, and three of them were written by whichever call needed the table first.
The directories that `MapPage` makes grant everything and those of the reserved
upper half everything but access from user mode, so the rights of a page are those
of its own flags, less user access in the upper half. -/
namespace BorealOS.Memory

open Execution Paging

namespace Hardware

structure Rights where
  writable : Bool
  user : Bool
  noExecute : Bool
deriving DecidableEq, Repr

namespace Rights

def ofEntry (entry : Word) : Rights where
  writable := entry &&& Flag.readWrite.bit != 0
  user := entry &&& Flag.user.bit != 0
  noExecute := entry &&& Flag.noExecute.bit != 0

def combine (upper lower : Rights) : Rights where
  writable := upper.writable && lower.writable
  user := upper.user && lower.user
  noExecute := upper.noExecute || lower.noExecute

end Rights

/-- The walk of `Hardware.walk` again, with the rights of the entries it reads. -/
def rights (memory : PhysicalMemory) (vaddr : Word) : (level : Nat) → (table : Nat) → Option Rights
  | 0, _ => none
  | below + 1, table =>
    let entry := memory table (tableIndex vaddr (12 + 9 * below))
    if !present entry then none
    else if below = 0 ∨ (below ≤ 2 ∧ huge entry) then some (.ofEntry entry)
    else (rights memory vaddr below (frameOf entry)).map (.combine (.ofEntry entry))

section Steps
variable {memory : PhysicalMemory} {vaddr : Word} {below table : Nat}

theorem rights_absent (absent : present (memory table (tableIndex vaddr (12 + 9 * below))) = false) :
    rights memory vaddr (below + 1) table = none := by
  simp [rights,absent]

theorem rights_child {next : Nat}
    (down : child (below + 1) (memory table (tableIndex vaddr (12 + 9 * below))) = some next) :
    rights memory vaddr (below + 1) table = (rights memory vaddr below next).map
      (.combine (.ofEntry (memory table (tableIndex vaddr (12 + 9 * below))))) := by
  obtain ⟨set,high,flat,rfl⟩ := child_some down
  have inner : ¬ (below = 0 ∨ (below ≤ 2 ∧ huge (memory table (tableIndex vaddr (12 + 9 * below))) = true)) := by
    rintro (bottom | ⟨low,leaf⟩)
    · omega
    · rw [flat (by omega)] at leaf
      cases leaf
  simp only [rights,set,Bool.not_true,Bool.false_eq_true,if_false,if_neg inner]

theorem rights_pages (memory : PhysicalMemory) (vaddr : Word) (table : Nat) : rights memory vaddr 1 table =
    ((some (memory table (tableIndex vaddr 12))).filter present).map .ofEntry := by
  cases set : present (memory table (tableIndex vaddr 12)) <;> simp [rights,set]

end Steps

private theorem or_bit (first second bit : Word) :
    ((first ||| second) &&& bit != 0) = (first &&& bit != 0 || second &&& bit != 0) := by
  rw [BitVec.and_or_distrib_right]
  by_cases left : first &&& bit = 0
  · simp [left]
  · have either : (first &&& bit) ||| (second &&& bit) ≠ 0 := fun zero => left (BitVec.or_eq_zero_iff.mp zero).1
    simp only [bne_iff_ne.mpr left,bne_iff_ne.mpr either,Bool.true_or]

namespace Rights

theorem ofEntry_or (first second : Word) : ofEntry (first ||| second) =
    ⟨(ofEntry first).writable || (ofEntry second).writable,(ofEntry first).user || (ofEntry second).user,
      (ofEntry first).noExecute || (ofEntry second).noExecute⟩ := by
  simp only [ofEntry,or_bit]

theorem ofEntry_pointer {pointer : Word} (apart : pointer &&& flagsMask = 0) : ofEntry pointer = ⟨false,false,false⟩ := by
  have clear (bit : Word) (flag : flagsMask &&& bit = bit) : pointer &&& bit = 0 := by
    rw [← flag,← BitVec.and_assoc,apart]
    exact BitVec.zero_and
  simp only [ofEntry,clear _ (show flagsMask &&& Flag.readWrite.bit = _ by decide),
    clear _ (show flagsMask &&& Flag.user.bit = _ by decide),clear _ (show flagsMask &&& Flag.noExecute.bit = _ by decide),
    bne_self_eq_false]

def within (rights : Rights) (vaddr : Word) : Rights :=
  { rights with user := rights.user && decide ((tableIndex vaddr 39).val < 256) }

end Rights

theorem Rights.ofEntry_linked {pointer : Word} (apart : pointer &&& flagsMask = 0) (flags : Word) :
    ofEntry (pointer ||| flags) = ofEntry flags := by
  rw [ofEntry_or,ofEntry_pointer apart]
  simp

end Hardware

open Hardware

namespace Paging

theorem union_bit (flags : List Flag) (flag : Flag) :
    (Flag.union flags &&& flag.bit != 0) = decide (flag ∈ flags) := by
  have one (first second : Flag) : (first.bit &&& second.bit != 0) = decide (second = first) := by
    cases first <;> cases second <;> decide
  induction flags with
  | nil => cases flag <;> decide
  | cons first flags ih =>
    rw [show Flag.union (first::flags) = first.bit ||| Flag.union flags from rfl,or_bit,one,ih]
    simp

def askedRights (flags : List Flag) : Rights := ⟨decide (.readWrite ∈ flags),decide (.user ∈ flags),decide (.noExecute ∈ flags)⟩

theorem ofEntry_leafWord (physicalAddress : Word) (flags : List Flag) :
    Rights.ofEntry (leafWord physicalAddress (Flag.union flags)) = askedRights flags := by
  have always : Rights.ofEntry Flag.present.bit = ⟨false,false,false⟩ := by decide
  rw [leafWord,Rights.ofEntry_linked (pointerMask_apart _),Rights.ofEntry_or,always]
  simp only [Rights.ofEntry,union_bit,askedRights,Bool.or_false]

end Paging

namespace Machine

def rights (machine : Machine) (state : State) (vaddr : Word) : Option Rights :=
  Hardware.rights machine.memory vaddr 4 (frameNumber state.pml4)

/-- What an entry above the tables of pages grants. Those of the upper half of the
top-level table are there from the start and withhold access from user mode; all
others grant everything. -/
def Directs (path : List (Fin 512)) (index : Fin 512) (entry : Word) : Prop :=
  if path = [] ∧ 256 ≤ index.val then present entry = true ∧ Rights.ofEntry entry = ⟨true,false,false⟩
  else entry = 0 ∨ Rights.ofEntry entry = ⟨true,true,false⟩

def Directed (machine : Machine) (state : State) : Prop :=
  ∀ path index entry, path.length < 3 → machine.entryAt state path index = some entry → Directs path index entry

variable {machine next : Machine} {state : State}

theorem directs_zero {path : List (Fin 512)} {index : Fin 512} (low : path = [] → index.val < 256) :
    Directs path index 0 := by
  rw [Directs,if_neg]
  · exact Or.inl rfl
  · rintro ⟨top,high⟩
    exact absurd (low top) (by omega)

theorem Edit.directed (wf : machine.WellFormed state) (edit : Edit state machine next) (directed : machine.Directed state) :
    next.Directed state := by
  intro other i word low read
  cases edit with
  | @link path index table fresh here short empty free =>
    have emptied := directed path index _ short (entryAt_of_table here index)
    rw [entryAt_directory wf here short empty free] at read
    split at read
    · rename_i same
      obtain ⟨rfl,rfl⟩ := same
      cases read
      -- an entry of the upper half is present, so it is not the one that is linked
      have lower : ¬ (other = [] ∧ 256 ≤ i.val) := by
        intro upper
        rw [Directs,if_pos upper,empty] at emptied
        simp at emptied
      rw [Directs,if_neg lower,Rights.ofEntry_linked (frameAddress_apart (wf.fresh_small free))]
      exact Or.inr (by decide)
    · split at read
      · rename_i new
        cases read
        exact directs_zero (fun top => by simp [new] at top)
      · exact directed other i word low read
  | leaf here bottom set =>
    rw [entryAt_withEntry wf here bottom,if_neg] at read
    · exact directed other i word low read
    · rintro ⟨rfl,_⟩
      omega
  | unlink here below empty _ lower =>
    rw [entryAt_unlinked wf here below empty] at read
    split at read
    · rename_i same
      obtain ⟨rfl,rfl⟩ := same
      cases read
      exact directs_zero lower
    · split at read
      · cases read
      · exact directed other i word low read

variable {vaddr : Word}

private theorem rights_directory (flat : machine.Flat state) (directed : machine.Directed state) {path : List (Fin 512)}
    {table : Nat} {index : Fin 512} (here : machine.tables state path = some table)
    (towards : path ++ [index] <+: directoryPath vaddr) (level : Nat) (depth : path.length + level = 3) :
    (∃ below, machine.tables state (path ++ [index]) = some below ∧
      Hardware.rights machine.memory vaddr (level + 1) table = (Hardware.rights machine.memory vaddr level below).map
        (.combine ⟨true,!decide (path = [] ∧ 256 ≤ index.val),false⟩)) ∨
    (Hardware.rights machine.memory vaddr (level + 1) table = none ∧ machine.leafEntry state vaddr = none) := by
  obtain ⟨short,place⟩ := index_towards towards
  have read := entryAt_of_table here index
  have down := tables_snoc here index
  rw [show 4 - path.length = level + 1 by omega] at down
  rw [show 3 - path.length = level by omega] at place
  cases set : present (machine.memory table index) with
  | false =>
    refine Or.inr ⟨?_,leafEntry_of_absent towards (by rw [down,child_of_absent set])⟩
    rw [place] at set
    exact rights_absent set
  | true =>
    have leads := child_of_flat (show 2 ≤ level + 1 by omega) set (flat path index _ short read)
    have grants : Rights.ofEntry (machine.memory table index) = ⟨true,!decide (path = [] ∧ 256 ≤ index.val),false⟩ := by
      have directs := directed path index _ short read
      rw [Directs] at directs
      split at directs
      · rename_i upper
        simpa [upper] using directs.2
      · rename_i lower
        simpa [lower] using directs.resolve_left (ne_zero_of_present set)
    refine Or.inl ⟨_,down.trans leads,?_⟩
    rw [← grants]
    rw [place] at leads ⊢
    exact rights_child leads

theorem rights_eq (flat : machine.Flat state) (directed : machine.Directed state) (vaddr : Word) :
    machine.rights state vaddr = (machine.leafEntry state vaddr).map fun entry => (Rights.ofEntry entry).within vaddr := by
  have root : machine.tables state [] = some (frameNumber state.pml4) := rfl
  rw [rights]
  rcases rights_directory flat directed root (show [] ++ [tableIndex vaddr 39] <+: _ from ⟨_,rfl⟩) 3 rfl with
    ⟨pdp,here,first⟩ | ⟨ends,absent⟩
  · rw [first]
    rcases rights_directory flat directed here ⟨_,rfl⟩ 2 rfl with ⟨pd,here,second⟩ | ⟨ends,absent⟩
    · rw [second]
      rcases rights_directory flat directed here ⟨_,rfl⟩ 1 rfl with ⟨pt,here,third⟩ | ⟨ends,absent⟩
      · have leaf : machine.leafEntry state vaddr = (some (machine.memory pt (tableIndex vaddr 12))).filter present :=
          congrArg (Option.filter present) (entryAt_of_table here (tableIndex vaddr 12))
        rw [third,rights_pages,← leaf,Option.map_map,Option.map_map,Option.map_map]
        congr 1
        funext entry
        have half : (!decide (256 ≤ (tableIndex vaddr 39).val)) = decide ((tableIndex vaddr 39).val < 256) := by
          rw [← decide_not]
          exact decide_eq_decide.mpr Nat.not_le
        simp [Rights.combine,Rights.within,half,Bool.and_comm]
      · rw [ends,absent]
        rfl
    · rw [ends,absent]
      rfl
  · rw [ends,absent]
    rfl

/-- After `ReserveHigherHalfPML4Slots` of a top-level table without entries, the upper
half has empty tables and nothing else is there. -/
theorem reserved_entry {reserved : Machine} (wf : machine.WellFormed state)
    (blank : ∀ index, machine.memory (frameNumber state.pml4) index = 0)
    (filled : reserveHigherHalfPML4Slots state machine = .ok () reserved) {path : List (Fin 512)} {index : Fin 512}
    {entry : Word} (read : reserved.entryAt state path index = some entry) :
    (entry = 0 ∧ (path = [] → index.val < 256)) ∨
      path = [] ∧ 256 ≤ index.val ∧ ∃ fresh < 2^40, entry = frameAddress fresh ||| reservedFlags := by
  have loop := reserving_of_ok wf filled
  have upper (slot : Fin 512) (high : 256 ≤ slot.val) := loop.filled slot ((mem_upperHalf slot).mpr high) (by simp [blank])
  obtain ⟨table,here,rfl⟩ := Option.map_eq_some_iff.mp read
  cases path with
  | nil =>
    cases here
    by_cases high : 256 ≤ index.val
    · obtain ⟨fresh,free,_,word,_⟩ := upper index high
      exact Or.inr ⟨rfl,high,fresh,wf.fresh_small free,word⟩
    · have kept := loop.kept index (Or.inl (fun member => high ((mem_upperHalf index).mp member)))
      exact Or.inl ⟨kept.trans (blank index),fun _ => by omega⟩
  | cons slot rest =>
    refine Or.inl ⟨?_,nofun⟩
    obtain ⟨next,down,below⟩ := Option.bind_eq_some_iff.mp here
    have high : 256 ≤ slot.val := by
      by_contra low
      have kept := loop.kept slot (Or.inl (fun member => low ((mem_upperHalf slot).mp member)))
      rw [kept,blank] at down
      simp at down
    obtain ⟨fresh,_,there,_,zeroes⟩ := upper slot high
    have same : next = fresh := by
      have both := (tables_snoc (show reserved.tables state [] = _ from rfl) slot).symm.trans there
      exact Option.some.inj (down.symm.trans both)
    subst same
    cases rest with
    | nil =>
      cases below
      exact zeroes index
    | cons other rest =>
      obtain ⟨_,further,_⟩ := Option.bind_eq_some_iff.mp below
      rw [zeroes] at further
      simp at further

/-- A hierarchy in which every page has the rights that some flags ask for. -/
structure Granting (machine : Machine) (state : State) (pages : BitVec 36 → Option (List Flag)) : Prop where
  wellFormed : machine.WellFormed state
  flat : machine.Flat state
  directed : machine.Directed state
  leaves : ∀ vaddr, (machine.leafEntry state vaddr).map Rights.ofEntry = (pages (pageOf vaddr)).map askedRights

theorem granting_reserved {reserved : Machine} (wf : machine.WellFormed state)
    (blank : ∀ index, machine.memory (frameNumber state.pml4) index = 0)
    (filled : reserveHigherHalfPML4Slots state machine = .ok () reserved) : reserved.Granting state fun _ => none where
  wellFormed := (reserving_of_ok wf filled).wellFormed
  flat := by
    intro path index entry _ read
    rcases reserved_entry wf blank filled read with ⟨rfl,_⟩ | ⟨_,_,fresh,small,rfl⟩
    · decide
    · exact (tableEntry_spec small (by decide) (by decide)).2.1.trans (by decide)
  directed := by
    intro path index entry _ read
    rcases reserved_entry wf blank filled read with ⟨rfl,low⟩ | ⟨top,high,fresh,small,rfl⟩
    · exact directs_zero low
    · rw [Directs,if_pos ⟨top,high⟩,Rights.ofEntry_linked (frameAddress_apart small)]
      exact ⟨(tableEntry_spec small (by decide) (by decide)).1,by decide⟩
  leaves := by
    intro vaddr
    have none : reserved.leafEntry state vaddr = none := by
      rw [leafEntry,Option.filter_eq_none_iff]
      intro entry read
      rcases reserved_entry wf blank filled read with ⟨rfl,_⟩ | ⟨top,_⟩
      · simp
      · simp [directoryPath] at top
    rw [none]
    rfl

end Machine

def Request.grant (pages : BitVec 36 → Option (List Flag)) : Request → BitVec 36 → Option (List Flag)
  | .map virtualAddress _ flags => Function.update pages (pageOf virtualAddress) (some flags)
  | .unmap virtualAddress => Function.update pages (pageOf virtualAddress) none

theorem Request.grant_elsewhere {request : Request} {page : BitVec 36} (elsewhere : page ≠ pageOf request.address)
    (pages : BitVec 36 → Option (List Flag)) : request.grant pages page = pages page := by
  cases request with
  | map virtualAddress physicalAddress flags => exact Function.update_of_ne elsewhere _ _
  | unmap virtualAddress => exact Function.update_of_ne elsewhere _ _

def granted (requests : List Request) : BitVec 36 → Option (List Flag) := requests.foldl Request.grant fun _ => none

namespace Machine

variable {machine next : Machine} {state : State} {pages : BitVec 36 → Option (List Flag)}

theorem Granting.step (granting : machine.Granting state pages) {request : Request}
    (ok : request.perform state machine = .ok () next) : next.Granting state (request.grant pages) := by
  have wf := granting.wellFormed
  have edited := request.edited wf (granting.flat.smooth request.address) ok
  refine ⟨Edited.wellFormed wf edited,Edited.preserves wf (fun _ _ wf edit => edit.flat wf) edited granting.flat,
    Edited.preserves wf (fun _ _ wf edit => edit.directed wf) edited granting.directed,fun vaddr => ?_⟩
  cases request with
  | map virtualAddress physicalAddress flags =>
    rw [(leafEntry_mapPage wf (granting.flat.smooth virtualAddress) ok).2,Request.grant,Function.update_apply]
    by_cases same : pageOf vaddr = pageOf virtualAddress
    · rw [if_pos same,if_pos same,Option.map_some,ofEntry_leafWord]
      rfl
    · rw [if_neg same,if_neg same]
      exact granting.leaves vaddr
  | unmap virtualAddress =>
    rw [leafEntry_unmapPage wf (granting.flat.smooth virtualAddress) ok,Request.grant,Function.update_apply]
    by_cases same : pageOf vaddr = pageOf virtualAddress
    · rw [if_pos same,if_pos same]
      rfl
    · rw [if_neg same,if_neg same]
      exact granting.leaves vaddr

theorem Granting.run (granting : machine.Granting state pages) {requests : List Request}
    (ok : runAll (Request.perform state) requests machine = .ok () next) :
    next.Granting state (requests.foldl Request.grant pages) := by
  induction requests generalizing machine pages with
  | nil =>
    cases ok
    exact granting
  | cons request requests ih =>
    obtain ⟨middle,first,rest⟩ := (runAll_cons_ok _ request requests machine next).mp ok
    exact ih (granting.step first) rest

theorem Granting.rights (granting : machine.Granting state pages) (vaddr : Word) :
    machine.rights state vaddr = (pages (pageOf vaddr)).map fun flags => (askedRights flags).within vaddr := by
  have leaves := congrArg (Option.map fun rights => rights.within vaddr) (granting.leaves vaddr)
  rw [Option.map_map,Option.map_map] at leaves
  exact (rights_eq granting.flat granting.directed vaddr).trans leaves

end Machine

/-- After every run of calls that return, a page has the rights its `MapPage` asked
for, where user access needs an address in the lower half; so no page of the upper half
is accessible from user mode, and a further call changes the rights of its own page
only. -/
theorem rights_as_requested (machine reserved final : Machine) (state : State) (requests : List Request)
    (wf : machine.WellFormed state) (blank : ∀ index, machine.memory (frameNumber state.pml4) index = 0)
    (filled : reserveHigherHalfPML4Slots state machine = .ok () reserved)
    (run : runAll (Request.perform state) requests reserved = .ok () final) :
    (∀ vaddr, final.rights state vaddr = (granted requests (pageOf vaddr)).map fun flags =>
      ⟨decide (.readWrite ∈ flags),decide (.user ∈ flags) && decide ((tableIndex vaddr 39).val < 256),
        decide (.noExecute ∈ flags)⟩) ∧
    (∀ vaddr rights, 256 ≤ (tableIndex vaddr 39).val → final.rights state vaddr = some rights → rights.user = false) ∧
    (∀ (request : Request) next, request.perform state final = .ok () next → ∀ vaddr, pageOf vaddr ≠ pageOf request.address →
      next.rights state vaddr = final.rights state vaddr) := by
  have granting := (Machine.granting_reserved wf blank filled).run run
  refine ⟨granting.rights,?_,?_⟩
  · intro vaddr rights high found
    rw [granting.rights,Option.map_eq_some_iff] at found
    obtain ⟨flags,_,rfl⟩ := found
    simp [Rights.within,high]
  · intro request next ok vaddr elsewhere
    rw [(granting.step ok).rights,granting.rights,Request.grant_elsewhere elsewhere]

/-- A user page in the lower half, above an empty upper half. -/
theorem rights_as_requested_userPage : ∃ reserved final,
    reserveHigherHalfPML4Slots topAtFrameOne blankMachine = .ok () reserved ∧
    runAll (Request.perform topAtFrameOne) [.map 0x400000 0x7000 [.user,.noExecute]] reserved = .ok () final ∧
    final.rights topAtFrameOne 0x400123 = some ⟨false,true,true⟩ := by
  obtain ⟨reserved,filled,room⟩ := blankMachine_reserved
  have granting := Machine.granting_reserved blankMachine_wellFormed (fun _ => rfl) filled
  have unmapped : reserved.leafEntry topAtFrameOne 0x400000 = none := by
    simpa using granting.leaves 0x400000
  have returns : ¬ Stops (mapPage topAtFrameOne 0x400000 0x7000 (Flag.union [.user,.noExecute]) reserved) :=
    (blankMachine_regular.reserved filled).maps _ (by decide) (by decide) unmapped room
  obtain ⟨_,final,ok⟩ := (not_stops_iff _).mp returns
  have ran : runAll (Request.perform topAtFrameOne) [.map 0x400000 0x7000 [.user,.noExecute]] reserved = .ok () final :=
    (runAll_cons_ok _ _ _ _ _).mpr ⟨final,ok,rfl⟩
  refine ⟨reserved,final,filled,ran,?_⟩
  rw [(rights_as_requested blankMachine reserved final topAtFrameOne _ blankMachine_wellFormed (fun _ => rfl) filled ran).1]
  decide

end BorealOS.Memory
