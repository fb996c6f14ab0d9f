import BorealOS.Firmware.MADTEntries

/-! The routing of the legacy interrupts. `IOAPICManager::Initialize` counts the source
overrides of the table and then searches the table from its start for each of them;
what comes out is one pass over the entries in which the last override of an
interrupt wins. -/
namespace BorealOS.Interrupts.IOAPICManager

open ByteObject Firmware.ACPI

structure IRQMapping where
  gsi : BitVec 32
  isoFlags : BitVec 16
deriving DecidableEq, Repr

/-! The fields of a `MADTIRQSrcOverride` at an offset of the table. -/

def irqSource (madt : MADT) (entry : Nat) : Except Fault UInt8 := madt.read (entry + 3)

def globalSysInterrupt (madt : MADT) (entry : Nat) : Except Fault (BitVec 32) := do
  let low := (← madt.read (entry + 5)).toBitVec ++ (← madt.read (entry + 4)).toBitVec
  let high := (← madt.read (entry + 7)).toBitVec ++ (← madt.read (entry + 6)).toBitVec
  return high ++ low

def overrideFlags (madt : MADT) (entry : Nat) : Except Fault (BitVec 16) := do
  return (← madt.read (entry + 9)).toBitVec ++ (← madt.read (entry + 8)).toBitVec

def initialMappings : List IRQMapping := (List.range 16).map fun i => ⟨BitVec.ofNat 32 i,0⟩

def storeOverride (madt : MADT) (irqToGsi : List IRQMapping) (entry : Nat) : Except Fault (List IRQMapping) := do
  if (← irqSource madt entry) < 16 then
    let mapping : IRQMapping := ⟨← globalSysInterrupt madt entry,← overrideFlags madt entry⟩
    return irqToGsi.set (← irqSource madt entry).toNat mapping
  return irqToGsi

/-- The loop over the source overrides; each search is one of at most `rounds` entries. -/
def overrideLoop (rounds : Nat) (madt : MADT) : (remaining i : Nat) → List IRQMapping → Except Fault (List IRQMapping)
  | 0, _, irqToGsi => return irqToGsi
  | remaining + 1, i, irqToGsi => do
    match ← findMADTEntry rounds madt .irqSrcOverride i with
    | none => overrideLoop rounds madt remaining (i + 1) irqToGsi
    | some entry => overrideLoop rounds madt remaining (i + 1) (← storeOverride madt irqToGsi entry)

/-- The part of `Initialize` that fills `_irqToGsi`. -/
def routeIRQs (rounds : Nat) (madt : MADT) : Except Fault (List IRQMapping) := do
  let isoCount ← findMADTEntryCount rounds madt .irqSrcOverride
  overrideLoop rounds madt isoCount 0 initialMappings

def getIRQ (irqToGsi : List IRQMapping) (irq : BitVec 32) : Except Fault IRQMapping :=
  match irqToGsi[irq.toNat]? with
  | some mapping => return mapping
  | none => throw .outOfBounds

/-! The same fields of an entry of the list. -/

def sourceOf (entry : Entry) : UInt8 := entry.body.getD 1 0

def mappingOf (entry : Entry) : IRQMapping :=
  let byte (i : Nat) := (entry.body.getD i 0).toBitVec
  ⟨(byte 5 ++ byte 4) ++ (byte 3 ++ byte 2),byte 7 ++ byte 6⟩

def IsOverride (entry : Entry) : Prop := entry.type = MADTEntryType.irqSrcOverride.value

instance : DecidablePred IsOverride := fun entry => inferInstanceAs (Decidable (entry.type = _))

def route (irqToGsi : List IRQMapping) (entry : Entry) : List IRQMapping :=
  if sourceOf entry < 16 then irqToGsi.set (sourceOf entry).toNat (mappingOf entry) else irqToGsi

def sizeofMADTIRQSrcOverride : Nat := 2 + 1 + 1 + 4 + 2

section Fields
variable {madt : MADT} {place : Nat × Entry} (stands : (madt.image.drop place.1).take place.2.size = place.2.bytes)
include stands

theorem read_body (i : Nat) (inside : i < place.2.body.length) :
    madt.read (place.1 + (i + 2)) = .ok (place.2.body.getD i 0) := by
  have size : i + 2 < place.2.size := by
    unfold Entry.size
    omega
  have here : madt.image[place.1 + (i + 2)]? = some place.2.body[i] := by
    rw [← List.getElem?_drop,← List.getElem?_take_of_lt size,stands,Entry.bytes,List.getElem?_cons_succ,
      List.getElem?_cons_succ,List.getElem?_eq_getElem inside]
  rw [madt.read_inside (List.getElem?_eq_some_iff.mp here).1,List.getD_eq_getElem?_getD,here,List.getD_eq_getElem _ _ inside]
  rfl

variable (long : sizeofMADTIRQSrcOverride ≤ place.2.size)
include long

private theorem read_field (i : Nat) (inside : i + 2 < sizeofMADTIRQSrcOverride) :
    madt.read (place.1 + (i + 2)) = .ok (place.2.body.getD i 0) := by
  apply read_body stands
  unfold Entry.size at long
  omega

theorem storeOverride_entry (irqToGsi : List IRQMapping) :
    storeOverride madt irqToGsi place.1 = .ok (route irqToGsi place.2) := by
  have field := read_field stands long
  have source : irqSource madt place.1 = .ok (sourceOf place.2) := field 1 (by decide)
  have gsi : globalSysInterrupt madt place.1 = .ok (mappingOf place.2).gsi := by
    simp only [globalSysInterrupt,field 2 (by decide),field 3 (by decide),field 4 (by decide),field 5 (by decide),ok_bind,
      pure_eq_ok]
    rfl
  have flags : overrideFlags madt place.1 = .ok (mappingOf place.2).isoFlags := by
    simp only [overrideFlags,field 6 (by decide),field 7 (by decide),ok_bind,pure_eq_ok]
    rfl
  rw [storeOverride,source,gsi,flags,route]
  simp only [ok_bind,pure_eq_ok]
  split <;> rfl

end Fields

theorem overrideLoop_eq {rounds : Nat} {madt : MADT} {places : List (Nat × Entry)}
    (found : ∀ index, findMADTEntry rounds madt .irqSrcOverride index = .ok (places[index]?.map Prod.fst))
    (stand : ∀ place ∈ places, (madt.image.drop place.1).take place.2.size = place.2.bytes)
    (long : ∀ place ∈ places, sizeofMADTIRQSrcOverride ≤ place.2.size) (remaining i : Nat) (irqToGsi : List IRQMapping)
    (whole : i + remaining = places.length) : overrideLoop rounds madt remaining i irqToGsi =
      .ok (((places.drop i).map Prod.snd).foldl route irqToGsi) := by
  induction remaining generalizing i irqToGsi with
  | zero =>
    rw [List.drop_of_length_le (by omega)]
    rfl
  | succ remaining ih =>
    have inside : i < places.length := by omega
    have member := List.getElem_mem inside
    rw [overrideLoop,found,List.getElem?_eq_getElem inside,List.drop_eq_getElem_cons inside]
    simp only [Option.map_some,ok_bind,storeOverride_entry (stand _ member) (long _ member)]
    rw [ih (i + 1) _ (by omega)]
    rfl

/-- The last override of an interrupt wins, and without one its slot stays as it was. -/
theorem foldl_route (overrides : List Entry) {irqToGsi : List IRQMapping} {irq : Nat} (legacy : irq < 16)
    (size : irqToGsi.length = 16) : (overrides.foldl route irqToGsi)[irq]? =
      ((overrides.filter fun entry => (sourceOf entry).toNat = irq).getLast?.map mappingOf).or irqToGsi[irq]? := by
  -- the invariant that the table keeps its 16 slots is carried along
  suffices kept : (overrides.foldl route irqToGsi).length = 16 ∧ (overrides.foldl route irqToGsi)[irq]? =
      ((overrides.filter fun entry => (sourceOf entry).toNat = irq).getLast?.map mappingOf).or irqToGsi[irq]? from kept.2
  induction overrides using List.reverseRecOn with
  | nil => exact ⟨size,rfl⟩
  | append_singleton overrides entry ih =>
    obtain ⟨length,slot⟩ := ih
    rw [List.foldl_append,List.foldl_cons,List.foldl_nil,List.filter_append,route]
    have limit : sourceOf entry < 16 ↔ (sourceOf entry).toNat < 16 := UInt8.lt_iff_toNat_lt
    by_cases same : (sourceOf entry).toNat = irq
    · rw [if_pos (limit.mpr (same ▸ legacy)),List.length_set]
      refine ⟨length,?_⟩
      rw [same,List.getElem?_set_self (by omega)]
      simp [same]
    · have others : [entry].filter (fun entry => (sourceOf entry).toNat = irq) = [] := by simp [same]
      rw [others,List.append_nil,← slot]
      split
      · exact ⟨by rw [List.length_set,length],List.getElem?_set_ne same⟩
      · exact ⟨length,rfl⟩

/-- For every table made of entries, `GetIRQ` answers the mapping of the last override of the
interrupt, and the interrupt itself where there is none. -/
theorem getIRQ_eq_last_override (madt : MADT) (entries : List Entry) (holds : madt.Holds entries)
    (long : ∀ entry ∈ entries, IsOverride entry → sizeofMADTIRQSrcOverride ≤ entry.size) (rounds : Nat)
    (enough : entries.length < rounds) : ∃ irqToGsi, routeIRQs rounds madt = .ok irqToGsi ∧
      ∀ irq : BitVec 32, irq.toNat < 16 → getIRQ irqToGsi irq =
        .ok (match (entries.filter fun entry => IsOverride entry ∧ (sourceOf entry).toNat = irq.toNat).getLast? with
          | some entry => mappingOf entry
          | none => ⟨irq,0⟩) := by
  have overrides := map_snd_placedOf .irqSrcOverride sizeofMADT entries
  refine ⟨(entries.filter IsOverride).foldl route initialMappings,?_,?_⟩
  · have sized : ∀ place ∈ placedOf .irqSrcOverride sizeofMADT entries, sizeofMADTIRQSrcOverride ≤ place.2.size := by
      intro place member
      have inside := List.mem_map_of_mem (f := Prod.snd) member
      rw [overrides] at inside
      obtain ⟨listed,override⟩ := List.mem_filter.mp inside
      exact long place.2 listed (of_decide_eq_true override)
    rw [routeIRQs,findMADTEntryCount_holds _ holds enough,ok_bind,overrideLoop_eq (findMADTEntry_holds _ holds enough)
      (fun place => bytes_placedOf _ holds) sized _ _ _ (Nat.zero_add _),List.drop_zero,overrides]
    rfl
  · intro irq legacy
    have initial : initialMappings[irq.toNat]? = some ⟨irq,0⟩ := by
      rw [initialMappings,List.getElem?_map,List.getElem?_range legacy]
      simp
    have both : (entries.filter IsOverride).filter (fun entry => (sourceOf entry).toNat = irq.toNat) =
        entries.filter fun entry => IsOverride entry ∧ (sourceOf entry).toNat = irq.toNat := by
      rw [List.filter_filter]
      congr 1
      funext entry
      simp [Bool.and_comm]
    rw [getIRQ,foldl_route _ legacy (by decide),initial,both]
    cases (entries.filter fun entry => IsOverride entry ∧ (sourceOf entry).toNat = irq.toNat).getLast? <;> rfl

/-- The timer's interrupt is moved to the global interrupt 2, as most tables have it. -/
theorem getIRQ_of_override : overrideTable.Holds overrideEntries ∧ ∃ irqToGsi, routeIRQs 4 overrideTable = .ok irqToGsi ∧
    getIRQ irqToGsi 0 = .ok ⟨2,0⟩ ∧ getIRQ irqToGsi 1 = .ok ⟨1,0⟩ := by
  have holds : overrideTable.Holds overrideEntries := by decide
  obtain ⟨irqToGsi,routed,answers⟩ := getIRQ_eq_last_override overrideTable overrideEntries holds (by decide) 4 (by decide)
  exact ⟨holds,irqToGsi,routed,(answers 0 (by decide)).trans (by decide),(answers 1 (by decide)).trans (by decide)⟩

end BorealOS.Interrupts.IOAPICManager
