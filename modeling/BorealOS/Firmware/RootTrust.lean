import BorealOS.Firmware.RootTables

/-! What `ACPI::Initialize` has checked by the time it searches the root table for the
FADT, and which tables of strings it looks into. -/
namespace BorealOS.Firmware.ACPI.Platform
open ByteObject Logging Execution Utility Formatter

variable (platform : Platform)

def Checksummed (address : Word) (length : Nat) : Prop :=
  ((List.range length).map fun i => (platform.byteAt address i).toNat).sum % 256 = 0

theorem sumBytes_toNat (address : Word) (length : Nat) :
    (platform.sumBytes address length).toNat = ((List.range length).map fun i => (platform.byteAt address i).toNat).sum % 256 := by
  unfold sumBytes
  induction length with
  | zero => rfl
  | succ length ih =>
    rw [List.range_succ,List.foldl_append,List.foldl_cons,List.foldl_nil,UInt8.toNat_add,ih]
    simp

theorem sumBytes_eq_zero (address : Word) (length : Nat) :
    platform.sumBytes address length = 0 ↔ platform.Checksummed address length := by
  rw [← UInt8.toNat_inj,sumBytes_toNat]
  rfl

theorem validateRSDP_iff (rsdp : Word) :
    platform.validateRSDP rsdp = true ↔ rsdp ≠ 0#64 ∧ platform.Checksummed rsdp 20 := by
  rw [← sumBytes_eq_zero]
  by_cases valid : platform.sumBytes rsdp 20 = 0 <;> simp [validateRSDP,sizeofRSDP,valid]

theorem validateXSDP_iff (xsdp : Word) :
    platform.validateXSDP xsdp = true ↔ xsdp ≠ 0#64 ∧ platform.Checksummed xsdp 20 ∧ 36 ≤ (platform.xsdpLength xsdp).toNat ∧
      platform.Checksummed xsdp (platform.xsdpLength xsdp).toNat := by
  have root := platform.validateRSDP_iff xsdp
  rw [← sumBytes_eq_zero platform xsdp (platform.xsdpLength xsdp).toNat]
  by_cases null : xsdp = 0#64
  · simp [validateXSDP,null]
  · simp [validateXSDP,null,root,sizeofXSDP,sizeofRSDP]

theorem validateSDT_iff (sdt : Word) :
    platform.validateSDT sdt = true ↔ sdt ≠ 0#64 ∧ 36 ≤ (platform.sdtLength sdt).toNat ∧
      platform.Checksummed sdt (platform.sdtLength sdt).toNat := by
  rw [← sumBytes_eq_zero]
  simp [validateSDT,sizeofSDTHeader]

def rootAddress (rsdp : Word) : Word :=
  (if 0 < platform.revision rsdp then platform.xsdtAddress rsdp else (platform.rsdtAddress rsdp).setWidth 64) +
    platform.higherHalf

def Accepted (rsdp : Word) : Prop :=
  (0 < platform.revision rsdp → platform.validateXSDP rsdp = true) ∧ platform.validateSDT (platform.rootAddress rsdp) = true

theorem selectRoot_accepted {rsdp : Word} (accepted : platform.Accepted rsdp) (events : List Event) :
    ∃ tables, platform.selectRoot rsdp events = .ok (tables,platform.rootAddress rsdp) events := by
  obtain ⟨root,table⟩ := accepted
  by_cases extended : 0 < platform.revision rsdp
  · simp only [rootAddress,extended,if_true] at table
    simp [selectRoot,rootAddress,extended,root extended,table]
  · simp only [rootAddress,extended,if_false] at table
    simp [selectRoot,rootAddress,extended,table]

theorem selectRoot_rejected {rsdp : Word} (rejected : ¬ platform.Accepted rsdp) (events : List Event) :
    ∃ stop, platform.selectRoot rsdp events = .error stop events := by
  by_cases extended : 0 < platform.revision rsdp
  · by_cases root : platform.validateXSDP rsdp = true
    · have table : platform.validateSDT (platform.rootAddress rsdp) = false :=
        Bool.eq_false_iff.mpr fun valid => rejected ⟨fun _ => root,valid⟩
      simp only [rootAddress,extended,if_true] at table
      exact ⟨.panic .unverifiedSDT,by simp [selectRoot,extended,root,table]; rfl⟩
    · exact ⟨.panic .invalidXSDP,by simp [selectRoot,extended,root]; rfl⟩
  · have table : platform.validateSDT (platform.rootAddress rsdp) = false :=
      Bool.eq_false_iff.mpr fun valid => rejected ⟨fun above => absurd above extended,valid⟩
    simp only [rootAddress,extended,if_false] at table
    exact ⟨.panic .invalidRSDT,by simp [selectRoot,extended,table]; rfl⟩

/-! The search for the FADT, on the list of pointers. -/

def signatureOf (table : Word) : List UInt8 := (List.range 4).map (platform.byteAt table)

def withSignature (signature : List UInt8) (pointers : List Word) : List Word :=
  pointers.filter fun pointer => platform.signatureOf (pointer + platform.higherHalf) = signature

def mapped (pointer : Option Word) : Word := pointer.elim 0#64 (· + platform.higherHalf)

def pointersOf (rsdp root : Word) : List Word :=
  (List.range (platform.entryCount rsdp root).toNat).map (platform.rootEntry rsdp root)

theorem signatureView_text (table : Word) : (platform.signatureView table).Readable ∧
    (platform.signatureView table).text = platform.signatureOf table := by
  constructor
  · simp [StringView.Readable,signatureView,Pointer.bytes]
  · simp [StringView.text,signatureView,Pointer.bytes,signatureOf]

theorem findFADTFrom_eq (rsdp sdt : Word) (remaining entry : Nat) : platform.findFADTFrom rsdp sdt remaining entry =
    .ok (platform.mapped (platform.withSignature (ascii ['F','A','C','P'])
      ((List.range' entry remaining).map (platform.rootEntry rsdp sdt)))[0]?) := by
  induction remaining generalizing entry with
  | zero => rfl
  | succ remaining ih =>
    obtain ⟨inside,text⟩ := platform.signatureView_text (platform.rootEntry rsdp sdt entry + platform.higherHalf)
    rw [findFADTFrom,inside.equal_literal (by decide),text,List.range'_succ,List.map_cons,withSignature,List.filter_cons]
    by_cases same : platform.signatureOf (platform.rootEntry rsdp sdt entry + platform.higherHalf) = ascii ['F','A','C','P']
    · simp only [same,decide_true,ok_bind,if_true]
      rfl
    · simp only [same,decide_false,ok_bind,Bool.false_eq_true,if_false]
      exact ih (entry + 1)

theorem findFADT_eq (rsdp sdt : Word) (events : List Event) : platform.findFADT rsdp sdt events =
    .ok (platform.mapped (platform.withSignature (ascii ['F','A','C','P']) (platform.pointersOf rsdp sdt))[0]?)
      (events ++ [.search sdt]) := by
  have found := platform.findFADTFrom_eq rsdp sdt (platform.entryCount rsdp sdt).toNat 0
  rw [← List.range_eq_range'] at found
  simp only [findFADT,found]
  rfl

/-- After `before`, only looks into the power profiles that are in range. -/
def OnlyProfiles (before events : List Event) : Prop :=
  ∃ later, events = before ++ later ∧ ∀ event ∈ later, ∃ index < 8, event = .lookup .powerProfileStrings index

theorem logLookup_profile {before : List Event} {profile : UInt8} (known : ¬ 7 < profile) :
    Maintains (OnlyProfiles before) (platform.logLookup .powerProfileStrings profile.toNat) := by
  unfold logLookup
  refine Maintains.ite ?_ (maintains_pure ())
  rintro events ⟨later,rfl,profiles⟩
  refine ⟨later ++ [.lookup .powerProfileStrings profile.toNat],List.append_assoc _ _ _,?_⟩
  intro event member
  obtain member | same := List.mem_append.mp member
  · exact profiles event member
  · refine ⟨profile.toNat,?_,List.mem_singleton.mp same⟩
    rw [UInt8.lt_iff_toNat_lt] at known
    exact Nat.lt_succ_of_le (Nat.le_of_not_lt known)

theorem waitEnabled_silent (before : List Event) (rounds reads : Nat) :
    Maintains (OnlyProfiles before) (platform.waitEnabled rounds reads) := by
  induction rounds generalizing reads with
  | zero => exact fun _ holds => holds
  | succ rounds ih => exact Maintains.ite (maintains_pure ()) (ih (reads + 1))

theorem useFADT_events (before : List Event) (rounds : Nat) (tables : Tables) (fadt : Word) :
    Maintains (OnlyProfiles before) (platform.useFADT rounds tables fadt) := by
  have thrown : ∀ stop, Maintains (OnlyProfiles before) (throw stop : InitM Tables) := fun _ _ holds => holds
  have waits : Maintains (OnlyProfiles before) (platform.writeByteCommand rounds) :=
    Maintains.ite (maintains_pure ()) (platform.waitEnabled_silent before rounds 1)
  have logs : Maintains (OnlyProfiles before) (platform.logProfile fadt) := by
    unfold logProfile
    by_cases unknown : 7 < platform.byteAt fadt 45
    · simp only [unknown,if_true]
      exact maintains_pure ()
    · simp only [unknown,if_false]
      exact platform.logLookup_profile unknown
  exact Maintains.ite (thrown _) (Maintains.ite (thrown _) (waits.bind fun _ => logs.bind fun _ => maintains_pure _))

def events (rounds : Nat) : List Event := finalState (platform.initializeTables rounds [])

def revisionLookup (rsdp : Word) : List Event :=
  if logMessage platform.minimumLogLevel .debug then [.lookup .sdpRevisionStrings (platform.revision rsdp).toNat] else []

private theorem logLookup_revision (rsdp : Word) :
    platform.logLookup .sdpRevisionStrings (platform.revision rsdp).toNat [] = .ok () (platform.revisionLookup rsdp) := by
  unfold logLookup revisionLookup
  split <;> rfl

variable {platform}

theorem events_none (absent : platform.rsdpResponse = none) (rounds : Nat) : platform.events rounds = [] := by
  simp [events,initializeTables,absent]

theorem events_rejected {rsdp : Word} (response : platform.rsdpResponse = some rsdp) (rejected : ¬ platform.Accepted rsdp)
    (rounds : Nat) : platform.events rounds = platform.revisionLookup rsdp := by
  obtain ⟨stop,stopped⟩ := platform.selectRoot_rejected rejected (platform.revisionLookup rsdp)
  simp only [events,initializeTables,response]
  rw [bind_of_ok (platform.logLookup_revision rsdp),bind_of_error stopped]
  rfl

theorem events_accepted {rsdp : Word} (response : platform.rsdpResponse = some rsdp) (accepted : platform.Accepted rsdp)
    (rounds : Nat) :
    OnlyProfiles (platform.revisionLookup rsdp ++ [.search (platform.rootAddress rsdp)]) (platform.events rounds) := by
  obtain ⟨tables,selected⟩ := platform.selectRoot_accepted accepted (platform.revisionLookup rsdp)
  have searched : platform.findFADT rsdp (platform.rootAddress rsdp) (platform.revisionLookup rsdp) =
    .ok _ (platform.revisionLookup rsdp ++ [.search (platform.rootAddress rsdp)]) := platform.findFADT_eq _ _ _
  simp only [events,initializeTables,response]
  rw [bind_of_ok (platform.logLookup_revision rsdp),bind_of_ok selected,bind_of_ok searched]
  apply platform.useFADT_events
  exact ⟨[],(List.append_nil _).symm,by simp⟩

theorem search_mem_events {rsdp : Word} (response : platform.rsdpResponse = some rsdp) (rounds : Nat) (sdt : Word) :
    .search sdt ∈ platform.events rounds ↔ platform.Accepted rsdp ∧ sdt = platform.rootAddress rsdp := by
  have quiet : .search sdt ∉ platform.revisionLookup rsdp := by
    unfold revisionLookup
    split <;> simp
  by_cases accepted : platform.Accepted rsdp
  · obtain ⟨later,shape,profiles⟩ := events_accepted response accepted rounds
    have absent : .search sdt ∉ later := by
      intro member
      obtain ⟨index,_,impossible⟩ := profiles _ member
      simp at impossible
    simp [shape,quiet,absent,accepted]
  · simp [events_rejected response accepted rounds,quiet,accepted]

theorem lookup_mem_events {rsdp : Word} (response : platform.rsdpResponse = some rsdp) (rounds : Nat) {table : StringTable}
    {index : Nat} (member : .lookup table index ∈ platform.events rounds) :
    .lookup table index ∈ platform.revisionLookup rsdp ∨ (table = .powerProfileStrings ∧ index < 8) := by
  by_cases accepted : platform.Accepted rsdp
  · obtain ⟨later,shape,profiles⟩ := events_accepted response accepted rounds
    rw [shape,List.append_assoc,List.mem_append,List.singleton_append,List.mem_cons] at member
    obtain first | impossible | last := member
    · exact Or.inl first
    · simp at impossible
    · obtain ⟨number,bound,same⟩ := profiles _ last
      rw [Event.lookup.injEq] at same
      exact Or.inr ⟨same.1,same.2 ▸ bound⟩
  · exact Or.inl (events_rejected response accepted rounds ▸ member)

theorem revisionLookup_subset {rsdp : Word} (response : platform.rsdpResponse = some rsdp) (rounds : Nat) :
    platform.revisionLookup rsdp ⊆ platform.events rounds := by
  by_cases accepted : platform.Accepted rsdp
  · obtain ⟨later,shape,_⟩ := events_accepted response accepted rounds
    rw [shape,List.append_assoc]
    exact List.subset_append_left _ _
  · rw [events_rejected response accepted rounds]
    exact List.Subset.refl _

/-- The root structures are checked before the root table is searched, and every look into
a table of strings is in range. -/
structure TrustsChecked (platform : Platform) (rounds : Nat) : Prop where
  root : ∀ rsdp sdt, platform.rsdpResponse = some rsdp → .search sdt ∈ platform.events rounds →
    platform.Checksummed rsdp 20 ∧
    (0 < platform.revision rsdp → 36 ≤ (platform.xsdpLength rsdp).toNat ∧
      platform.Checksummed rsdp (platform.xsdpLength rsdp).toNat) ∧
    sdt = platform.rootAddress rsdp ∧ 36 ≤ (platform.sdtLength sdt).toNat ∧
      platform.Checksummed sdt (platform.sdtLength sdt).toNat
  lookups : ∀ table index, .lookup table index ∈ platform.events rounds → index < table.strings.length

/-- Neither is a revision above 2 logged, nor does an RSDP of revision 0 with a wrong
checksum lead to an RSDT that passes its checks. -/
def Harmless (platform : Platform) : Prop :=
  ∀ rsdp, platform.rsdpResponse = some rsdp →
    (platform.revision rsdp ≤ 2 ∨ logMessage platform.minimumLogLevel .debug = false) ∧
    (platform.revision rsdp = 0 → platform.Checksummed rsdp 20 ∨ platform.validateSDT (platform.rootAddress rsdp) = false)

theorem revision_eq_zero {rsdp : Word} : ¬ 0 < platform.revision rsdp ↔ platform.revision rsdp = 0 := by
  rw [UInt8.not_lt,UInt8.le_zero_iff]

theorem Harmless.trustsChecked (harmless : Harmless platform) (rounds : Nat) : TrustsChecked platform rounds where
  root := by
    intro rsdp sdt response searched
    obtain ⟨⟨root,table⟩,same⟩ := (search_mem_events response rounds sdt).mp searched
    obtain ⟨_,long,sum⟩ := (platform.validateSDT_iff _).mp table
    have checks : platform.Checksummed rsdp 20 ∧ (0 < platform.revision rsdp → 36 ≤ (platform.xsdpLength rsdp).toNat ∧
        platform.Checksummed rsdp (platform.xsdpLength rsdp).toNat) := by
      by_cases extended : 0 < platform.revision rsdp
      · obtain ⟨_,first,length,whole⟩ := (platform.validateXSDP_iff rsdp).mp (root extended)
        exact ⟨first,fun _ => ⟨length,whole⟩⟩
      · have first := ((harmless rsdp response).2 (revision_eq_zero.mp extended)).resolve_right (by simp [table])
        exact ⟨first,fun above => absurd above extended⟩
    exact ⟨checks.1,checks.2,same,same ▸ long,same ▸ sum⟩
  lookups := by
    intro table index member
    cases response : platform.rsdpResponse with
    | none => simp [events_none response] at member
    | some rsdp =>
      obtain revision | ⟨profile,bound⟩ := lookup_mem_events response rounds member
      · unfold revisionLookup at revision
        split at revision
        · rename_i logged
          have low := (harmless rsdp response).1.resolve_right (by simp [logged])
          obtain ⟨rfl,rfl⟩ := Event.lookup.injEq .. ▸ List.mem_singleton.mp revision
          exact Nat.lt_succ_of_le (UInt8.le_iff_toNat_le.mp low)
        · simp at revision
      · exact profile ▸ bound

theorem TrustsChecked.harmless {rounds : Nat} (trusts : TrustsChecked platform rounds) : Harmless platform := by
  intro rsdp response
  constructor
  · cases logged : logMessage platform.minimumLogLevel .debug with
    | false => exact Or.inr rfl
    | true =>
      left
      have member : .lookup .sdpRevisionStrings (platform.revision rsdp).toNat ∈ platform.events rounds := by
        apply revisionLookup_subset response rounds
        simp [revisionLookup,logged]
      exact UInt8.le_iff_toNat_le.mpr (Nat.le_of_lt_succ (trusts.lookups _ _ member))
  · intro first
    cases table : platform.validateSDT (platform.rootAddress rsdp) with
    | false => exact Or.inr rfl
    | true =>
      left
      have accepted : platform.Accepted rsdp := ⟨fun above => absurd above (revision_eq_zero.mpr first),table⟩
      exact (trusts.root rsdp _ response ((search_mem_events response rounds _).mpr ⟨accepted,rfl⟩)).1

theorem trustsChecked_iff_harmless (platform : Platform) (rounds : Nat) :
    TrustsChecked platform rounds ↔ Harmless platform :=
  ⟨TrustsChecked.harmless,fun harmless => harmless.trustsChecked rounds⟩

instance decidableChecksummed (platform : Platform) (address : Word) (length : Nat) :
    Decidable (platform.Checksummed address length) := inferInstanceAs (Decidable (_ = _))

/-- An RSDP of revision 0 at `0x1000` whose bytes sum to 33, and the RSDT it points to, a
header whose bytes sum to 256. -/
def wrongChecksum : Platform where
  memory := fun address =>
    if address = 0x1000#64 then 1
    else if address = 0x1011#64 then 0x20
    else if address = 0x2004#64 then 36
    else if address = 0x2009#64 then 220
    else 0
  higherHalf := 0#64
  rsdpResponse := some 0x1000#64
  minimumLogLevel := .info
  controlReads := fun _ => 1#16

theorem wrongChecksum_is_trusted : ¬ ∀ (platform : Platform) (rounds : Nat), TrustsChecked platform rounds := by
  intro always
  have harmless := (always wrongChecksum 0).harmless 0x1000#64 rfl
  obtain sum | table := harmless.2 (by decide)
  · exact absurd sum (by decide +kernel)
  · exact absurd table (by decide +kernel)

end BorealOS.Firmware.ACPI.Platform
