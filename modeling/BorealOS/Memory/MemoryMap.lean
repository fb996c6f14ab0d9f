import BorealOS.Memory.BitmapInitialization

/-! The exact meaning of the bitmaps that `Initialize` builds. Each loop of the
source gets one lemma about the bits it leaves; the main result combines them
into one description of the free frames for every memory map. -/
namespace BorealOS.Memory

open PackedBitmap Utility.Math

namespace MemmapEntry

def stop (entry : MemmapEntry) : Nat := entry.base.toNat + entry.length.toNat

def Usable (entry : MemmapEntry) : Prop := entry.type = memmapUsable

instance (entry : MemmapEntry) : Decidable entry.Usable := inferInstanceAs (Decidable (_ = _))

def Contains (entry : MemmapEntry) (page : Nat) : Prop :=
  entry.base.toNat ≤ 4096 * page ∧ 4096 * page + 4096 ≤ entry.stop

def interior (entry : MemmapEntry) : Nat := entry.stop / 4096 * 4096 - (entry.base.toNat + 4095) / 4096 * 4096

def Disjoint (first second : MemmapEntry) : Prop :=
  ∀ address, ¬ (first.base.toNat ≤ address ∧ address < first.stop ∧
    second.base.toNat ≤ address ∧ address < second.stop)

/-- What the boot loader promises about the usable entries of its map. -/
structure Guaranteed (memmap : List MemmapEntry) : Prop where
  low : ∀ entry ∈ memmap, entry.Usable → 4096 ≤ entry.base.toNat
  high : ∀ entry ∈ memmap, entry.Usable → entry.stop + 4096 ≤ 2^64
  disjoint : (memmap.filter fun entry => entry.Usable).Pairwise Disjoint

def kept (entry : MemmapEntry) : Bool :=
  decide entry.Usable && decide (¬ entry.base + entry.length ≤ 1 * Constants.miB)

def region (entry : MemmapEntry) : Region := ⟨entry.base,entry.length⟩

end MemmapEntry

namespace PhysicalMemoryManager

open MemmapEntry

private theorem miB_toNat : (1 * Constants.miB : Word).toNat = 2^20 := by decide

private theorem stop_toNat {entry : MemmapEntry} (high : entry.stop + 4096 ≤ 2^64) :
    (entry.base + entry.length).toNat = entry.stop := by
  rw [BitVec.toNat_add,Nat.mod_eq_of_lt]
  · rfl
  · exact Nat.lt_of_lt_of_le (Nat.lt_add_of_pos_right (by omega)) high

private theorem kept_eq_true (entry : MemmapEntry) : entry.kept = true ↔
    entry.type = memmapUsable ∧ ¬ entry.base + entry.length ≤ 1 * Constants.miB := by
  simp only [kept,Bool.and_eq_true,decide_eq_true_eq]
  exact Iff.rfl

private theorem kept_iff {entry : MemmapEntry} (high : entry.stop + 4096 ≤ 2^64) :
    entry.kept = true ↔ entry.Usable ∧ 2^20 < entry.stop := by
  rw [kept_eq_true,BitVec.le_def,miB_toNat,stop_toNat high,not_le]
  exact Iff.rfl

theorem collectRegions_regions (memmap : List MemmapEntry) (collected : List Region × Word) :
    (memmap.foldl collectRegion collected).1 = collected.1 ++ (memmap.filter kept).map region := by
  induction memmap generalizing collected with
  | nil => simp
  | cons entry memmap ih =>
    rw [List.foldl_cons,ih,collectRegion]
    by_cases usable : entry.type = memmapUsable
    · by_cases small : entry.base + entry.length ≤ 1 * Constants.miB
      · have dropped : ¬ entry.kept = true := fun keeps => ((kept_eq_true entry).mp keeps).2 small
        rw [if_neg (not_not.mpr usable),if_pos small,List.filter_cons_of_neg dropped]
      · rw [if_neg (not_not.mpr usable),if_neg small,
          List.filter_cons_of_pos ((kept_eq_true entry).mpr ⟨usable,small⟩)]
        simp [region]
    · have dropped : ¬ entry.kept = true := fun keeps => usable ((kept_eq_true entry).mp keeps).1
      rw [if_pos usable,List.filter_cons_of_neg dropped]

theorem collectRegions_end (memmap : List MemmapEntry) (collected : List Region × Word) :
    collected.2 ≤ (memmap.foldl collectRegion collected).2 ∧
      ∀ entry ∈ memmap, entry.kept = true →
        entry.base + entry.length ≤ (memmap.foldl collectRegion collected).2 := by
  induction memmap generalizing collected with
  | nil => simp
  | cons entry memmap ih =>
    obtain ⟨grows,above⟩ := ih (collectRegion collected entry)
    have step : collected.2 ≤ (collectRegion collected entry).2 ∧
        (entry.kept = true → entry.base + entry.length ≤ (collectRegion collected entry).2) := by
      rw [collectRegion]
      split
      · rename_i unusable
        exact ⟨BitVec.le_refl _,fun keeps => absurd ((kept_eq_true entry).mp keeps).1 unusable⟩
      · split
        · rename_i small
          exact ⟨BitVec.le_refl _,fun keeps => absurd small ((kept_eq_true entry).mp keeps).2⟩
        · dsimp only
          split
          · rename_i bigger
            exact ⟨BitVec.le_of_lt bigger,fun _ => BitVec.le_refl _⟩
          · rename_i smaller
            exact ⟨BitVec.le_refl _,fun _ => BitVec.not_lt.mp smaller⟩
    rw [List.foldl_cons]
    refine ⟨BitVec.le_trans step.1 grows,?_⟩
    intro other member keeps
    rcases List.mem_cons.mp member with same | later
    · subst same
      exact BitVec.le_trans (step.2 keeps) grows
    · exact above other later keeps

theorem placeBitmaps_some {required start : Word} {regions result : List Region}
    (placed : placeBitmaps required regions = some (start,result)) :
    ∃ before chosen after, regions = before ++ chosen :: after ∧
      result = before ++ ⟨chosen.addr + required,chosen.length - required⟩ :: after ∧
      start = alignUp chosen.addr Architecture.pageSize ∧ required ≤ interiorSize chosen := by
  induction regions generalizing result with
  | nil => simp [placeBitmaps] at placed
  | cons region regions ih =>
    rw [placeBitmaps] at placed
    split at placed
    · rename_i room
      cases placed
      exact ⟨[],region,regions,rfl,rfl,rfl,room⟩
    · obtain ⟨⟨first,rest⟩,later,same⟩ := Option.map_eq_some_iff.mp placed
      cases same
      obtain ⟨before,chosen,after,split,changed,address,room⟩ := ih later
      exact ⟨region::before,chosen,after,by simp [split],by simp [changed],address,room⟩

theorem placeBitmaps_none {required : Word} {regions : List Region} :
    placeBitmaps required regions = none ↔ ∀ region ∈ regions, ¬ required ≤ interiorSize region := by
  induction regions with
  | nil => simp [placeBitmaps]
  | cons region regions ih =>
    rw [placeBitmaps]
    split
    · rename_i room
      simp [room]
    · rename_i room
      simp only [Option.map_eq_none_iff,ih,List.forall_mem_cons,room,not_false_eq_true,true_and]

/-- The pages whose reserved bit the loop over one region clears. -/
def Region.Clears (region : Region) (page : Nat) : Prop :=
  region.addr.toNat ≤ 4096 * page ∧ 4096 * page + 4096 ≤ region.addr.toNat + region.length.toNat

theorem clearPages_bit (rounds : Nat) (addr stop : Word) (bytes : Nat → BitVec 8) (page : Nat)
    (aligned : addr.toNat % 4096 = 0) (stopAligned : stop.toNat % 4096 = 0)
    (fits : stop.toNat + 4096 ≤ 2^64) (enough : (stop.toNat - addr.toNat) / 4096 ≤ rounds) :
    bit (clearPages rounds addr stop bytes) page = true ↔
      bit bytes page = true ∧ ¬ (addr.toNat / 4096 ≤ page ∧ page < stop.toNat / 4096) := by
  induction rounds generalizing addr bytes with
  | zero =>
    have empty : ¬ (addr.toNat / 4096 ≤ page ∧ page < stop.toNat / 4096) := by omega
    simp [clearPages,empty]
  | succ rounds ih =>
    rw [clearPages]
    split
    · rename_i more
      have below : addr.toNat < stop.toNat := BitVec.lt_def.mp more
      have next : (addr + Architecture.pageSize).toNat = addr.toNat + 4096 := by
        rw [BitVec.toNat_add,Architecture.pageSize_toNat,
          Nat.mod_eq_of_lt (Nat.lt_of_lt_of_le (by omega) fits)]
      have here : (addr / Architecture.pageSize).toNat = addr.toNat / 4096 := by
        rw [BitVec.toNat_udiv,Architecture.pageSize_toNat]
      rw [ih _ _ (by omega) (by omega),next,here,bit_clearBit,Bool.and_eq_true,decide_eq_true_eq]
      constructor
      · rintro ⟨⟨different,set⟩,outside⟩
        exact ⟨set,by omega⟩
      · rintro ⟨set,outside⟩
        exact ⟨⟨by omega,set⟩,by omega⟩
    · rename_i done
      have past : stop.toNat ≤ addr.toNat := Nat.le_of_not_lt fun less => done (BitVec.lt_def.mpr less)
      have empty : ¬ (addr.toNat / 4096 ≤ page ∧ page < stop.toNat / 4096) := by omega
      simp [empty]

theorem clearRegion_bit (region : Region) (bytes : Nat → BitVec 8) (page : Nat)
    (fits : region.addr.toNat + region.length.toNat + 4096 ≤ 2^64) :
    bit (clearRegion bytes region) page = true ↔ bit bytes page = true ∧ ¬ Region.Clears region page := by
  have start := alignUp_page region.addr (by omega)
  have sum : (region.addr + region.length).toNat = region.addr.toNat + region.length.toNat := by
    rw [BitVec.toNat_add,Nat.mod_eq_of_lt (by omega)]
  have stop := alignDown_page (region.addr + region.length)
  rw [sum] at stop
  rw [clearRegion,clearPages_bit _ _ _ _ _ (by omega) (by omega) (by omega) (by omega),start,stop]
  have pages : ((region.addr.toNat + 4095) / 4096 * 4096 / 4096 ≤ page ∧
      page < (region.addr.toNat + region.length.toNat) / 4096 * 4096 / 4096) ↔ Region.Clears region page := by
    rw [Region.Clears]
    omega
  rw [pages]

theorem clearRegions_bit (regions : List Region) (bytes : Nat → BitVec 8) (page : Nat)
    (fits : ∀ region ∈ regions, region.addr.toNat + region.length.toNat + 4096 ≤ 2^64) :
    bit (regions.foldl clearRegion bytes) page = true ↔
      bit bytes page = true ∧ ∀ region ∈ regions, ¬ Region.Clears region page := by
  induction regions generalizing bytes with
  | nil => simp
  | cons region regions ih =>
    rw [List.foldl_cons,ih _ (fun r member => fits r (List.mem_cons_of_mem _ member)),
      clearRegion_bit region bytes page (fits region List.mem_cons_self),List.forall_mem_cons,and_assoc]

theorem reserveFirstMiB_bit (bytes : Nat → BitVec 8) (page : Nat) :
    bit (reserveFirstMiB bytes) page = true ↔ page < 256 ∨ bit bytes page = true := by
  have pages : (1 * Constants.miB / Architecture.pageSize : Word).toNat = 256 := by decide
  rw [reserveFirstMiB,pages,bit_foldl_setBit,Bool.or_eq_true,decide_eq_true_eq,List.mem_range]

theorem countUsable_toNat (bytes : Nat → BitVec 8) (count : Nat) (small : count < 2^64) :
    (countUsable bytes count).toNat = ((Finset.range count).filter fun page => bit bytes page = false).card := by
  induction count with
  | zero => rfl
  | succ count ih =>
    have before := ih (by omega)
    have bound : ((Finset.range count).filter fun page => bit bytes page = false).card ≤ count := by
      simpa using Finset.card_le_card
        (Finset.filter_subset (fun page => bit bytes page = false) (Finset.range count))
    rw [countUsable,List.range_succ,List.foldl_append,List.foldl_cons,List.foldl_nil,
      Finset.range_add_one,Finset.filter_insert]
    change (if _ then countUsable bytes count + 1 else countUsable bytes count).toNat = _
    have tested := and_mask_ne_zero bytes count
    cases set : bit bytes count with
    | true =>
      rw [if_neg (tested.mpr set)]
      simpa using before
    | false =>
      have zero : bytes (count / 8) &&& mask count = 0 := by
        by_contra nonzero
        simp [tested.mp nonzero] at set
      have fresh : count ∉ (Finset.range count).filter fun page => bit bytes page = false := by simp
      have one : (1 : Word).toNat = 1 := by decide
      rw [if_pos zero,if_pos rfl,Finset.card_insert_of_notMem fresh,BitVec.toNat_add,before,one,
        Nat.mod_eq_of_lt (by omega)]

theorem reserveBitmaps_bit (bitmapMemory required : Word) (bytes : Nat → BitVec 8) (page : Nat)
    (fits : bitmapMemory.toNat / 4096 + required.toNat + 4095 < 2^64) :
    bit (reserveBitmaps bitmapMemory required bytes) page = true ↔
      (bitmapMemory.toNat / 4096 ≤ page ∧
        page < (bitmapMemory.toNat / 4096 + required.toNat + 4095) / 4096) ∨ bit bytes page = true := by
  have start : (bitmapMemory / Architecture.pageSize).toNat = bitmapMemory.toNat / 4096 := by
    rw [BitVec.toNat_udiv,Architecture.pageSize_toNat]
  have sum : (bitmapMemory / Architecture.pageSize + required).toNat =
      bitmapMemory.toNat / 4096 + required.toNat := by
    rw [BitVec.toNat_add,start,Nat.mod_eq_of_lt (by omega)]
  have stop := alignUp_page (bitmapMemory / Architecture.pageSize + required) (by omega)
  rw [sum] at stop
  simp only [reserveBitmaps,bit_foldl_setBit,Bool.or_eq_true,decide_eq_true_eq,List.mem_range'_1,
    BitVec.toNat_udiv (x := alignUp _ _),Architecture.pageSize_toNat,stop,start]
  have pages : (bitmapMemory.toNat / 4096 + required.toNat + 4095) / 4096 * 4096 / 4096 =
      (bitmapMemory.toNat / 4096 + required.toNat + 4095) / 4096 := by omega
  rw [pages]
  refine or_congr_left ?_
  omega

theorem interiorSize_toNat {entry : MemmapEntry} (high : entry.stop + 4096 ≤ 2^64) :
    (interiorSize entry.region).toNat = entry.interior := by
  have base : entry.base.toNat ≤ entry.stop := Nat.le_add_right _ _
  have start := alignUp_page entry.base (by omega)
  have stop := alignDown_page (entry.base + entry.length)
  rw [stop_toNat high] at stop
  change (if alignUp entry.base Architecture.pageSize < alignDown (entry.base + entry.length) Architecture.pageSize
    then alignDown (entry.base + entry.length) Architecture.pageSize - alignUp entry.base Architecture.pageSize
    else 0).toNat = _
  rw [MemmapEntry.interior]
  by_cases less : alignUp entry.base Architecture.pageSize <
      alignDown (entry.base + entry.length) Architecture.pageSize
  · rw [if_pos less,BitVec.toNat_sub_of_le (BitVec.le_of_lt less),start,stop]
  · rw [if_neg less]
    rw [BitVec.lt_def,start,stop] at less
    have zero : (0 : Word).toNat = 0 := rfl
    rw [zero]
    omega

def bitmapSizeOf (memmap : List MemmapEntry) : Nat := (bitmapSizeFor (collectRegions memmap).2).toNat

private theorem required_toNat (memmap : List MemmapEntry) :
    (bitmapSizeFor (collectRegions memmap).2 * 2).toNat = 2 * bitmapSizeOf memmap := by
  have size := bitmapSizeFor_toNat (collectRegions memmap).2
  have bound := (collectRegions memmap).2.isLt
  have two : (2 : Word).toNat = 2 := by decide
  rw [BitVec.toNat_mul,two,bitmapSizeOf,Nat.mod_eq_of_lt (by omega)]
  omega

/-- Where a successful `Initialize` put the bitmaps, and what it wrote there. -/
structure Placement (memmap : List MemmapEntry) (pmm : PhysicalMemoryManager) where
  before : List MemmapEntry
  chosen : MemmapEntry
  after : List MemmapEntry
  stale : Nat → BitVec 8
  split : memmap.filter kept = before ++ chosen :: after
  room : bitmapSizeFor (collectRegions memmap).2 * 2 ≤ interiorSize chosen.region
  address : pmm.allocatableBitmap.address = alignUp chosen.base Architecture.pageSize
  size : pmm.bitmapSize = bitmapSizeFor (collectRegions memmap).2
  allocatable : ∀ i < pmm.bitmapSize.toNat, pmm.allocatableBitmap.bytes i = 0
  reserved : pmm.reservedBitmap.bytes = reserveBitmaps pmm.allocatableBitmap.address
    (bitmapSizeFor (collectRegions memmap).2 * 2) (reserveFirstMiB
      ((before.map region ++ ⟨chosen.base + bitmapSizeFor (collectRegions memmap).2 * 2,
          chosen.length - bitmapSizeFor (collectRegions memmap).2 * 2⟩ :: after.map region).foldl clearRegion
        (fillBytes 0xFF pmm.bitmapSize.toNat stale)))
  usable : pmm.usableFrames = countUsable pmm.reservedBitmap.bytes pmm.frameCount.toNat

theorem initializeBitmaps_placement {memmap : List MemmapEntry} {offset : Word} {memory : Nat → BitVec 8}
    {pmm : PhysicalMemoryManager} (ok : initializeBitmaps (some memmap) (some offset) memory = .ok pmm) :
    Nonempty (Placement memmap pmm) := by
  simp only [initializeBitmaps,Option.isNone_some,Bool.false_eq_true,if_false] at ok
  split at ok
  · cases ok
  · rename_i bitmapMemory regions placed
    split at ok
    · cases ok
    · obtain ⟨before,chosen,after,split,changed,address,room⟩ := placeBitmaps_some placed
      have collected := collectRegions_regions memmap ([],0)
      rw [List.nil_append] at collected
      rw [collectRegions,collected] at split
      obtain ⟨first,rest,entries,rfl,tail⟩ := List.map_eq_append_iff.mp split
      obtain ⟨entry,last,rfl,rfl,rfl⟩ := List.map_eq_cons_iff.mp tail
      cases ok
      refine ⟨⟨first,entry,last,
        fun i => memory (bitmapMemory.toNat + (bitmapSizeFor (collectRegions memmap).2).toNat + i),
        entries,room,address,rfl,?_,?_,rfl⟩⟩
      · intro i bound
        simp only [fillBytes]
        rw [foldl_update_range,if_pos bound]
      · rw [changed]
        rfl

/-- The loop finds no room exactly when no kept entry has enough whole pages. -/
theorem initializeBitmaps_panics_iff (memmap : List MemmapEntry) (offset : Word) (memory : Nat → BitVec 8)
    (guaranteed : Guaranteed memmap) :
    (∃ panic, initializeBitmaps (some memmap) (some offset) memory = .error panic) ↔
      ∀ entry ∈ memmap, entry.Usable → 2^20 < entry.stop → entry.interior < 2 * bitmapSizeOf memmap := by
  have collected := collectRegions_regions memmap ([],0)
  rw [List.nil_append] at collected
  have absent : placeBitmaps (bitmapSizeFor (collectRegions memmap).2 * 2) (collectRegions memmap).1 = none ↔
      ∀ entry ∈ memmap, entry.Usable → 2^20 < entry.stop → entry.interior < 2 * bitmapSizeOf memmap := by
    rw [placeBitmaps_none,show (collectRegions memmap).1 = _ from collected]
    constructor
    · intro none entry member usable above
      have high := guaranteed.high entry member usable
      have small := none entry.region (List.mem_map.mpr
        ⟨entry,List.mem_filter.mpr ⟨member,(kept_iff high).mpr ⟨usable,above⟩⟩,rfl⟩)
      rw [BitVec.le_def,interiorSize_toNat high,required_toNat,not_le] at small
      exact small
    · intro none region member
      obtain ⟨entry,inside,rfl⟩ := List.mem_map.mp member
      obtain ⟨listed,keeps⟩ := List.mem_filter.mp inside
      have usable : entry.Usable := ((kept_eq_true entry).mp keeps).1
      have high := guaranteed.high entry listed usable
      rw [BitVec.le_def,interiorSize_toNat high,required_toNat,not_le]
      exact none entry listed usable ((kept_iff high).mp keeps).2
  rw [← absent]
  simp only [initializeBitmaps,Option.isNone_some,Bool.false_eq_true,if_false]
  constructor
  · rintro ⟨panic,stopped⟩
    split at stopped
    · rename_i none
      exact none
    · rename_i bitmapMemory regions placed
      split at stopped
      · rename_i null
        -- an entry starts at or above one page, so the storage is never at address zero
        obtain ⟨before,chosen,after,split,_,address,_⟩ := placeBitmaps_some placed
        have listed : chosen ∈ (collectRegions memmap).1 := by simp [split]
        rw [show (collectRegions memmap).1 = _ from collected] at listed
        obtain ⟨entry,inside,rfl⟩ := List.mem_map.mp listed
        obtain ⟨member,keeps⟩ := List.mem_filter.mp inside
        have usable : entry.Usable := ((kept_eq_true entry).mp keeps).1
        have low := guaranteed.low entry member usable
        have high := guaranteed.high entry member usable
        have start : entry.base.toNat ≤ entry.stop := Nat.le_add_right _ _
        have value := congrArg BitVec.toNat (address.symm.trans null)
        rw [show entry.region.addr = entry.base from rfl,alignUp_page _ (by omega)] at value
        have zero : (0 : Word).toNat = 0 := rfl
        omega
      · cases stopped
  · intro none
    rw [none]
    exact ⟨_,rfl⟩

private theorem entry_of_mem_kept {memmap : List MemmapEntry} {entry : MemmapEntry}
    (guaranteed : Guaranteed memmap) (member : entry ∈ memmap.filter kept) :
    entry ∈ memmap ∧ entry.Usable ∧ 4096 ≤ entry.base.toNat ∧ entry.stop + 4096 ≤ 2^64 := by
  obtain ⟨listed,keeps⟩ := List.mem_filter.mp member
  have usable : entry.Usable := ((kept_eq_true entry).mp keeps).1
  exact ⟨listed,usable,guaranteed.low entry listed usable,guaranteed.high entry listed usable⟩

theorem page_lt_frameCount {memmap : List MemmapEntry} {entry : MemmapEntry} {page : Nat}
    (member : entry ∈ memmap) (usable : entry.Usable) (high : entry.stop + 4096 ≤ 2^64)
    (above : 2^20 < entry.stop) (inside : entry.Contains page) : page < 8 * bitmapSizeOf memmap := by
  have reached := (collectRegions_end memmap ([],0)).2 entry member ((kept_iff high).mpr ⟨usable,above⟩)
  rw [BitVec.le_def,stop_toNat high] at reached
  have size := bitmapSizeFor_toNat (collectRegions memmap).2
  have last := inside.2
  change entry.stop ≤ (collectRegions memmap).2.toNat at reached
  rw [bitmapSizeOf,size]
  omega

section Placed
variable {memmap : List MemmapEntry} {pmm : PhysicalMemoryManager} (placed : Placement memmap pmm)

theorem Placement.mem_split (entry : MemmapEntry) : entry ∈ memmap.filter kept ↔
    entry ∈ placed.before ++ placed.after ∨ entry = placed.chosen := by
  rw [placed.split]
  simp only [List.mem_append,List.mem_cons]
  tauto

private theorem chosen_mem : placed.chosen ∈ memmap.filter kept := (placed.mem_split _).mpr (Or.inr rfl)

variable (guaranteed : Guaranteed memmap)
include placed guaranteed

theorem Placement.storage : pmm.allocatableBitmap.address.toNat % 4096 = 0 ∧
    placed.chosen.base.toNat ≤ pmm.allocatableBitmap.address.toNat ∧
    pmm.allocatableBitmap.address.toNat < placed.chosen.base.toNat + 4096 ∧
    pmm.allocatableBitmap.address.toNat + 2 * bitmapSizeOf memmap ≤ placed.chosen.stop / 4096 * 4096 := by
  obtain ⟨_,_,low,high⟩ := entry_of_mem_kept guaranteed (chosen_mem placed)
  have start : placed.chosen.base.toNat ≤ placed.chosen.stop := Nat.le_add_right _ _
  have room := placed.room
  rw [BitVec.le_def,required_toNat,interiorSize_toNat high,MemmapEntry.interior] at room
  have size := bitmapSizeFor_toNat (collectRegions memmap).2
  rw [placed.address,alignUp_page _ (by omega)]
  rcases Nat.eq_zero_or_pos (bitmapSizeOf memmap) with zero | positive
  · -- the chosen entry ends above one MiB, so the bitmaps are not empty
    obtain ⟨listed,keeps⟩ := List.mem_filter.mp (chosen_mem placed)
    have above := ((kept_iff high).mp keeps)
    have reached := (collectRegions_end memmap ([],0)).2 _ listed keeps
    rw [BitVec.le_def,stop_toNat high] at reached
    change placed.chosen.stop ≤ (collectRegions memmap).2.toNat at reached
    rw [bitmapSizeOf,size] at zero
    have big := above.2
    omega
  · omega

theorem Placement.shortened :
    (placed.chosen.base + bitmapSizeFor (collectRegions memmap).2 * 2).toNat =
      placed.chosen.base.toNat + 2 * bitmapSizeOf memmap ∧
    (placed.chosen.length - bitmapSizeFor (collectRegions memmap).2 * 2).toNat =
      placed.chosen.length.toNat - 2 * bitmapSizeOf memmap ∧
    2 * bitmapSizeOf memmap ≤ placed.chosen.length.toNat := by
  obtain ⟨_,_,_,high⟩ := entry_of_mem_kept guaranteed (chosen_mem placed)
  obtain ⟨_,below,_,room⟩ := placed.storage guaranteed
  have stop : placed.chosen.stop = placed.chosen.base.toNat + placed.chosen.length.toNat := rfl
  have required := required_toNat memmap
  refine ⟨?_,?_,by omega⟩
  · rw [BitVec.toNat_add,required,Nat.mod_eq_of_lt (by omega)]
  · rw [BitVec.toNat_sub_of_le (BitVec.le_def.mpr (by omega)),required]

theorem Placement.shortened_clears (page : Nat) :
    Region.Clears ⟨placed.chosen.base + bitmapSizeFor (collectRegions memmap).2 * 2,
        placed.chosen.length - bitmapSizeFor (collectRegions memmap).2 * 2⟩ page ↔
      placed.chosen.Contains page ∧
        pmm.allocatableBitmap.address.toNat + 2 * bitmapSizeOf memmap ≤ 4096 * page := by
  obtain ⟨aligned,below,near,room⟩ := placed.storage guaranteed
  obtain ⟨addr,length,enough⟩ := placed.shortened guaranteed
  have stop : placed.chosen.stop = placed.chosen.base.toNat + placed.chosen.length.toNat := rfl
  have size := bitmapSizeFor_toNat (collectRegions memmap).2
  have pages : bitmapSizeOf memmap % 4096 = 0 := by rw [bitmapSizeOf]; omega
  rw [Region.Clears,addr,length,Contains]
  omega

private theorem regions_fit : ∀ part ∈ placed.before.map region ++
    ⟨placed.chosen.base + bitmapSizeFor (collectRegions memmap).2 * 2,
      placed.chosen.length - bitmapSizeFor (collectRegions memmap).2 * 2⟩ :: placed.after.map region,
    part.addr.toNat + part.length.toNat + 4096 ≤ 2^64 := by
  intro part member
  have listed : ∀ entry, entry ∈ placed.before ++ placed.after ∨ entry = placed.chosen →
      entry.stop + 4096 ≤ 2^64 := fun entry place =>
    (entry_of_mem_kept guaranteed ((placed.mem_split entry).mpr place)).2.2.2
  rw [List.mem_append,List.mem_cons,List.mem_map,List.mem_map] at member
  rcases member with ⟨entry,place,rfl⟩ | rfl | ⟨entry,place,rfl⟩
  · exact listed entry (Or.inl (List.mem_append_left _ place))
  · obtain ⟨addr,length,enough⟩ := placed.shortened guaranteed
    have high := listed placed.chosen (Or.inr rfl)
    have stop : placed.chosen.stop = placed.chosen.base.toNat + placed.chosen.length.toNat := rfl
    dsimp only
    omega
  · exact listed entry (Or.inl (List.mem_append_right _ place))

theorem Placement.reserved_iff (page : Nat) (inside : page < pmm.frameCount.toNat) :
    pmm.reserved page = true ↔
      (pmm.allocatableBitmap.address.toNat / 4096 ≤ page ∧
        page < (pmm.allocatableBitmap.address.toNat / 4096 + 2 * bitmapSizeOf memmap + 4095) / 4096) ∨
      page < 256 ∨
      (∀ entry ∈ placed.before ++ placed.after, ¬ entry.Contains page) ∧
        ¬ (placed.chosen.Contains page ∧
          pmm.allocatableBitmap.address.toNat + 2 * bitmapSizeOf memmap ≤ 4096 * page) := by
  have size := bitmapSizeFor_toNat (collectRegions memmap).2
  have bound := (collectRegions memmap).2.isLt
  have address := pmm.allocatableBitmap.address.isLt
  have filled : bit (fillBytes 0xFF pmm.bitmapSize.toNat placed.stale) page = true := by
    have byte : page / 8 < pmm.bitmapSize.toNat := by have := pmm.sized; omega
    rw [bit,fillBytes,foldl_update_range,if_pos byte]
    have low : page % 8 < 8 := Nat.mod_lt _ (by omega)
    interval_cases page % 8 <;> rfl
  rw [PhysicalMemoryManager.reserved,placed.reserved,reserveBitmaps_bit _ _ _ _ (by rw [required_toNat,bitmapSizeOf]; omega),
    reserveFirstMiB_bit,clearRegions_bit _ _ _ (regions_fit placed guaranteed),
    required_toNat]
  simp only [filled,true_and,List.forall_mem_append,List.forall_mem_cons,
    placed.shortened_clears guaranteed page,List.forall_mem_map]
  have same : ∀ entry : MemmapEntry, Region.Clears entry.region page ↔ entry.Contains page := fun _ => Iff.rfl
  simp only [same]
  tauto

theorem Placement.other_avoids_storage {entry : MemmapEntry} {page : Nat}
    (member : entry ∈ placed.before ++ placed.after) (inside : entry.Contains page) :
    4096 * page + 4096 ≤ pmm.allocatableBitmap.address.toNat ∨
      pmm.allocatableBitmap.address.toNat + 2 * bitmapSizeOf memmap ≤ 4096 * page := by
  have keptUsable : List.Sublist (memmap.filter kept) (memmap.filter fun entry => entry.Usable) :=
    List.monotone_filter_right _ fun entry keeps => decide_eq_true ((kept_eq_true entry).mp keeps).1
  have disjoint := guaranteed.disjoint.sublist keptUsable
  rw [placed.split,List.pairwise_append,List.pairwise_cons] at disjoint
  have apart : ∀ address, ¬ (entry.base.toNat ≤ address ∧ address < entry.stop ∧
      placed.chosen.base.toNat ≤ address ∧ address < placed.chosen.stop) := by
    rcases List.mem_append.mp member with before | after
    · exact disjoint.2.2 entry before placed.chosen List.mem_cons_self
    · intro address both
      exact disjoint.2.1.1 entry after address ⟨both.2.2.1,both.2.2.2,both.1,both.2.1⟩
  obtain ⟨aligned,below,_,room⟩ := placed.storage guaranteed
  have separate := apart (4096 * page)
  obtain ⟨first,last⟩ := inside
  omega

/-- The free pages: outside the first MiB, inside one usable entry, off the storage. -/
theorem Placement.unreserved_iff (page : Nat) (inside : page < pmm.frameCount.toNat) :
    pmm.reserved page = false ↔ 256 ≤ page ∧
      (∃ entry ∈ memmap, entry.Usable ∧ entry.Contains page) ∧
      (4096 * page + 4096 ≤ pmm.allocatableBitmap.address.toNat ∨
        pmm.allocatableBitmap.address.toNat + 2 * bitmapSizeOf memmap ≤ 4096 * page) := by
  obtain ⟨aligned,below,near,room⟩ := placed.storage guaranteed
  rw [← Bool.not_eq_true,placed.reserved_iff guaranteed page inside]
  constructor
  · intro free
    simp only [not_or,not_and_or,not_not,not_forall] at free
    obtain ⟨_,first,⟨entry,member,contains⟩ | ⟨contains,behind⟩⟩ := free
    · obtain ⟨listed,usable,_⟩ := entry_of_mem_kept guaranteed ((placed.mem_split entry).mpr (Or.inl member))
      exact ⟨by omega,⟨entry,listed,usable,contains⟩,placed.other_avoids_storage guaranteed member contains⟩
    · obtain ⟨listed,usable,_⟩ := entry_of_mem_kept guaranteed (chosen_mem placed)
      exact ⟨by omega,⟨placed.chosen,listed,usable,contains⟩,Or.inr behind⟩
  · rintro ⟨first,⟨entry,listed,usable,contains⟩,avoids⟩
    -- a page at or above the first MiB keeps its entry in the list of regions
    have high := guaranteed.high entry listed usable
    have member : entry ∈ memmap.filter kept := by
      refine List.mem_filter.mpr ⟨listed,(kept_iff high).mpr ⟨usable,?_⟩⟩
      have last := contains.2
      omega
    rintro (⟨low,loop⟩ | small | ⟨others,chosen⟩)
    · omega
    · omega
    · rcases (placed.mem_split entry).mp member with other | rfl
      · exact others entry other contains
      · refine chosen ⟨contains,?_⟩
        obtain ⟨start,_⟩ := contains
        omega

end Placed

/-- `Initialize` on every memory map the boot loader may hand over: it panics
exactly when no entry has room for both bitmaps, and otherwise the clear
reserved bits are exactly the usable pages above the first MiB that lie inside
one usable entry and outside the storage of the bitmaps. -/
theorem initializeBitmaps_exact (memmap : List MemmapEntry) (offset : Word) (memory : Nat → BitVec 8)
    (guaranteed : Guaranteed memmap) :
    ((∃ panic, initializeBitmaps (some memmap) (some offset) memory = .error panic) ↔
      ∀ entry ∈ memmap, entry.Usable → 2^20 < entry.stop → entry.interior < 2 * bitmapSizeOf memmap) ∧
    ∀ pmm, initializeBitmaps (some memmap) (some offset) memory = .ok pmm →
      pmm.bitmapSize.toNat = bitmapSizeOf memmap ∧
      (∀ page < pmm.frameCount.toNat, pmm.reserved page = false ↔ 256 ≤ page ∧
        (∃ entry ∈ memmap, entry.Usable ∧ entry.Contains page) ∧
        (4096 * page + 4096 ≤ pmm.allocatableBitmap.address.toNat ∨
          pmm.allocatableBitmap.address.toNat + 2 * pmm.bitmapSize.toNat ≤ 4096 * page)) ∧
      (∃ entry ∈ memmap, entry.Usable ∧ entry.base.toNat ≤ pmm.allocatableBitmap.address.toNat ∧
        pmm.allocatableBitmap.address.toNat + 2 * pmm.bitmapSize.toNat ≤ entry.stop) ∧
      (∀ entry ∈ memmap, entry.Usable → 2^20 < entry.stop → ∀ page, entry.Contains page →
        page < pmm.frameCount.toNat) ∧
      (∀ page < pmm.frameCount.toNat, pmm.allocated page = false) ∧
      pmm.usableFrames.toNat =
        ((Finset.range pmm.frameCount.toNat).filter fun page => pmm.reserved page = false).card := by
  refine ⟨initializeBitmaps_panics_iff memmap offset memory guaranteed,?_⟩
  intro pmm ok
  obtain ⟨placed⟩ := initializeBitmaps_placement ok
  have size : pmm.bitmapSize.toNat = bitmapSizeOf memmap := by rw [placed.size,bitmapSizeOf]
  have frames := pmm.sized
  obtain ⟨aligned,below,_,room⟩ := placed.storage guaranteed
  obtain ⟨listed,usable,_⟩ := entry_of_mem_kept guaranteed (chosen_mem placed)
  refine ⟨size,?_,?_,?_,?_,?_⟩
  · intro page inside
    rw [size]
    exact placed.unreserved_iff guaranteed page inside
  · refine ⟨placed.chosen,listed,usable,below,?_⟩
    rw [size]
    exact Nat.le_trans room (Nat.div_mul_le_self _ _)
  · intro entry member usable above page contains
    have bound := page_lt_frameCount member usable (guaranteed.high entry member usable) above contains
    omega
  · intro page inside
    rw [allocated,bit,placed.allocatable (page / 8) (by omega)]
    simp
  · rw [placed.usable,countUsable_toNat _ _ (by omega)]
    rfl

/-- None of the entries is aligned. The third one begins below the first MiB and is the
only one above it with room for the bitmaps, the fourth one holds page 0x301 and parts of
two others, and the last one raises the frame count. -/
def straddlingMap : List MemmapEntry :=
  [⟨0x1000,0x9E800,memmapUsable⟩,⟨0x9F800,0x50000,1⟩,⟨0xF0800,0x30A00,memmapUsable⟩,⟨0x300800,0x1900,memmapUsable⟩,
    ⟨0x400400,0x1C00,memmapUsable⟩]

/-- `Initialize` returns. Of the fourth entry only the whole page is free, and in the third
one the pages below the first MiB stay reserved. -/
theorem initializeBitmaps_exact_straddlingMap : ∃ pmm,
    initializeBitmaps (some straddlingMap) (some 0) (fun _ => 0xA5) = .ok pmm ∧
      pmm.reserved 0x301 = false ∧ pmm.reserved 0x300 = true ∧ pmm.reserved 0x302 = true ∧ pmm.reserved 0xF8 = true ∧
      0x401 < pmm.frameCount.toNat ∧ pmm.allocated 0x301 = false := by
  have guaranteed : Guaranteed straddlingMap := by
    refine ⟨by decide,by decide,?_⟩
    have apart : (straddlingMap.filter fun entry => entry.Usable).Pairwise fun first second =>
        first.stop ≤ second.base.toNat := by decide
    refine apart.imp ?_
    rintro first second below address ⟨_,high,low,_⟩
    omega
  have size : bitmapSizeOf straddlingMap = 4096 := by decide
  obtain ⟨panics,exact⟩ := initializeBitmaps_exact straddlingMap 0 (fun _ => 0xA5) guaranteed
  cases built : initializeBitmaps (some straddlingMap) (some 0) (fun _ => 0xA5) with
  | error panic =>
    have small := panics.mp ⟨panic,built⟩ ⟨0xF0800,0x30A00,memmapUsable⟩ (by decide) rfl (by decide)
    rw [size] at small
    exact absurd small (by decide)
  | ok pmm =>
    obtain ⟨bytes,bits,⟨entry,listed,usable,low,high⟩,counted,untaken,_⟩ := exact pmm built
    have last : 0x401 < pmm.frameCount.toNat :=
      counted ⟨0x400400,0x1C00,memmapUsable⟩ (by decide) rfl (by decide) 0x401 ⟨by decide,by decide⟩
    -- two pages of bitmaps fit into no entry but the first and the third
    have near : pmm.allocatableBitmap.address.toNat + 2 * pmm.bitmapSize.toNat ≤ 0x121200 := by
      have roomy : ∀ entry ∈ straddlingMap, entry.Usable → entry.base.toNat + 8192 ≤ entry.stop → entry.stop ≤ 0x121200 := by
        decide
      exact high.trans (roomy entry listed usable (by omega))
    have whole : ∃ entry ∈ straddlingMap, entry.Usable ∧ entry.Contains 0x301 :=
      ⟨⟨0x300800,0x1900,memmapUsable⟩,by decide,rfl,by decide,by decide⟩
    have parts : ∀ page ∈ [0x300,0x302], ∀ entry ∈ straddlingMap,
        ¬ (entry.base.toNat ≤ 4096 * page ∧ 4096 * page + 4096 ≤ entry.stop) := by decide
    have reserved : ∀ page < pmm.frameCount.toNat, ¬ (256 ≤ page ∧ ∃ entry ∈ straddlingMap, entry.Usable ∧ entry.Contains page) →
        pmm.reserved page = true := by
      intro page inside outside
      rw [← Bool.not_eq_false,bits page inside]
      rintro ⟨above,contained,_⟩
      exact outside ⟨above,contained⟩
    refine ⟨pmm,rfl,(bits 0x301 (by omega)).mpr ⟨by decide,whole,Or.inr (by omega)⟩,
      reserved 0x300 (by omega) fun ⟨_,entry,listed,_,inside⟩ => parts 0x300 (by decide) entry listed inside,
      reserved 0x302 (by omega) fun ⟨_,entry,listed,_,inside⟩ => parts 0x302 (by decide) entry listed inside,
      reserved 0xF8 (by omega) fun both => absurd both.1 (by decide),last,untaken 0x301 (by omega)⟩

end PhysicalMemoryManager

end BorealOS.Memory
