import BorealOS.Kernel
import BorealOS.Library.BitField

/-! The descriptors of the kernel: the segments and the task state in the `GDT` and the
gates in the `IDT`, and what the processor reads in the words that are stored for them. -/
namespace BorealOS

open BitField

namespace Architecture

def maxCPUs : Nat := 1024

end Architecture

namespace Interrupts

/-- A segment descriptor of the processor. -/
structure SegmentDescriptor where
  base : BitVec 32
  limit : BitVec 20
  access : BitVec 8
  flags : BitVec 4
deriving DecidableEq

/-- A system descriptor of 64-bit mode, which takes two words. -/
structure SystemDescriptor where
  base : Word
  limit : BitVec 20
  access : BitVec 8
  flags : BitVec 4
  reserved : BitVec 32
deriving DecidableEq

structure GateDescriptor where
  offset : Word
  selector : BitVec 16
  ist : BitVec 3
  typeAttribute : BitVec 8
  reservedLow : BitVec 5
  reservedHigh : BitVec 32
deriving DecidableEq

def SegmentDescriptor.decode (word : Word) : SegmentDescriptor where
  base := word.extractLsb' 56 8 ++ word.extractLsb' 16 24
  limit := word.extractLsb' 48 4 ++ word.extractLsb' 0 16
  access := word.extractLsb' 40 8
  flags := word.extractLsb' 52 4

def SystemDescriptor.decode (low high : Word) : SystemDescriptor where
  base := high.extractLsb' 0 32 ++ (SegmentDescriptor.decode low).base
  limit := (SegmentDescriptor.decode low).limit
  access := (SegmentDescriptor.decode low).access
  flags := (SegmentDescriptor.decode low).flags
  reserved := high.extractLsb' 32 32

def GateDescriptor.decode (gate : BitVec 128) : GateDescriptor where
  offset := gate.extractLsb' 64 32 ++ gate.extractLsb' 48 16 ++ gate.extractLsb' 0 16
  selector := gate.extractLsb' 16 16
  ist := gate.extractLsb' 32 3
  typeAttribute := gate.extractLsb' 40 8
  reservedLow := gate.extractLsb' 35 5
  reservedHigh := gate.extractLsb' 96 32

/-- The word of a segment descriptor, from the highest field to the lowest. -/
def SegmentDescriptor.encode (descriptor : SegmentDescriptor) : Word :=
  descriptor.base.extractLsb' 24 8 ++ descriptor.flags ++ descriptor.limit.extractLsb' 16 4 ++ descriptor.access ++
    descriptor.base.extractLsb' 0 24 ++ descriptor.limit.extractLsb' 0 16

namespace GDT

structure GDTEntry where
  limitLow : BitVec 16
  baseLow : BitVec 16
  baseMiddle : BitVec 8
  access : BitVec 8
  granularity : BitVec 8
  baseHigh : BitVec 8

/-- The bytes of the packed structure as the word they are copied to, least byte first. -/
def GDTEntry.word (entry : GDTEntry) : Word :=
  entry.baseHigh ++ entry.granularity ++ entry.access ++ entry.baseMiddle ++ entry.baseLow ++ entry.limitLow

/-- Null, code, data, the two words of the task state, and the three user segments of each
processor. -/
abbrev Entries := Fin Architecture.maxCPUs → Fin 8 → Word

def store (cpuId : Fin Architecture.maxCPUs) (index : Fin 8) (word : Word) (entries : Entries) : Entries :=
  Function.update entries cpuId (Function.update (entries cpuId) index word)

def setEntry (cpuId : Fin Architecture.maxCPUs) (index : Fin 8) (base limit : BitVec 32) (access granularity : BitVec 8)
    (entries : Entries) : Entries :=
  let entry : GDTEntry := {
    limitLow := (limit &&& 0xFFFF#32).setWidth 16
    baseLow := (base &&& 0xFFFF#32).setWidth 16
    baseMiddle := (base >>> 16 &&& 0xFF#32).setWidth 8
    access
    granularity := (limit >>> 16 &&& 0x0F#32).setWidth 8 ||| granularity &&& 0xF0#8
    baseHigh := (base >>> 24 &&& 0xFF#32).setWidth 8 }
  store cpuId index entry.word entries

/-- The second word goes to the next index. -/
def setTSSDescriptor (cpuId : Fin Architecture.maxCPUs) (index : Fin 7) (base : Word) (limit : BitVec 32)
    (entries : Entries) : Entries :=
  let low := 0#64 ||| (limit.setWidth 64 &&& 0xFFFF#64) ||| (base &&& 0xFFFFFF#64) <<< 16 ||| 0x89#64 <<< 40 |||
    ((limit >>> 16).setWidth 64 &&& 0xF#64) <<< 48 ||| (base >>> 24 &&& 0xFF#64) <<< 56
  let high := 0#64 ||| (base >>> 32 &&& 0xFFFFFFFF#64)
  store cpuId index.succ high (store cpuId index.castSucc low entries)

def sizeofTSSStruct : Nat := 104

/-- The entries that `GDT::Initialize` sets for the task state at `tssAddress`. -/
def initializeEntries (cpuId : Fin Architecture.maxCPUs) (tssAddress : Word) (entries : Entries) : Entries :=
  let entries := setEntry cpuId 0 0#32 0#32 0#8 0#8 entries
  let entries := setEntry cpuId 1 0#32 0xFFFFF#32 0x9A#8 0xA0#8 entries
  let entries := setEntry cpuId 2 0#32 0xFFFFF#32 0x92#8 0xA0#8 entries
  let entries := setTSSDescriptor cpuId 3 tssAddress (BitVec.ofNat 32 (sizeofTSSStruct - 1)) entries
  let entries := setEntry cpuId 5 0#32 0xFFFFF#32 0xF2#8 0xC0#8 entries
  let entries := setEntry cpuId 6 0#32 0xFFFFF#32 0xF2#8 0xA0#8 entries
  setEntry cpuId 7 0#32 0xFFFFF#32 0xFA#8 0xA0#8 entries

end GDT

namespace IDT

structure IDTEntry where
  offsetLow : BitVec 16
  selector : BitVec 16
  ist : BitVec 8
  typeAttribute : BitVec 8
  offsetMiddle : BitVec 16
  offsetHigh : BitVec 32
  zero : BitVec 32
deriving DecidableEq

/-- The sixteen bytes of the packed structure, least byte first. -/
def IDTEntry.gate (entry : IDTEntry) : BitVec 128 :=
  entry.zero ++ entry.offsetHigh ++ entry.offsetMiddle ++ entry.typeAttribute ++ entry.ist ++ entry.selector ++ entry.offsetLow

def setIDTEntry (vector : BitVec 8) (isr : Word) (flags : BitVec 8) (idtEntries : BitVec 8 → IDTEntry) :
    BitVec 8 → IDTEntry :=
  Function.update idtEntries vector {
    offsetLow := (isr &&& 0xFFFF#64).setWidth 16
    selector := 0x08#16
    ist := 0#8
    typeAttribute := flags
    offsetMiddle := (isr >>> 16 &&& 0xFFFF#64).setWidth 16
    offsetHigh := (isr >>> 32 &&& 0xFFFFFFFF#64).setWidth 32
    zero := 0#32 }

def setGatesFrom (isrStubTable : BitVec 8 → Word) : (remaining vec : Nat) → (BitVec 8 → IDTEntry) → BitVec 8 → IDTEntry
  | 0, _, idtEntries => idtEntries
  | remaining + 1, vec, idtEntries => setGatesFrom isrStubTable remaining (vec + 1)
      (setIDTEntry (BitVec.ofNat 8 vec) (isrStubTable (BitVec.ofNat 8 vec)) 0x8E#8 idtEntries)

/-- Double fault, general protection fault and page fault change to the first stack of the
task state. -/
def faultVectors : List (BitVec 8) := [8#8,13#8,14#8]

def setFaultStack (idtEntries : BitVec 8 → IDTEntry) (vector : BitVec 8) : BitVec 8 → IDTEntry :=
  Function.update idtEntries vector { idtEntries vector with ist := 1#8 }

/-- The gates that `IDT::Initialize` sets. -/
def initializeGates (isrStubTable : BitVec 8 → Word) (idtEntries : BitVec 8 → IDTEntry) : BitVec 8 → IDTEntry :=
  faultVectors.foldl setFaultStack (setGatesFrom isrStubTable 256 0 idtEntries)

end IDT

theorem SegmentDescriptor.decode_encode (descriptor : SegmentDescriptor) : decode descriptor.encode = descriptor := by
  obtain ⟨base,limit,access,flags⟩ := descriptor
  have wholeBase : base.extractLsb' 24 8 ++ base.extractLsb' 0 24 = base := BitVec.extractLsb'_append_extractLsb'
  have wholeLimit : limit.extractLsb' 16 4 ++ limit.extractLsb' 0 16 = limit := BitVec.extractLsb'_append_extractLsb'
  simp (disch := omega) only [decode,encode,BitVec.extractLsb'_append_eq_of_le,BitVec.extractLsb'_append_eq_of_add_le,
    Nat.reduceSub,BitVec.extractLsb'_eq_self,wholeBase,wholeLimit]

namespace GDT

@[simp] theorem store_self (cpuId : Fin Architecture.maxCPUs) (index : Fin 8) (word : Word) (entries : Entries) :
    store cpuId index word entries cpuId index = word := by
  rw [store,Function.update_self,Function.update_self]

theorem store_of_ne {index other : Fin 8} (different : other ≠ index) (cpuId : Fin Architecture.maxCPUs) (word : Word)
    (entries : Entries) : store cpuId index word entries cpuId other = entries cpuId other := by
  rw [store,Function.update_self,Function.update_of_ne different]

/-- The limit keeps its four upper bits in the half that the flags leave free. -/
private theorem granularity_eq (limit : BitVec 32) (granularity : BitVec 8) :
    (limit >>> 16 &&& 0x0F#32).setWidth 8 ||| granularity &&& 0xF0#8 =
      granularity.extractLsb' 4 4 ++ limit.extractLsb' 16 4 := by
  have mask : 0x0F#32 = ones 32 4 := rfl
  have low : (limit >>> 16 &&& 0x0F#32).setWidth 8 = (limit.extractLsb' 16 4).setWidth 8 := by
    rw [mask,and_ones,extractLsb'_ushiftRight,BitVec.setWidth_setWidth_of_le _ (by omega)]
  have high : granularity &&& 0xF0#8 = (granularity.extractLsb' 4 4).setWidth 8 <<< 4 := and_ones_shiftLeft granularity 4 4
  rw [low,high,BitVec.or_comm]
  exact BitVec.setWidth_append_eq_shiftLeft_setWidth_or.symm.trans (BitVec.setWidth_eq _)

private theorem setEntry_word (cpuId : Fin Architecture.maxCPUs) (index : Fin 8) (base limit : BitVec 32)
    (access granularity : BitVec 8) (entries : Entries) :
    setEntry cpuId index base limit access granularity entries cpuId index =
      (⟨base,limit.setWidth 20,access,granularity.extractLsb' 4 4⟩ : SegmentDescriptor).encode := by
  -- the structure cuts the lower part of the base in two, the layout does not
  have lower : base.extractLsb' 0 24 = base.extractLsb' 16 8 ++ base.extractLsb' 0 16 := by
    rw [BitVec.extractLsb'_append_extractLsb'_eq_extractLsb' (by omega)]
  have mask16 : 0xFFFF#32 = ones 32 16 := rfl
  have mask8 : 0xFF#32 = ones 32 8 := rfl
  rw [setEntry,store_self,GDTEntry.word,SegmentDescriptor.encode]
  dsimp only
  rw [granularity_eq,lower,mask16,mask8]
  simp (disch := omega) only [setWidth_and_ones,extractLsb'_ushiftRight,BitVec.extractLsb'_setWidth_of_le]
  -- both words as shifted fields, where the grouping of the fields no longer matters
  refine (BitVec.setWidth_eq _).symm.trans (Eq.trans ?_ (BitVec.setWidth_eq _))
  simp only [BitVec.setWidth_append_eq_shiftLeft_setWidth_or,BitVec.shiftLeft_or_distrib,← BitVec.shiftLeft_add,
    BitVec.or_assoc]

private theorem or_reverse (a b c d e : Word) : a ||| b ||| c ||| d ||| e = e ||| d ||| c ||| b ||| a := by
  ac_rfl

private theorem assembled (limitLow : BitVec 16) (baseLow : BitVec 24) (access : BitVec 8) (limitHigh : BitVec 4)
    (baseHigh : BitVec 8) : 0#64 ||| limitLow.setWidth 64 ||| baseLow.setWidth 64 <<< 16 ||| access.setWidth 64 <<< 40 |||
      limitHigh.setWidth 64 <<< 48 ||| baseHigh.setWidth 64 <<< 56 =
    baseHigh ++ 0#4 ++ limitHigh ++ access ++ baseLow ++ limitLow := by
  refine Eq.trans ?_ (BitVec.setWidth_eq _)
  simp only [BitVec.setWidth_append_eq_shiftLeft_setWidth_or,BitVec.shiftLeft_or_distrib,← BitVec.shiftLeft_add]
  simp only [Nat.reduceAdd,BitVec.reduceSetWidth,BitVec.zero_shiftLeft,BitVec.zero_or,BitVec.or_zero]
  exact or_reverse _ _ _ _ _

private theorem setTSSDescriptor_low (cpuId : Fin Architecture.maxCPUs) (index : Fin 7) (base : Word) (limit : BitVec 32)
    (entries : Entries) : setTSSDescriptor cpuId index base limit entries cpuId index.castSucc =
      (⟨base.setWidth 32,limit.setWidth 20,0x89#8,0#4⟩ : SegmentDescriptor).encode := by
  have mask16 : 0xFFFF#64 = ones 64 16 := rfl
  have mask24 : 0xFFFFFF#64 = ones 64 24 := rfl
  have mask4 : 0xF#64 = ones 64 4 := rfl
  have mask8 : 0xFF#64 = ones 64 8 := rfl
  rw [setTSSDescriptor,store_of_ne (Fin.castSucc_lt_succ).ne,store_self,SegmentDescriptor.encode]
  dsimp only
  rw [mask16,mask24,mask4,mask8]
  simp (disch := omega) only [and_ones,extractLsb'_ushiftRight,BitVec.extractLsb'_setWidth_of_le]
  exact assembled _ _ 0x89#8 _ _

private theorem setTSSDescriptor_high (cpuId : Fin Architecture.maxCPUs) (index : Fin 7) (base : Word) (limit : BitVec 32)
    (entries : Entries) : setTSSDescriptor cpuId index base limit entries cpuId index.succ =
      0#32 ++ base.extractLsb' 32 32 := by
  have mask : 0xFFFFFFFF#64 = ones 64 32 := rfl
  rw [setTSSDescriptor,store_self,mask,and_ones,extractLsb'_ushiftRight,BitVec.zero_or]
  exact BitVec.setWidth_eq_append (by omega)

theorem decode_setEntry (cpuId : Fin Architecture.maxCPUs) (index : Fin 8) (base limit : BitVec 32)
    (access granularity : BitVec 8) (entries : Entries) :
    SegmentDescriptor.decode (setEntry cpuId index base limit access granularity entries cpuId index) =
      ⟨base,limit.setWidth 20,access,granularity.extractLsb' 4 4⟩ := by
  rw [setEntry_word,SegmentDescriptor.decode_encode]

theorem decode_setTSSDescriptor (cpuId : Fin Architecture.maxCPUs) (index : Fin 7) (base : Word) (limit : BitVec 32)
    (entries : Entries) :
    SystemDescriptor.decode (setTSSDescriptor cpuId index base limit entries cpuId index.castSucc)
      (setTSSDescriptor cpuId index base limit entries cpuId index.succ) = ⟨base,limit.setWidth 20,0x89#8,0#4,0#32⟩ := by
  have whole : base.extractLsb' 32 32 ++ base.setWidth 32 = base := by
    rw [BitVec.setWidth_eq_extractLsb' (by omega)]
    exact BitVec.extractLsb'_append_extractLsb'
  rw [SystemDescriptor.decode,setTSSDescriptor_low,setTSSDescriptor_high,SegmentDescriptor.decode_encode]
  simp only [BitVec.extractLsb'_append_eq_right,BitVec.extractLsb'_append_eq_left,whole]

end GDT

namespace IDT

theorem IDTEntry.decode_gate (entry : IDTEntry) : GateDescriptor.decode entry.gate =
    ⟨entry.offsetHigh ++ entry.offsetMiddle ++ entry.offsetLow,entry.selector,entry.ist.extractLsb' 0 3,entry.typeAttribute,
      entry.ist.extractLsb' 3 5,entry.zero⟩ := by
  simp (disch := omega) only [GateDescriptor.decode,gate,BitVec.extractLsb'_append_eq_of_le,
    BitVec.extractLsb'_append_eq_of_add_le,Nat.reduceSub,BitVec.extractLsb'_eq_self]

private theorem decode_setIDTEntry (vector : BitVec 8) (isr : Word) (flags : BitVec 8) (idtEntries : BitVec 8 → IDTEntry) :
    GateDescriptor.decode (setIDTEntry vector isr flags idtEntries vector).gate = ⟨isr,0x08#16,0#3,flags,0#5,0#32⟩ := by
  have whole : isr.extractLsb' 32 32 ++ isr.extractLsb' 16 16 ++ isr.extractLsb' 0 16 = isr := by
    rw [BitVec.extractLsb'_append_extractLsb'_eq_extractLsb' (by omega)]
    exact BitVec.extractLsb'_append_extractLsb'
  have mask16 : 0xFFFF#64 = ones 64 16 := rfl
  have mask32 : 0xFFFFFFFF#64 = ones 64 32 := rfl
  rw [IDTEntry.decode_gate,setIDTEntry,Function.update_self,mask16,mask32]
  simp (disch := omega) only [setWidth_and_ones,extractLsb'_ushiftRight,whole]
  rfl

theorem setIDTEntry_of_ne {vector other : BitVec 8} (different : other ≠ vector) (isr : Word) (flags : BitVec 8)
    (idtEntries : BitVec 8 → IDTEntry) : setIDTEntry vector isr flags idtEntries other = idtEntries other :=
  Function.update_of_ne different _ _

end IDT

open GDT IDT

/-- The processor reads in every stored descriptor what the call was given. The two
encoders of a segment agree on the word. -/
theorem descriptors_decode :
    (∀ (entries : Entries) (cpuId : Fin Architecture.maxCPUs) (index : Fin 7) (base : Word) (limit : BitVec 32),
      let row := setTSSDescriptor cpuId index base limit entries cpuId
      SystemDescriptor.decode (row index.castSucc) (row index.succ) = ⟨base,limit.setWidth 20,0x89#8,0#4,0#32⟩ ∧
      row index.castSucc = setEntry cpuId index.castSucc (base.setWidth 32) limit 0x89#8 0#8 entries cpuId index.castSucc) ∧
    (∀ (entries : Entries) (cpuId : Fin Architecture.maxCPUs) (index : Fin 8) (base limit : BitVec 32)
      (access granularity : BitVec 8),
      SegmentDescriptor.decode (setEntry cpuId index base limit access granularity entries cpuId index) =
        ⟨base,limit.setWidth 20,access,granularity.extractLsb' 4 4⟩) ∧
    ∀ (idtEntries : BitVec 8 → IDTEntry) (vector : BitVec 8) (isr : Word) (flags : BitVec 8),
      GateDescriptor.decode (setIDTEntry vector isr flags idtEntries vector).gate = ⟨isr,0x08#16,0#3,flags,0#5,0#32⟩ ∧
      ∀ other, other ≠ vector → setIDTEntry vector isr flags idtEntries other = idtEntries other := by
  refine ⟨fun entries cpuId index base limit => ⟨?_,?_⟩,fun entries cpuId index base limit access granularity => ?_,
    fun idtEntries vector isr flags => ⟨?_,fun other different => ?_⟩⟩
  · exact decode_setTSSDescriptor cpuId index base limit entries
  · rw [setTSSDescriptor_low,setEntry_word]
    rfl
  · exact decode_setEntry cpuId index base limit access granularity entries
  · exact decode_setIDTEntry vector isr flags idtEntries
  · exact setIDTEntry_of_ne different isr flags idtEntries

/-- A handler in the kernel half, in a table without a gate. -/
theorem descriptors_decode_kernelHalf :
    let empty : BitVec 8 → IDTEntry := fun _ => ⟨0,0,0,0,0,0,0⟩
    GateDescriptor.decode (setIDTEntry 14#8 0xFFFFFFFF80123456#64 0x8E#8 empty 14#8).gate =
      ⟨0xFFFFFFFF80123456#64,0x08#16,0#3,0x8E#8,0#5,0#32⟩ ∧
    setIDTEntry 14#8 0xFFFFFFFF80123456#64 0x8E#8 empty 13#8 = empty 13#8 := by
  intro empty
  obtain ⟨gate,others⟩ := descriptors_decode.2.2 empty 14#8 0xFFFFFFFF80123456#64 0x8E#8
  exact ⟨gate,others 13#8 (by decide)⟩

namespace GDT

/-- What the processor finds behind a selector. -/
def selected (row : Fin 8 → Word) (selector : BitVec 16) : Option Word :=
  if inside : (selector >>> 3).toNat < 8 then some (row ⟨(selector >>> 3).toNat,inside⟩) else none

theorem selected_code (row : Fin 8 → Word) : selected row 0x08#16 = some (row 1) :=
  dif_pos (by decide : (0x08#16 >>> 3).toNat < 8)

theorem setEntry_of_ne {index other : Fin 8} (different : other ≠ index) (cpuId : Fin Architecture.maxCPUs)
    (base limit : BitVec 32) (access granularity : BitVec 8) (entries : Entries) :
    setEntry cpuId index base limit access granularity entries cpuId other = entries cpuId other :=
  store_of_ne different _ _ _

theorem setTSSDescriptor_of_ne {index : Fin 7} {other : Fin 8} (low : other ≠ index.castSucc) (high : other ≠ index.succ)
    (cpuId : Fin Architecture.maxCPUs) (base : Word) (limit : BitVec 32) (entries : Entries) :
    setTSSDescriptor cpuId index base limit entries cpuId other = entries cpuId other := by
  rw [setTSSDescriptor,store_of_ne high,store_of_ne low]

/-- Later entries leave the task state and the kernel's segments alone. -/
theorem initializeEntries_decode (cpuId : Fin Architecture.maxCPUs) (tssAddress : Word) (entries : Entries) :
    let row := initializeEntries cpuId tssAddress entries cpuId
    SegmentDescriptor.decode (row 1) = ⟨0#32,0xFFFFF#20,0x9A#8,0xA#4⟩ ∧
    SegmentDescriptor.decode (row 2) = ⟨0#32,0xFFFFF#20,0x92#8,0xA#4⟩ ∧
    SystemDescriptor.decode (row 3) (row 4) = ⟨tssAddress,103#20,0x89#8,0#4,0#32⟩ := by
  refine ⟨?_,?_,?_⟩
  · rw [initializeEntries,setEntry_of_ne (by decide),setEntry_of_ne (by decide),setEntry_of_ne (by decide),
      setTSSDescriptor_of_ne (by decide) (by decide),setEntry_of_ne (by decide)]
    exact decode_setEntry cpuId 1 _ _ _ _ _
  · rw [initializeEntries,setEntry_of_ne (by decide),setEntry_of_ne (by decide),setEntry_of_ne (by decide),
      setTSSDescriptor_of_ne (by decide) (by decide)]
    exact decode_setEntry cpuId 2 _ _ _ _ _
  · rw [initializeEntries,setEntry_of_ne (by decide),setEntry_of_ne (by decide),setEntry_of_ne (by decide),
      setEntry_of_ne (by decide),setEntry_of_ne (by decide),setEntry_of_ne (by decide)]
    exact decode_setTSSDescriptor cpuId 3 tssAddress _ _

end GDT

namespace IDT

theorem setGatesFrom_of_lt (isrStubTable : BitVec 8 → Word) (remaining : Nat) {vec : Nat} {vector : BitVec 8}
    (inside : vec + remaining ≤ 256) (below : vector.toNat < vec) (idtEntries : BitVec 8 → IDTEntry) :
    setGatesFrom isrStubTable remaining vec idtEntries vector = idtEntries vector := by
  induction remaining generalizing vec idtEntries with
  | zero => rfl
  | succ remaining ih =>
    have different : vector ≠ BitVec.ofNat 8 vec := by
      intro equal
      rw [equal,BitVec.toNat_ofNat,Nat.mod_eq_of_lt (by omega)] at below
      exact Nat.lt_irrefl vec below
    exact (ih (by omega) (by omega) _).trans (setIDTEntry_of_ne different _ _ _)

theorem setGatesFrom_decode (isrStubTable : BitVec 8 → Word) (remaining vec : Nat) (vector : BitVec 8)
    (inside : vec + remaining ≤ 256) (lower : vec ≤ vector.toNat) (upper : vector.toNat < vec + remaining)
    (idtEntries : BitVec 8 → IDTEntry) :
    GateDescriptor.decode (setGatesFrom isrStubTable remaining vec idtEntries vector).gate =
      ⟨isrStubTable vector,0x08#16,0#3,0x8E#8,0#5,0#32⟩ := by
  induction remaining generalizing vec idtEntries with
  | zero => omega
  | succ remaining ih =>
    rcases Nat.eq_or_lt_of_le lower with reached | later
    · have same : BitVec.ofNat 8 vec = vector := by rw [reached,BitVec.ofNat_toNat,BitVec.setWidth_eq]
      rw [setGatesFrom,setGatesFrom_of_lt isrStubTable remaining (by omega) (by omega),same]
      exact decode_setIDTEntry vector _ _ idtEntries
    · exact ih (vec + 1) (by omega) later (by omega) _

theorem decode_setFaultStack (idtEntries : BitVec 8 → IDTEntry) (fault vector : BitVec 8) :
    GateDescriptor.decode (setFaultStack idtEntries fault vector).gate =
      if vector = fault then { GateDescriptor.decode (idtEntries vector).gate with ist := 1#3, reservedLow := 0#5 }
      else GateDescriptor.decode (idtEntries vector).gate := by
  rw [setFaultStack]
  split_ifs with equal
  · subst equal
    have stack : (1#8).extractLsb' 0 3 = 1#3 := by decide
    have rest : (1#8).extractLsb' 3 5 = 0#5 := by decide
    rw [Function.update_self,IDTEntry.decode_gate,IDTEntry.decode_gate]
    simp only [stack,rest]
  · rw [Function.update_of_ne equal]

theorem decode_faultStacks (faults : List (BitVec 8)) (idtEntries : BitVec 8 → IDTEntry) (vector : BitVec 8) :
    GateDescriptor.decode (faults.foldl setFaultStack idtEntries vector).gate =
      if vector ∈ faults then { GateDescriptor.decode (idtEntries vector).gate with ist := 1#3, reservedLow := 0#5 }
      else GateDescriptor.decode (idtEntries vector).gate := by
  induction faults generalizing idtEntries with
  | nil => exact (if_neg List.not_mem_nil).symm
  | cons fault faults ih =>
    rw [List.foldl_cons,ih,decode_setFaultStack]
    by_cases same : vector = fault
    · simp [same]
    · simp only [same,if_false,List.mem_cons,false_or]

/-- Whatever the table held, each vector leads to its stub, and the three faults to a stack
of their own. -/
theorem initializeGates_decode (isrStubTable : BitVec 8 → Word) (idtEntries : BitVec 8 → IDTEntry) (vector : BitVec 8) :
    GateDescriptor.decode (initializeGates isrStubTable idtEntries vector).gate =
      ⟨isrStubTable vector,0x08#16,if vector ∈ faultVectors then 1#3 else 0#3,0x8E#8,0#5,0#32⟩ := by
  rw [initializeGates,decode_faultStacks,setGatesFrom_decode isrStubTable 256 0 vector (by omega) (by omega) (by omega)]
  split_ifs <;> rfl

end IDT

/-- A gate enters the 64-bit code segment of the kernel on every processor whose table is set. -/
theorem gate_selects_code (isrStubTable : BitVec 8 → Word) (idtEntries : BitVec 8 → IDTEntry) (vector : BitVec 8)
    (cpuId : Fin Architecture.maxCPUs) (tssAddress : Word) (entries : Entries) :
    (selected (initializeEntries cpuId tssAddress entries cpuId)
      (GateDescriptor.decode (initializeGates isrStubTable idtEntries vector).gate).selector).map SegmentDescriptor.decode =
      some ⟨0#32,0xFFFFF#20,0x9A#8,0xA#4⟩ := by
  rw [initializeGates_decode,selected_code,Option.map_some,(initializeEntries_decode cpuId tssAddress entries).1]

end Interrupts

end BorealOS
