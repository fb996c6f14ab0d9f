import BorealOS.Library.ByteObject

/-! `CPU::ReadBrandString`: the brand string as the CPUID leaves deliver it, trimmed in
place in a buffer of 49 bytes. -/
namespace BorealOS.CPU
open ByteObject

/-- `StringUtils::IsCharWhitespace`: blank, `\t`, `\n`, `\v`, `\f` and `\r`. -/
def isCharWhitespace (c : UInt8) : Bool :=
  c == 0x20 || c == 0x09 || c == 0x0A || c == 0x0B || c == 0x0C || c == 0x0D

structure CPUIDResult where
  eax : BitVec 32
  ebx : BitVec 32
  ecx : BitVec 32
  edx : BitVec 32
deriving DecidableEq, Repr

def chunkBytes (chunk : BitVec 32) : List UInt8 :=
  [0,8,16,24].map fun place => UInt8.ofBitVec (chunk.extractLsb' place 8)

/-- The 48 bytes that the loop over the leaves stores into the buffer. -/
def deliveredBytes (cpuid : BitVec 32 → CPUIDResult) : List UInt8 :=
  [0x80000002#32,0x80000003#32,0x80000004#32].flatMap fun leaf =>
    [(cpuid leaf).eax,(cpuid leaf).ebx,(cpuid leaf).ecx,(cpuid leaf).edx].flatMap chunkBytes

/-- The loop that ends the string, with `charIndex` one less than the argument. -/
def eliminateTrailing (buffer : List UInt8) : Nat → Except Fault (List UInt8)
  | 0 => .ok buffer
  | charIndex + 1 => do
    let c ← Pointer.read ⟨buffer,0⟩ charIndex
    if c = 0 ∨ isCharWhitespace c then
      let buffer ← write buffer charIndex 0
      eliminateTrailing buffer charIndex
    else .ok buffer

def findStart (buffer : List UInt8) : (rounds : Nat) → (startIndex : BitVec 8) → Except Fault (BitVec 8)
  | 0, _ => .error .endlessLoop
  | rounds + 1, startIndex => do
    let c ← Pointer.read ⟨buffer,0⟩ startIndex.toNat
    if c ≠ 0 ∧ isCharWhitespace c then findStart buffer rounds (startIndex + 1#8)
    else .ok startIndex

/-- The loop that shifts the text; it never moves `startIndex`. -/
def shiftLoop (startIndex : BitVec 8) :
    (rounds : Nat) → (buffer : List UInt8) → (shiftIndex : BitVec 8) → Except Fault (List UInt8 × BitVec 8)
  | 0, _, _ => .error .endlessLoop
  | rounds + 1, buffer, shiftIndex => do
    let c ← Pointer.read ⟨buffer,0⟩ (startIndex.toNat + 1)
    if c ≠ 0 then
      let buffer ← write buffer shiftIndex.toNat c
      shiftLoop startIndex rounds buffer (shiftIndex + 1#8)
    else .ok (buffer,shiftIndex)

def eliminateLeading (rounds : Nat) (buffer : List UInt8) : Except Fault (List UInt8) := do
  let startIndex ← findStart buffer rounds 0#8
  if 0#8 < startIndex then
    let (buffer,shiftIndex) ← shiftLoop startIndex rounds buffer 0#8
    write buffer shiftIndex.toNat 0
  else .ok buffer

/-- No loop of a run without a fault makes more than `rounds` rounds. -/
def readBrandString (rounds : Nat) (cpuid : BitVec 32 → CPUIDResult) (buffer : List UInt8) :
    Except Fault (List UInt8) := do
  let buffer := deliveredBytes cpuid ++ buffer.drop 48
  let buffer ← write buffer 48 0
  let buffer ← eliminateTrailing buffer 48
  eliminateLeading rounds buffer

def isTrailing (c : UInt8) : Bool := c == 0 || isCharWhitespace c

theorem length_deliveredBytes (cpuid : BitVec 32 → CPUIDResult) : (deliveredBytes cpuid).length = 48 := by
  simp [deliveredBytes,chunkBytes]

theorem read_append (front : List UInt8) (c : UInt8) (back : List UInt8) :
    Pointer.read ⟨front ++ c::back,0⟩ front.length = .ok c := by
  simp [Pointer.read]

theorem eliminateTrailing_eq (front back : List UInt8) :
    eliminateTrailing (front ++ back) front.length =
      .ok (front.rdropWhile isTrailing ++ List.replicate (front.length - (front.rdropWhile isTrailing).length) 0 ++ back) := by
  induction front using List.reverseRecOn generalizing back with
  | nil => rfl
  | append_singleton front c ih =>
    have shorter := (List.rdropWhile_prefix isTrailing (l := front)).length_le
    rw [List.append_assoc,List.singleton_append,List.length_append,List.length_singleton,eliminateTrailing,read_append,ok_bind]
    by_cases trailing : isTrailing c = true
    · have taken : c = 0 ∨ isCharWhitespace c = true := by simpa [isTrailing] using trailing
      have count : front.length + 1 - (front.rdropWhile isTrailing).length =
          front.length - (front.rdropWhile isTrailing).length + 1 := by omega
      rw [if_pos taken,write_append,ok_bind,ih,List.rdropWhile_concat_pos _ _ _ trailing,count,List.replicate_succ']
      simp
    · have kept : ¬ (c = 0 ∨ isCharWhitespace c = true) := by simpa [isTrailing] using trailing
      rw [if_neg kept,List.rdropWhile_concat_neg _ _ _ trailing]
      simp

theorem rdropWhile_isTrailing {chars : List UInt8} (plain : 0 ∉ chars) (count : Nat) :
    (chars ++ List.replicate count 0).rdropWhile isTrailing = chars.rdropWhile isCharWhitespace := by
  induction count with
  | zero =>
    simp only [List.replicate_zero,List.append_nil]
    induction chars using List.reverseRecOn with
    | nil => rfl
    | append_singleton chars c ih =>
      simp only [List.mem_append,List.mem_singleton,not_or] at plain
      have same : isTrailing c = isCharWhitespace c := by simp [isTrailing,Ne.symm plain.2]
      rw [List.rdropWhile_concat,List.rdropWhile_concat,same,ih plain.1]
  | succ count ih =>
    rw [List.replicate_succ',← List.append_assoc,List.rdropWhile_concat_pos _ _ _ rfl,ih]

theorem findStart_eq {front : List UInt8} (blank : ∀ c ∈ front, c ≠ 0 ∧ isCharWhitespace c = true) {c : UInt8}
    (stop : ¬ (c ≠ 0 ∧ isCharWhitespace c = true)) (back done : List UInt8) (rounds : Nat)
    (small : (done ++ front).length < 256) :
    findStart (done ++ front ++ c::back) rounds (BitVec.ofNat 8 done.length) =
      if front.length < rounds then .ok (BitVec.ofNat 8 (done ++ front).length) else .error .endlessLoop := by
  have index : (BitVec.ofNat 8 done.length).toNat = done.length := by
    rw [List.length_append] at small
    rw [BitVec.toNat_ofNat]
    omega
  induction front generalizing done rounds with
  | nil =>
    cases rounds with
    | zero => rfl
    | succ rounds => simp only [findStart,index,List.append_nil,read_append,ok_bind,if_neg stop,List.length_nil,Nat.succ_pos,if_true]
  | cons first front ih =>
    cases rounds with
    | zero => rfl
    | succ rounds =>
      have moved : BitVec.ofNat 8 done.length + 1#8 = BitVec.ofNat 8 (done ++ [first]).length := by
        rw [List.length_append,List.length_singleton,BitVec.ofNat_add]
      have shape : done ++ first::front = done ++ [first] ++ front := by simp
      have nextIndex : (BitVec.ofNat 8 (done ++ [first]).length).toNat = (done ++ [first]).length := by
        rw [shape,List.length_append] at small
        rw [BitVec.toNat_ofNat]
        omega
      have rest := ih (fun d member => blank d (by simp [member])) (done ++ [first]) rounds (shape ▸ small) nextIndex
      rw [findStart,index,List.append_assoc,List.cons_append,read_append,ok_bind,if_pos (blank first (by simp)),moved]
      rw [← shape,List.append_assoc,List.cons_append] at rest
      simpa only [List.length_cons,Nat.succ_lt_succ_iff] using rest

/-- Once the shifting loop runs it reads the same character again and again, and writes
on until it leaves the buffer. -/
theorem shiftLoop_faults {startIndex : BitVec 8} {c : UInt8} (nonzero : c ≠ 0) (rounds : Nat) (buffer : List UInt8)
    (shiftIndex : BitVec 8) (here : buffer[startIndex.toNat + 1]? = some c) :
    ∃ fault, shiftLoop startIndex rounds buffer shiftIndex = .error fault := by
  induction rounds generalizing buffer shiftIndex with
  | zero => exact ⟨.endlessLoop,rfl⟩
  | succ rounds ih =>
    have read : Pointer.read ⟨buffer,0⟩ (startIndex.toNat + 1) = .ok c := Pointer.read_of_some here
    rw [shiftLoop,read,ok_bind,if_pos nonzero]
    by_cases inside : shiftIndex.toNat < buffer.length
    · rw [write,if_pos inside,ok_bind]
      apply ih
      -- a write to the place that is read leaves the same character there
      by_cases same : shiftIndex.toNat = startIndex.toNat + 1
      · rw [← same,List.getElem?_set_self inside]
      · rw [List.getElem?_set_ne same,here]
    · rw [write,if_neg inside]
      exact ⟨.outOfBounds,rfl⟩

theorem eliminateLeading_ok {buffer : List UInt8} {c : UInt8} {back : List UInt8} (shape : buffer = c::back)
    (stop : ¬ (c ≠ 0 ∧ isCharWhitespace c = true)) : eliminateLeading 1 buffer = .ok buffer := by
  have start : findStart buffer 1 0#8 = .ok 0#8 := by
    have read : Pointer.read ⟨buffer,0⟩ 0 = .ok c := by rw [shape]; rfl
    simp only [findStart,BitVec.toNat_ofNat,Nat.zero_mod,read,ok_bind,if_neg stop]
  simp [eliminateLeading,start]

/-- A text that begins with whitespace and has another character is lost: the loop runs
away, or a single character is overwritten by the terminator. -/
theorem eliminateLeading_loses {spaces rest : List UInt8} {c : UInt8} (nonempty : spaces ≠ [])
    (blank : ∀ d ∈ spaces, d ≠ 0 ∧ isCharWhitespace d = true) (letter : isCharWhitespace c = false)
    (nonzero : ∀ d ∈ rest, d ≠ 0) (small : spaces.length < 256) (zeros rounds : Nat) {final : List UInt8}
    (result : eliminateLeading rounds (spaces ++ c::(rest ++ List.replicate (zeros + 1) 0)) = .ok final) :
    final.takeWhile (· ≠ 0) = [] := by
  have length : (BitVec.ofNat 8 spaces.length).toNat = spaces.length := by
    rw [BitVec.toNat_ofNat]
    omega
  have moved : 0#8 < BitVec.ofNat 8 spaces.length := by
    rw [BitVec.lt_def,length]
    exact List.length_pos_iff.mpr nonempty
  have start := findStart_eq blank (by simp [letter] : ¬ (c ≠ 0 ∧ isCharWhitespace c = true))
    (rest ++ List.replicate (zeros + 1) 0) [] rounds small
  simp only [List.nil_append,List.length_nil] at start
  rw [eliminateLeading,start] at result
  split at result
  · rename_i enough
    obtain ⟨rounds,rfl⟩ := Nat.exists_eq_succ_of_ne_zero (by omega : rounds ≠ 0)
    rw [ok_bind,if_pos moved] at result
    cases rest with
    | nil =>
      have read : Pointer.read ⟨spaces ++ c::([] ++ List.replicate (zeros + 1) 0),0⟩ (spaces.length + 1) = .ok 0 := by
        simp [Pointer.read,List.replicate_succ]
      obtain ⟨first,spaces,rfl⟩ := List.exists_cons_of_ne_nil nonempty
      rw [shiftLoop,length,read] at result
      simp [write] at result
      simp [← result]
    | cons d rest =>
      obtain ⟨fault,runs⟩ := shiftLoop_faults (nonzero d (by simp)) (rounds + 1)
        (spaces ++ c::(d::rest ++ List.replicate (zeros + 1) 0)) 0#8 (by rw [length]; simp)
      rw [runs] at result
      simp at result
  · simp at result

def trimmed (chars : List UInt8) : List UInt8 := (chars.rdropWhile isCharWhitespace).dropWhile isCharWhitespace

/-- The 49 bytes hold a NUL-terminated string, the trimmed text. -/
structure Holds (buffer text : List UInt8) : Prop where
  size : buffer.length = 49
  ended : 0 ∈ buffer
  string : buffer.takeWhile (· ≠ 0) = trimmed text

theorem trimmed_of_letter {chars : List UInt8} (front : ∀ c ∈ (chars.rdropWhile isCharWhitespace).head?, isCharWhitespace c = false) :
    trimmed chars = chars.rdropWhile isCharWhitespace := by
  unfold trimmed
  cases body : chars.rdropWhile isCharWhitespace with
  | nil => rfl
  | cons c rest =>
    have letter : isCharWhitespace c = false := front c (by rw [body]; rfl)
    rw [List.dropWhile_cons_of_neg (by simp [letter])]

theorem trimmed_of_blank {chars : List UInt8} {first : UInt8} (begins : (chars.rdropWhile isCharWhitespace).head? = some first)
    (blank : isCharWhitespace first = true) :
    ∃ spaces c rest, spaces ≠ [] ∧ (∀ d ∈ spaces, isCharWhitespace d = true) ∧ isCharWhitespace c = false ∧
      chars.rdropWhile isCharWhitespace = spaces ++ c::rest ∧ trimmed chars = c::rest := by
  obtain ⟨tail,cons⟩ := List.head?_eq_some_iff.mp begins
  have nonempty : chars.rdropWhile isCharWhitespace ≠ [] := by simp [cons]
  have kept : trimmed chars ≠ [] := by
    intro empty
    have all := List.dropWhile_eq_nil_iff.mp empty
    exact List.rdropWhile_last_not isCharWhitespace chars nonempty (all _ (List.getLast_mem nonempty))
  obtain ⟨c,rest,shape⟩ := List.exists_cons_of_ne_nil kept
  have letter := List.head?_dropWhile_not isCharWhitespace (chars.rdropWhile isCharWhitespace)
  have split := (List.takeWhile_append_dropWhile (p := isCharWhitespace) (l := chars.rdropWhile isCharWhitespace)).symm
  rw [← trimmed,shape] at split letter
  refine ⟨_,c,rest,?_,fun d => List.mem_takeWhile_imp,letter,split,shape⟩
  rw [cons,List.takeWhile_cons_of_pos blank]
  exact List.cons_ne_nil _ _

section Text

variable {cpuid : BitVec 32 → CPUIDResult} {chars : List UInt8} {count : Nat}
  (delivered : deliveredBytes cpuid = chars ++ List.replicate count 0) (plain : 0 ∉ chars)
  {buffer : List UInt8} (size : buffer.length = 49)
include delivered plain size

theorem readBrandString_eq (rounds : Nat) :
    ∃ zeros, (chars.rdropWhile isCharWhitespace).length + zeros = 48 ∧ readBrandString rounds cpuid buffer =
      eliminateLeading rounds (chars.rdropWhile isCharWhitespace ++ List.replicate (zeros + 1) 0) := by
  obtain ⟨last,single⟩ := List.length_eq_one_iff.mp (by rw [List.length_drop,size] : (buffer.drop 48).length = 1)
  have length := length_deliveredBytes cpuid
  have written : write (deliveredBytes cpuid ++ [last]) 48 0 = .ok (deliveredBytes cpuid ++ [0]) := by
    rw [← length]
    exact write_append _ _ _ _
  have first := eliminateTrailing_eq (deliveredBytes cpuid) [0]
  have shorter := (List.rdropWhile_prefix isTrailing (deliveredBytes cpuid)).length_le
  rw [length,delivered,rdropWhile_isTrailing plain,← delivered] at first
  rw [delivered,rdropWhile_isTrailing plain,← delivered,length] at shorter
  refine ⟨48 - (chars.rdropWhile isCharWhitespace).length,by omega,?_⟩
  rw [readBrandString,single,written,ok_bind,first,ok_bind,List.replicate_succ',List.append_assoc]

omit delivered size in
private theorem nonzero_of_kept : ∀ c ∈ chars.rdropWhile isCharWhitespace, c ≠ 0 := by
  intro c member zero
  exact plain (zero ▸ (List.rdropWhile_prefix isCharWhitespace chars).subset member)

theorem readBrandString_holds
    (front : ∀ c ∈ (chars.rdropWhile isCharWhitespace).head?, isCharWhitespace c = false) :
    ∃ rounds final, readBrandString rounds cpuid buffer = .ok final ∧ Holds final chars := by
  obtain ⟨zeros,total,run⟩ := readBrandString_eq delivered plain size 1
  have nonzero := nonzero_of_kept plain
  have same := trimmed_of_letter front
  generalize chars.rdropWhile isCharWhitespace = body at *
  have stays : eliminateLeading 1 (body ++ List.replicate (zeros + 1) 0) = .ok (body ++ List.replicate (zeros + 1) 0) := by
    cases body with
    | nil => exact eliminateLeading_ok List.replicate_succ (by simp)
    | cons c rest => exact eliminateLeading_ok (List.cons_append) (by simp [front c rfl])
  refine ⟨1,_,run.trans stays,by simp; omega,by simp,?_⟩
  rw [same,List.takeWhile_append_of_pos (fun c member => decide_eq_true (nonzero c member)),List.replicate_succ]
  simp

theorem readBrandString_not_holds {first : UInt8} (begins : (chars.rdropWhile isCharWhitespace).head? = some first)
    (blank : isCharWhitespace first = true) :
    ¬ ∃ rounds final, readBrandString rounds cpuid buffer = .ok final ∧ Holds final chars := by
  rintro ⟨rounds,final,result,holds⟩
  obtain ⟨zeros,total,run⟩ := readBrandString_eq delivered plain size rounds
  have nonzero := nonzero_of_kept plain
  obtain ⟨spaces,c,rest,nonempty,blanks,letter,body,text⟩ := trimmed_of_blank begins blank
  rw [body] at run total nonzero
  rw [List.length_append] at total
  rw [List.append_assoc,List.cons_append,result] at run
  have empty := eliminateLeading_loses nonempty
    (fun d member => ⟨nonzero d (List.mem_append_left _ member),blanks d member⟩) letter
    (fun d member => nonzero d (by simp [member])) (by omega) zeros rounds run.symm
  rw [holds.string,text] at empty
  exact List.cons_ne_nil _ _ empty

/-- `ReadBrandString` leaves the trimmed text unless the text begins with whitespace that
is followed by another character. -/
theorem readBrandString_trims_iff :
    (∃ rounds final, readBrandString rounds cpuid buffer = .ok final ∧ Holds final chars) ↔
      (∀ c ∈ chars.head?, isCharWhitespace c = false) ∨ ∀ c ∈ chars, isCharWhitespace c = true := by
  have front := List.rdropWhile_prefix isCharWhitespace chars
  cases body : (chars.rdropWhile isCharWhitespace).head? with
  | none =>
    have blank := List.rdropWhile_eq_nil_iff.mp (List.head?_eq_none_iff.mp body)
    exact ⟨fun _ => Or.inr blank,fun _ => readBrandString_holds delivered plain size (by simp [body])⟩
  | some first =>
    have begins : chars.head? = some first := by
      obtain ⟨tail,cons⟩ := List.head?_eq_some_iff.mp body
      obtain ⟨rest,whole⟩ := front
      rw [← whole,cons]
      rfl
    have visible : ¬ ∀ c ∈ chars, isCharWhitespace c = true := by
      intro blank
      rw [List.rdropWhile_eq_nil_iff.mpr blank] at body
      simp at body
    cases blank : isCharWhitespace first with
    | false => exact ⟨fun _ => Or.inl (by simp [begins,blank]),fun _ => readBrandString_holds delivered plain size (by simp [body,blank])⟩
    | true =>
      refine ⟨fun holds => absurd holds (readBrandString_not_holds delivered plain size body blank),?_⟩
      rintro (letter | all)
      · exact absurd (letter first begins) (by simp [blank])
      · exact absurd all visible

end Text

def shortBrand (word : BitVec 32) (leaf : BitVec 32) : CPUIDResult :=
  if leaf = 0x80000002#32 then ⟨word,0#32,0#32,0#32⟩ else ⟨0#32,0#32,0#32,0#32⟩

/-- The delivered text is `AMD` with a blank at its end. -/
theorem readBrandString_trims_end :
    ∃ rounds final, readBrandString rounds (shortBrand 0x20444D41#32) (List.replicate 49 0xFF) = .ok final ∧
      Holds final [0x41,0x4D,0x44,0x20] := by
  have delivered : deliveredBytes (shortBrand 0x20444D41#32) = [0x41,0x4D,0x44,0x20] ++ List.replicate 44 0 := by decide
  exact (readBrandString_trims_iff delivered (by decide) List.length_replicate).mpr (Or.inl (by simp [isCharWhitespace]))

/-- With a blank before `AMD` the shifting loop writes past the buffer. -/
theorem readBrandString_runs_away :
    deliveredBytes (shortBrand 0x444D4120#32) = [0x20,0x41,0x4D,0x44] ++ List.replicate 44 0 ∧
      readBrandString 256 (shortBrand 0x444D4120#32) (List.replicate 49 0xFF) = .error .outOfBounds ∧
      ¬ ∃ rounds final, readBrandString rounds (shortBrand 0x444D4120#32) (List.replicate 49 0xFF) = .ok final ∧
        Holds final [0x20,0x41,0x4D,0x44] := by
  have delivered : deliveredBytes (shortBrand 0x444D4120#32) = [0x20,0x41,0x4D,0x44] ++ List.replicate 44 0 := by decide
  refine ⟨delivered,by decide +kernel,?_⟩
  exact readBrandString_not_holds delivered (by decide) List.length_replicate rfl (by decide)

end BorealOS.CPU
