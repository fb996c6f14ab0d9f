import BorealOS.Library.Numeral
import BorealOS.Utility.ParseGrammar
import BorealOS.Utility.Writer

/-! Numbers as text. What `WriteUnsigned` writes is the numeral of the number in the
given base, and `Parse` reads the written texts back, for every 64-bit value. -/
namespace BorealOS.Utility.Formatter

open ByteObject Execution Numeral

def digitByte (digit : Nat) : UInt8 := digits.bytes[digit]?.getD 0

theorem digitByte_known : ∀ digit < 16, digits.bytes[digit]? = some (digitByte digit) ∧
    digitValue (digitByte digit) = digit ∧ ((digitByte digit).toNat : Int) - 32 ≤ 94 := by
  decide

theorem digitByte_zero : digitByte 0 = '0'.toUInt8 := rfl

theorem read_digits {digit : Nat} (small : digit < 16) : digits.read digit = .ok (digitByte digit) :=
  Pointer.read_of_some (digitByte_known digit small).1

theorem writeChar_digit {digit : Nat} (small : digit < 16) : writeChar (digitByte digit) = outText [digitByte digit] :=
  if_pos (Or.inl (digitByte_known digit small).2.2)

def textOf (base n : Nat) : List UInt8 := (numeral base n).map digitByte

theorem writeDigits (written : List UInt8) (list : List Nat) (small : ∀ digit ∈ list, digit < 16) :
    runAll writeChar (list.map digitByte) written = .ok () (written ++ list.map digitByte) := by
  induction list generalizing written with
  | nil => simp [runAll]
  | cons digit list ih =>
    rw [List.forall_mem_cons] at small
    have first : writeChar (digitByte digit) written = .ok () (written ++ [digitByte digit]) := by
      rw [writeChar_digit small.1]
      rfl
    rw [List.map_cons,runAll_cons_of_ok writeChar first,ih _ small.2,List.append_assoc]
    rfl

section Base
variable {base : Word} (large : 2 ≤ base.toNat) (known : base.toNat ≤ 16)
include large known

theorem storeDigits_eq (room : Nat) (value : Word) (tmp : List UInt8)
    (fits : (Nat.digits base.toNat value.toNat).length ≤ room) :
    storeDigits base room value tmp = .ok ((Nat.digits base.toNat value.toNat).reverse.map digitByte ++ tmp) := by
  have ends : ∀ value : Word, ¬ 0 < value → value = 0 := by
    intro value none
    apply BitVec.eq_of_toNat_eq
    have : ¬ 0 < value.toNat := none
    simpa using this
  induction room generalizing value tmp with
  | zero =>
    have empty : Nat.digits base.toNat value.toNat = [] := List.eq_nil_of_length_eq_zero (Nat.le_zero.mp fits)
    have none : value.toNat = 0 := Nat.digits_eq_nil_iff_eq_zero.mp empty
    have stops : ¬ 0 < value := by
      rw [BitVec.lt_def,none]
      exact Nat.lt_irrefl 0
    rw [storeDigits,if_neg stops,empty]
    rfl
  | succ room ih =>
    rw [storeDigits]
    by_cases more : 0 < value
    · have positive : 0 < value.toNat := more
      have split := Nat.digits_def' (show 1 < base.toNat by omega) positive
      have digit : (value % base).toNat = value.toNat % base.toNat := BitVec.toNat_umod
      have rest : (value / base).toNat = value.toNat / base.toNat := BitVec.toNat_udiv
      have small : value.toNat % base.toNat < 16 := Nat.lt_of_lt_of_le (Nat.mod_lt _ (by omega)) known
      rw [split,List.length_cons] at fits
      rw [if_pos more,digit,read_digits small,ok_bind,ih (value / base) _ (by rw [rest]; omega),rest,split]
      simp
    · rw [if_neg more,ends value more]
      simp

theorem writeUnsigned_eq (value : Word) (written : List UInt8) :
    writeUnsigned value base written = .ok () (written ++ textOf base.toNat value.toNat) := by
  have whole := numeral_isNumeral (show 1 < base.toNat by omega) value.toNat
  have small : ∀ digit ∈ numeral base.toNat value.toNat, digit < 16 := fun digit member =>
    Nat.lt_of_lt_of_le (whole.bounded digit member) known
  rw [writeUnsigned]
  by_cases zero : value = 0
  · rw [if_pos zero,zero,← digitByte_zero,writeChar_digit (by decide)]
    rfl
  · have positive : value.toNat ≠ 0 := fun none => zero (BitVec.eq_of_toNat_eq (by simpa using none))
    have fits : (Nat.digits base.toNat value.toNat).length ≤ 64 := by
      apply (Nat.digits_length_le_iff (by omega) _).mpr
      exact Nat.lt_of_lt_of_le value.isLt (Nat.pow_le_pow_left large 64)
    rw [if_neg zero,storeDigits_eq large known 64 value [] fits,bind_of_ok (checked_ok _ written),List.append_nil,textOf]
    rw [numeral_pos positive] at small ⊢
    exact writeDigits written _ small

end Base

theorem textOf_ne_nil {base : Nat} (large : 2 ≤ base) (n : Nat) : textOf base n ≠ [] := fun none =>
  (numeral_isNumeral large n).nonempty (List.map_eq_nil_iff.mp none)

theorem spelled_textOf {base : Nat} (large : 2 ≤ base) (known : base ≤ 16) (n : Nat) :
    Spelled base (textOf base n) (numeral base n) := by
  have whole := numeral_isNumeral large n
  apply List.forall₂_map_left_iff.mpr
  apply List.forall₂_same.mpr
  intro digit member
  have small := whole.bounded digit member
  exact ⟨(digitValue_eq_iff _ _).mp (digitByte_known digit (by omega)).2.1,small⟩

theorem uint64Of_decimal (value : Word) : uint64Of (textOf 10 value.toNat) = some value := by
  have unsigned := UnsignedText.decimal (textOf_ne_nil (by decide) value.toNat) (spelled_textOf (by decide) (by decide) value.toNat)
  rw [uint64Of_eq_some_iff]
  rwa [(numeral_isNumeral (by decide) value.toNat).reads] at unsigned

theorem uint64Of_hexadecimal (value : Word) : uint64Of (ascii ['0','x'] ++ textOf 16 value.toNat) = some value := by
  have unsigned := UnsignedText.hexadecimal (Or.inl rfl) (textOf_ne_nil (by decide) value.toNat)
    (spelled_textOf (by decide) (by decide) value.toNat)
  rw [uint64Of_eq_some_iff]
  rwa [(numeral_isNumeral (by decide) value.toNat).reads] at unsigned

def signedText (value : Word) : List UInt8 :=
  if value.toInt < 0 then ascii ['-'] ++ textOf 10 (-value).toNat else textOf 10 value.toNat

theorem int64Of_signedText (value : Word) : int64Of (signedText value) = some value.toInt := by
  have bits := value.isLt
  have signed := BitVec.toInt_eq_toNat_cond value
  have range : InRange value.toInt := by
    unfold InRange
    split at signed <;> omega
  have reads : ∀ n, Numeral.value 10 (numeral 10 n) = n := fun n => (numeral_isNumeral (by decide) n).reads
  have spelled : ∀ n, Spelled 10 (textOf 10 n) (numeral 10 n) := spelled_textOf (by decide) (by decide)
  rw [int64Of_eq_some_iff,signedText]
  refine ⟨?_,range⟩
  split
  · rename_i negative
    have minus := SignedText.minus (textOf_ne_nil (by decide) (-value).toNat) (spelled (-value).toNat)
    have back : -((-value).toNat : Int) = value.toInt := by
      rw [BitVec.toNat_neg]
      split at signed <;> omega
    rwa [reads,back] at minus
  · rename_i positive
    have plain := SignedText.plain (textOf_ne_nil (by decide) value.toNat) (spelled value.toNat)
    have back : (value.toNat : Int) = value.toInt := by
      split at signed <;> omega
    rwa [reads,back] at plain

theorem writeSigned_eq (value : Word) (written : List UInt8) :
    writeSigned value written = .ok () (written ++ signedText value) := by
  have ten : 2 ≤ (10 : Word).toNat ∧ (10 : Word).toNat ≤ 16 := by decide
  rw [writeSigned,signedText]
  split
  · rw [bind_of_ok (outText_apply _ written),writeUnsigned_eq ten.1 ten.2,List.append_assoc]
    rfl
  · exact writeUnsigned_eq ten.1 ten.2 value written

/-- The text is a numeral of the number without leading zeros. -/
def NumeralText (base n : Nat) (text : List UInt8) : Prop := ∃ list, IsNumeral base n list ∧ text = list.map digitByte

/-- Whatever view shows the text, it is accepted and gives the value. -/
def Parses {α : Type} (parse : StringView → α → Except Fault (Bool × α)) (text : List UInt8) (value : α) : Prop :=
  ∀ src : StringView, src.Readable → src.text = text → ∀ old, parse src old = .ok (true,value)

theorem parses_uint64 {text : List UInt8} {value : Word} (reads : uint64Of text = some value) :
    Parses parseUInt64 text value := by
  intro src readable shows old
  rw [parseUInt64_text readable,shows,reads]
  rfl

/-- Numbers are written as their numerals, and parsing what `WriteValue` writes gives
the value back. -/
theorem numbers_print_and_parse (floats : FloatWriter) (value base : Word) (large : 2 ≤ base.toNat)
    (known : base.toNat ≤ 16) (written : List UInt8) :
    (∃ text, writeUnsigned value base written = .ok () (written ++ text) ∧ NumeralText base.toNat value.toNat text ∧
      (∀ other, NumeralText base.toNat value.toNat other → other = text) ∧ text.length ≤ 64) ∧
    (∃ text, writeValue floats (.uint64 value) written = .ok () (written ++ text) ∧ Parses parseUInt64 text value) ∧
    (∃ text, writeValue floats (.pointer value) written = .ok () (written ++ text) ∧ Parses parseUInt64 text value) ∧
    (∃ text, writeValue floats (.int64 value) written = .ok () (written ++ text) ∧
      Parses parseInt64 text value.toInt) := by
  have ten : 2 ≤ (10 : Word).toNat ∧ (10 : Word).toNat ≤ 16 := by decide
  have sixteen : 2 ≤ (16 : Word).toNat ∧ (16 : Word).toNat ≤ 16 := by decide
  refine ⟨⟨_,writeUnsigned_eq large known value written,⟨_,numeral_isNumeral large _,rfl⟩,?_,?_⟩,
    ⟨_,writeUnsigned_eq ten.1 ten.2 value written,parses_uint64 (uint64Of_decimal value)⟩,
    ⟨ascii ['0','x'] ++ textOf 16 value.toNat,?_,parses_uint64 (uint64Of_hexadecimal value)⟩,
    ⟨_,writeSigned_eq value written,?_⟩⟩
  · rintro other ⟨list,numeral,rfl⟩
    rw [numeral.eq_numeral large]
    rfl
  · rw [textOf,List.length_map]
    exact length_numeral_le large (by decide) (Nat.lt_of_lt_of_le value.isLt (Nat.pow_le_pow_left large 64))
  · rw [writeValue,bind_of_ok (outText_apply _ written),writeUnsigned_eq sixteen.1 sixteen.2,List.append_assoc]
    rfl
  · intro src readable shows old
    rw [parseInt64_text readable,shows,int64Of_signedText]
    rfl

/-- The least 64-bit integer is written and read back. -/
theorem numbers_print_and_parse_minimum : 2 ≤ (16 : Word).toNat ∧ (16 : Word).toNat ≤ 16 ∧
    ∃ text, writeValue ⟨fun _ => pure (),fun _ => pure ()⟩ (.int64 0x8000000000000000) [] = .ok () text ∧
      Parses parseInt64 text (-2^63) := by
  have large : 2 ≤ (16 : Word).toNat := by decide
  have known : (16 : Word).toNat ≤ 16 := by decide
  obtain ⟨_,_,_,text,wrote,parses⟩ :=
    numbers_print_and_parse ⟨fun _ => pure (),fun _ => pure ()⟩ 0x8000000000000000 16 large known []
  exact ⟨large,known,text,wrote,parses⟩

end BorealOS.Utility.Formatter
