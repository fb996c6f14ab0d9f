import BorealOS.Library.Numeral
import BorealOS.Utility.Formatter

/-! The grammars of `Parse` for `uint64_t` and `int64_t`. The digit loop reads exactly
the numerals whose number has 64 bits, and its arithmetic never wraps. -/
namespace BorealOS.Utility.Formatter

open ByteObject Numeral

/-- The byte is the digit: a decimal one, or a letter of either case. -/
def DigitOf (c : UInt8) (d : Nat) : Prop :=
  (d < 10 ∧ c.toNat = '0'.toNat + d) ∨
    (10 ≤ d ∧ d < 16 ∧ (c.toNat + 10 = 'a'.toNat + d ∨ c.toNat + 10 = 'A'.toNat + d))

theorem digitValue_eq_iff (c : UInt8) (d : Nat) : digitValue c = d ↔ DigitOf c d := by
  have zero : '0'.toNat = 48 ∧ '0'.toUInt8.toNat = 48 ∧ '9'.toUInt8.toNat = 57 := by decide
  have lower : 'a'.toNat = 97 ∧ 'a'.toUInt8.toNat = 97 ∧ 'f'.toUInt8.toNat = 102 := by decide
  have upper : 'A'.toNat = 65 ∧ 'A'.toUInt8.toNat = 65 ∧ 'F'.toUInt8.toNat = 70 := by decide
  unfold digitValue DigitOf
  simp only [UInt8.le_iff_toNat_le,zero,lower,upper]
  split_ifs
  · omega
  · omega
  · omega
  · rw [false_iff]
    omega

theorem DigitOf.unique {c : UInt8} {d e : Nat} (digit : DigitOf c d) (other : DigitOf c e) : d = e := by
  rw [← digitValue_eq_iff] at digit other
  omega

theorem digitValue_neg_iff (c : UInt8) : digitValue c < 0 ↔ ∀ d, ¬ DigitOf c d := by
  constructor
  · intro negative d digit
    rw [← digitValue_eq_iff] at digit
    omega
  · intro none
    by_contra positive
    exact none (digitValue c).toNat ((digitValue_eq_iff c _).mp (by omega))

section Base
variable {base : Word} (large : 2 ≤ base.toNat) (known : base.toNat ≤ 16)
include large known

theorem addDigit_of_digit {result : Word} {c : UInt8} {d : Nat} (digit : DigitOf c d) : addDigit base result c =
    if d < base.toNat ∧ result.toNat * base.toNat + d < 2^64 then some (BitVec.ofNat 64 (result.toNat * base.toNat + d))
    else none := by
  have value := (digitValue_eq_iff c d).mpr digit
  have small : d < 16 := by
    unfold DigitOf at digit
    omega
  have bits : (BitVec.ofInt 64 (d : Int)).toNat = d := by
    rw [BitVec.ofInt_natCast]
    exact Nat.mod_eq_of_lt (by omega)
  have inBase : ((d : Int) < 0 ∨ base ≤ BitVec.ofInt 64 (d : Int)) ↔ base.toNat ≤ d := by
    rw [BitVec.le_def,bits]
    omega
  have room : ((BitVec.allOnes 64 - BitVec.ofInt 64 (d : Int)) / base < result) ↔ 2^64 ≤ result.toNat * base.toNat + d := by
    rw [BitVec.lt_def,BitVec.toNat_udiv,BitVec.toNat_sub_of_le (by rw [BitVec.le_def,bits,BitVec.toNat_allOnes]; omega),
      bits,BitVec.toNat_allOnes,Nat.div_lt_iff_lt_mul (by omega)]
    omega
  have sum : result * base + BitVec.ofInt 64 (d : Int) = BitVec.ofNat 64 (result.toNat * base.toNat + d) := by
    apply BitVec.eq_of_toNat_eq
    rw [BitVec.toNat_add,BitVec.toNat_mul,bits]
    simp
  simp only [addDigit,value,inBase,room,sum]
  by_cases inside : d < base.toNat
  · rw [if_neg (Nat.not_le_of_lt inside)]
    by_cases fits : result.toNat * base.toNat + d < 2^64
    · rw [if_neg (Nat.not_le_of_lt fits),if_pos ⟨inside,fits⟩]
    · rw [if_pos (Nat.le_of_not_lt fits),if_neg fun both => fits both.2]
  · rw [if_pos (Nat.le_of_not_lt inside),if_neg fun both => inside both.1]

theorem addDigit_eq_some_iff {result next : Word} {c : UInt8} : addDigit base result c = some next ↔
    ∃ d < base.toNat, DigitOf c d ∧ next.toNat = result.toNat * base.toNat + d := by
  by_cases digit : ∃ d, DigitOf c d
  · obtain ⟨d,digit⟩ := digit
    rw [addDigit_of_digit large known digit]
    constructor
    · intro added
      obtain ⟨⟨inside,fits⟩,made⟩ := Option.ite_none_right_eq_some.mp added
      rw [← Option.some.inj made]
      exact ⟨d,inside,digit,Nat.mod_eq_of_lt fits⟩
    · rintro ⟨e,inside,other,total⟩
      have bound := next.isLt
      obtain rfl := digit.unique other
      rw [if_pos ⟨inside,by omega⟩,Option.some.injEq,← total]
      exact BitVec.ofNat_toNat 64 next
  · have negative : digitValue c < 0 := (digitValue_neg_iff c).mpr fun d found => digit ⟨d,found⟩
    have none : addDigit base result c = none := by simp [addDigit,negative]
    rw [none]
    constructor
    · nofun
    · rintro ⟨d,_,found,_⟩
      exact absurd ⟨d,found⟩ digit

/-- The text spells the digits, each of them below the base. -/
def Spelled (base : Nat) : List UInt8 → List Nat → Prop := List.Forall₂ fun c d => DigitOf c d ∧ d < base

theorem foldlM_addDigit_iff {text : List UInt8} {result next : Word} : text.foldlM (addDigit base) result = some next ↔
    ∃ digits, Spelled base.toNat text digits ∧
      next.toNat = digits.foldl (fun read digit => read * base.toNat + digit) result.toNat := by
  induction text generalizing result with
  | nil =>
    constructor
    · intro done
      cases done
      exact ⟨[],.nil,rfl⟩
    · rintro ⟨digits,spelled,total⟩
      cases spelled
      exact congrArg some (BitVec.eq_of_toNat_eq total.symm)
  | cons c text ih =>
    rw [List.foldlM_cons]
    constructor
    · intro read
      obtain ⟨middle,first,rest⟩ := Option.bind_eq_some_iff.mp read
      obtain ⟨d,inside,digit,sum⟩ := (addDigit_eq_some_iff large known).mp first
      obtain ⟨digits,spelled,total⟩ := ih.mp rest
      exact ⟨d::digits,.cons ⟨digit,inside⟩ spelled,by rw [total,sum,List.foldl_cons]⟩
    · rintro ⟨digits,spelled,total⟩
      cases spelled with
      | @cons _ d _ digits head tail =>
        have bound := next.isLt
        rw [List.foldl_cons] at total
        have fits : result.toNat * base.toNat + d < 2^64 := by
          have grows := le_foldl (show 0 < base.toNat by omega) (result.toNat * base.toNat + d) digits
          omega
        have sum : (BitVec.ofNat 64 (result.toNat * base.toNat + d)).toNat = result.toNat * base.toNat + d :=
          Nat.mod_eq_of_lt fits
        apply Option.bind_eq_some_iff.mpr
        refine ⟨_,(addDigit_eq_some_iff large known).mpr ⟨d,head.2,head.1,sum⟩,ih.mpr ⟨digits,tail,?_⟩⟩
        rw [total,sum]

theorem digitsOf_eq_some_iff {text : List UInt8} {next : Word} : digitsOf base text = some next ↔
    text ≠ [] ∧ ∃ digits, Spelled base.toNat text digits ∧ next.toNat = value base.toNat digits := by
  unfold digitsOf
  by_cases empty : text = []
  · simp [empty]
  · rw [if_neg empty,foldlM_addDigit_iff large known]
    simp only [ne_eq,empty,not_false_eq_true,true_and]
    rfl

end Base

theorem Spelled.unique {base : Nat} {text : List UInt8} {digits others : List Nat} (spelled : Spelled base text digits)
    (again : Spelled base text others) : digits = others :=
  List.right_unique_forall₂' (fun _ _ _ digit other => digit.1.unique other.1) spelled again

theorem Spelled.not_mem {base : Nat} {text : List UInt8} {digits : List Nat} (spelled : Spelled base text digits)
    {mark : UInt8} (other : digitValue mark < 0) : mark ∉ text := by
  induction spelled with
  | nil => exact List.not_mem_nil
  | cons digit _ ih =>
    rw [List.mem_cons,not_or]
    refine ⟨?_,ih⟩
    rintro rfl
    exact (digitValue_neg_iff mark).mp other _ digit.1

/-- The texts of unsigned numbers, with the number: decimal digits, or hexadecimal ones
behind `0x` or `0X`. -/
inductive UnsignedText : List UInt8 → Nat → Prop
  | decimal {text : List UInt8} {digits : List Nat} : text ≠ [] → Spelled 10 text digits → UnsignedText text (value 10 digits)
  | hexadecimal {mark : UInt8} {text : List UInt8} {digits : List Nat} : mark = 'x'.toUInt8 ∨ mark = 'X'.toUInt8 → text ≠ [] →
    Spelled 16 text digits → UnsignedText ('0'.toUInt8 :: mark :: text) (value 16 digits)

private theorem marked_iff (text : List UInt8) : text.take 2 = ascii ['0','x'] ∨ text.take 2 = ascii ['0','X'] ↔
    ∃ mark rest, (mark = 'x'.toUInt8 ∨ mark = 'X'.toUInt8) ∧ text = '0'.toUInt8 :: mark :: rest := by
  constructor
  · intro front
    have parts := (List.take_append_drop 2 text).symm
    rcases front with lower | upper
    · rw [lower] at parts
      exact ⟨_,text.drop 2,Or.inl rfl,parts⟩
    · rw [upper] at parts
      exact ⟨_,text.drop 2,Or.inr rfl,parts⟩
  · rintro ⟨mark,rest,rfl | rfl,rfl⟩
    · exact Or.inl rfl
    · exact Or.inr rfl

private theorem not_decimal {mark : UInt8} {rest : List UInt8} {digits : List Nat}
    (letter : mark = 'x'.toUInt8 ∨ mark = 'X'.toUInt8) (spelled : Spelled 10 ('0'.toUInt8 :: mark :: rest) digits) : False := by
  have other : digitValue mark < 0 := by rcases letter with rfl | rfl <;> decide
  exact spelled.not_mem other (by simp)

theorem UnsignedText.unique {text : List UInt8} {n m : Nat} (unsigned : UnsignedText text n) (again : UnsignedText text m) :
    n = m := by
  cases unsigned with
  | decimal _ spelled =>
    cases again with
    | decimal _ others => rw [spelled.unique others]
    | hexadecimal letter _ _ => exact (not_decimal letter spelled).elim
  | hexadecimal letter _ spelled =>
    cases again with
    | decimal _ others => exact (not_decimal letter others).elim
    | hexadecimal _ _ others => rw [spelled.unique others]

theorem uint64Of_eq_some_iff (text : List UInt8) (n : Word) : uint64Of text = some n ↔ UnsignedText text n.toNat := by
  unfold uint64Of
  split
  · rename_i front
    obtain ⟨mark,rest,letter,rfl⟩ := (marked_iff text).mp front
    rw [digitsOf_eq_some_iff (show 2 ≤ (16 : Word).toNat by decide) (by decide)]
    constructor
    · rintro ⟨some,digits,spelled,total⟩
      rw [total]
      exact .hexadecimal letter some spelled
    · intro unsigned
      generalize reads : n.toNat = k at unsigned
      cases unsigned with
      | decimal _ spelled => exact (not_decimal letter spelled).elim
      | hexadecimal _ some spelled => exact ⟨some,_,spelled,rfl⟩
  · rename_i plain
    rw [digitsOf_eq_some_iff (show 2 ≤ (10 : Word).toNat by decide) (by decide)]
    constructor
    · rintro ⟨some,digits,spelled,total⟩
      rw [total]
      exact .decimal some spelled
    · intro unsigned
      generalize reads : n.toNat = k at unsigned
      cases unsigned with
      | decimal some spelled => exact ⟨some,_,spelled,rfl⟩
      | hexadecimal letter _ _ => exact absurd ((marked_iff _).mpr ⟨_,_,letter,rfl⟩) plain

inductive SignedText : List UInt8 → Int → Prop
  | plain {text : List UInt8} {digits : List Nat} : text ≠ [] → Spelled 10 text digits → SignedText text (value 10 digits)
  | plus {text : List UInt8} {digits : List Nat} : text ≠ [] → Spelled 10 text digits →
    SignedText ('+'.toUInt8 :: text) (value 10 digits)
  | minus {text : List UInt8} {digits : List Nat} : text ≠ [] → Spelled 10 text digits →
    SignedText ('-'.toUInt8 :: text) (-(value 10 digits))

private theorem not_digit {sign : UInt8} {rest : List UInt8} {digits : List Nat} (letter : sign = '+'.toUInt8 ∨ sign = '-'.toUInt8)
    (spelled : Spelled 10 (sign :: rest) digits) : False := by
  have other : digitValue sign < 0 := by rcases letter with rfl | rfl <;> decide
  exact spelled.not_mem other List.mem_cons_self

theorem SignedText.unique {text : List UInt8} {z w : Int} (signed : SignedText text z) (again : SignedText text w) : z = w := by
  cases signed with
  | plain _ spelled =>
    cases again with
    | plain _ others => rw [spelled.unique others]
    | plus _ _ => exact (not_digit (Or.inl rfl) spelled).elim
    | minus _ _ => exact (not_digit (Or.inr rfl) spelled).elim
  | plus _ spelled =>
    cases again with
    | plain _ others => exact (not_digit (Or.inl rfl) others).elim
    | plus _ others => rw [spelled.unique others]
  | minus _ spelled =>
    cases again with
    | plain _ others => exact (not_digit (Or.inr rfl) others).elim
    | minus _ others => rw [spelled.unique others]

def InRange (z : Int) : Prop := -2^63 ≤ z ∧ z ≤ 2^63 - 1

def signedBy (negative : Bool) (n : Nat) : Int := if negative then -(n : Int) else n

/-- The limit for the magnitude is the range for the number, and within it the negation
of the magnitude is exact. -/
private theorem magnitude_iff (negative : Bool) (mag : Word) : ¬ signedLimit negative < mag ↔ InRange (signedBy negative mag.toNat) := by
  have limits : (signedLimit true).toNat = 2^63 ∧ (signedLimit false).toNat = 2^63 - 1 := by simp [signedLimit]
  rw [BitVec.lt_def]
  unfold InRange signedBy
  cases negative
  · simp only [limits,Bool.false_eq_true,if_false]
    omega
  · simp only [limits,if_true]
    omega

private theorem signedValue_eq {negative : Bool} {mag : Word} (small : InRange (signedBy negative mag.toNat)) :
    signedValue negative mag = signedBy negative mag.toNat := by
  unfold InRange signedBy at *
  unfold signedValue
  cases negative
  · simp only [Bool.false_eq_true,if_false] at small ⊢
    rw [BitVec.toInt_eq_toNat_cond]
    split <;> omega
  · simp only [if_true] at small ⊢
    rw [show 0 - mag = -mag by simp,BitVec.toInt_eq_toNat_cond,BitVec.toNat_neg]
    have bits := mag.isLt
    split <;> omega

theorem signedOf_eq_some_iff (negative : Bool) (text : List UInt8) (z : Int) : signedOf negative text = some z ↔
    InRange z ∧ text ≠ [] ∧ ∃ digits, Spelled 10 text digits ∧ z = signedBy negative (value 10 digits) := by
  have read : ∀ mag : Word, digitsOf 10 text = some mag ↔
      text ≠ [] ∧ ∃ digits, Spelled 10 text digits ∧ mag.toNat = value 10 digits := fun mag =>
    digitsOf_eq_some_iff (show 2 ≤ (10 : Word).toNat by decide) (by decide)
  simp only [signedOf,Option.map_eq_some_iff,Option.filter_eq_some_iff,Bool.not_eq_true',
    decide_eq_false_iff_not,magnitude_iff,read]
  constructor
  · rintro ⟨mag,⟨⟨some,digits,spelled,total⟩,small⟩,rfl⟩
    rw [signedValue_eq small]
    exact ⟨small,some,digits,spelled,by rw [total]⟩
  · rintro ⟨small,some,digits,spelled,rfl⟩
    have fits : value 10 digits < 2^64 := by
      unfold InRange signedBy at small
      split at small <;> omega
    have bits : (BitVec.ofNat 64 (value 10 digits)).toNat = value 10 digits := Nat.mod_eq_of_lt fits
    rw [← bits] at small ⊢
    exact ⟨_,⟨⟨some,digits,spelled,bits⟩,small⟩,signedValue_eq small⟩

private theorem take_one_iff (text : List UInt8) (sign : Char) : text.take 1 = ascii [sign] ↔ ∃ rest, text = sign.toUInt8 :: rest := by
  cases text <;> simp [ascii]

theorem int64Of_eq_some_iff (text : List UInt8) (z : Int) : int64Of text = some z ↔ SignedText text z ∧ InRange z := by
  unfold int64Of
  by_cases minus : text.take 1 = ascii ['-']
  · obtain ⟨rest,rfl⟩ := (take_one_iff text '-').mp minus
    rw [if_pos minus,signedOf_eq_some_iff]
    constructor
    · rintro ⟨small,some,digits,spelled,rfl⟩
      exact ⟨.minus some spelled,small⟩
    · rintro ⟨signed,small⟩
      cases signed with
      | plain _ spelled => exact (not_digit (Or.inr rfl) spelled).elim
      | minus some spelled => exact ⟨small,some,_,spelled,rfl⟩
  · by_cases plus : text.take 1 = ascii ['+']
    · obtain ⟨rest,rfl⟩ := (take_one_iff text '+').mp plus
      rw [if_neg minus,if_pos plus,signedOf_eq_some_iff]
      constructor
      · rintro ⟨small,some,digits,spelled,rfl⟩
        exact ⟨.plus some spelled,small⟩
      · rintro ⟨signed,small⟩
        cases signed with
        | plain _ spelled => exact (not_digit (Or.inl rfl) spelled).elim
        | plus some spelled => exact ⟨small,some,_,spelled,rfl⟩
    · rw [if_neg minus,if_neg plus,signedOf_eq_some_iff]
      constructor
      · rintro ⟨small,some,digits,spelled,rfl⟩
        exact ⟨.plain some spelled,small⟩
      · rintro ⟨signed,small⟩
        cases signed with
        | plain some spelled => exact ⟨small,some,_,spelled,rfl⟩
        | plus _ _ => exact absurd ((take_one_iff _ '+').mpr ⟨_,rfl⟩) plus
        | minus _ _ => exact absurd ((take_one_iff _ '-').mpr ⟨_,rfl⟩) minus

theorem answer_eq_iff {α : Type} (old : α) (read : Option α) (new : α) : answer old read = (true,new) ↔ read = some new := by
  cases read <;> simp [answer]

theorem answer_of_none {α : Type} (old : α) {read : Option α} (none : ∀ new, read ≠ some new) : answer old read = (false,old) := by
  rw [Option.eq_none_iff_forall_ne_some.mpr none]
  rfl

/-- `Parse` for `uint64_t` accepts exactly the texts of the numbers with 64 bits and gives
the number; it leaves the variable as it was on every other text. A product or a sum that
the digit loop computes never wraps. -/
theorem parseUInt64_accepts_grammar {src : StringView} (readable : src.Readable) (old : Word) :
    (∀ n : Word, parseUInt64 src old = .ok (true,n) ↔ UnsignedText src.text n.toNat) ∧
    (∀ n, UnsignedText src.text n → 2^64 ≤ n → parseUInt64 src old = .ok (false,old)) ∧
    ((∀ n, ¬ UnsignedText src.text n) → parseUInt64 src old = .ok (false,old)) ∧
    (∀ base : Word, base = 10 ∨ base = 16 → ∀ (result : Word) (c : UInt8) (next : Word), addDigit base result c = some next →
      (result * base).toNat = result.toNat * base.toNat ∧
      (next.toNat : Int) = (result * base).toNat + digitValue c) := by
  rw [parseUInt64_text readable]
  simp only [Except.ok.injEq,answer_eq_iff]
  refine ⟨uint64Of_eq_some_iff src.text,?_,?_,?_⟩
  · intro n unsigned large
    apply answer_of_none
    intro new read
    have same := unsigned.unique ((uint64Of_eq_some_iff src.text new).mp read)
    have bits := new.isLt
    omega
  · intro never
    apply answer_of_none
    intro new read
    exact never _ ((uint64Of_eq_some_iff src.text new).mp read)
  · intro base known result c next added
    have large : 2 ≤ base.toNat ∧ base.toNat ≤ 16 := by rcases known with rfl | rfl <;> decide
    obtain ⟨d,_,digit,sum⟩ := (addDigit_eq_some_iff large.1 large.2).mp added
    have bits := next.isLt
    have product : (result * base).toNat = result.toNat * base.toNat := by
      rw [BitVec.toNat_mul]
      exact Nat.mod_eq_of_lt (by omega)
    rw [(digitValue_eq_iff c d).mpr digit,product]
    exact ⟨rfl,by omega⟩

/-- The greatest number in hexadecimal, with a leading zero. -/
theorem parseUInt64_accepts_greatest :
    (StringView.literal (ascii ['0','x','0','F','F','f','f','F','F','f','f','F','F','f','f','F','F','f','f'])).Readable ∧
    UnsignedText (ascii ['0','x','0','F','F','f','f','F','F','f','f','F','F','f','f','F','F','f','f']) (2^64 - 1) := by
  have readable := StringView.readable_literal (ascii ['0','x','0','F','F','f','f','F','F','f','f','F','F','f','f','F','F','f','f'])
  have accepts := (parseUInt64_accepts_grammar readable 0).1 (BitVec.allOnes 64)
  rw [StringView.text_literal] at accepts
  exact ⟨readable,accepts.mp (by decide)⟩

/-- `Parse` for `int64_t` accepts exactly the texts of the numbers in its range. -/
theorem parseInt64_accepts_grammar {src : StringView} (readable : src.Readable) (old : Int) :
    (∀ z, parseInt64 src old = .ok (true,z) ↔ SignedText src.text z ∧ -2^63 ≤ z ∧ z ≤ 2^63 - 1) ∧
    (∀ z, SignedText src.text z → z < -2^63 ∨ 2^63 - 1 < z → parseInt64 src old = .ok (false,old)) ∧
    ((∀ z, ¬ SignedText src.text z) → parseInt64 src old = .ok (false,old)) := by
  rw [parseInt64_text readable]
  simp only [Except.ok.injEq,answer_eq_iff]
  refine ⟨int64Of_eq_some_iff src.text,?_,?_⟩
  · intro z signed outside
    apply answer_of_none
    intro new read
    obtain ⟨again,small⟩ := (int64Of_eq_some_iff src.text new).mp read
    rw [← signed.unique again] at small
    unfold InRange at small
    omega
  · intro never
    apply answer_of_none
    intro new read
    exact never _ ((int64Of_eq_some_iff src.text new).mp read).1

/-- The least number. -/
theorem parseInt64_accepts_least :
    (StringView.literal (ascii ['-','9','2','2','3','3','7','2','0','3','6','8','5','4','7','7','5','8','0','8'])).Readable ∧
    SignedText (ascii ['-','9','2','2','3','3','7','2','0','3','6','8','5','4','7','7','5','8','0','8']) (-2^63) := by
  have readable :=
    StringView.readable_literal (ascii ['-','9','2','2','3','3','7','2','0','3','6','8','5','4','7','7','5','8','0','8'])
  have accepts := (parseInt64_accepts_grammar readable 0).1 (-2^63)
  rw [StringView.text_literal] at accepts
  exact ⟨readable,(accepts.mp (by decide +kernel)).1⟩

end BorealOS.Utility.Formatter
