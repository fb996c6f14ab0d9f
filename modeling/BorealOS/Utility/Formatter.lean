import BorealOS.Kernel
import BorealOS.Utility.ViewText

/-! The `Parse` functions of `Formatter` as the source computes them, and what
they answer about the text of a view. The last parameter is the variable that a
successful call writes. -/
namespace BorealOS.Utility.Formatter

open ByteObject

def ascii (letters : List Char) : List UInt8 := letters.map Char.toUInt8

def digitValue (c : UInt8) : Int :=
  if '0'.toUInt8 ≤ c ∧ c ≤ '9'.toUInt8 then c.toNat - '0'.toNat
  else if 'a'.toUInt8 ≤ c ∧ c ≤ 'f'.toUInt8 then 10 + (c.toNat - 'a'.toNat)
  else if 'A'.toUInt8 ≤ c ∧ c ≤ 'F'.toUInt8 then 10 + (c.toNat - 'A'.toNat)
  else -1

def parseBool (src : StringView) (value : Bool) : Except Fault (Bool × Bool) := do
  if src.size = 0 then return (false,value)
  if ← src.equal (.literal (ascii ['1'])) then return (true,true)
  if ← src.equal (.literal (ascii ['0'])) then return (true,false)
  if ← src.equal (.literal (ascii ['t','r','u','e'])) then return (true,true)
  if ← src.equal (.literal (ascii ['f','a','l','s','e'])) then return (true,false)
  return (false,value)

/-- One digit more, or nothing where the digit or the result is out of range. -/
def addDigit (base result : Word) (c : UInt8) : Option Word :=
  let d := digitValue c
  if d < 0 ∨ base ≤ BitVec.ofInt 64 d then none
  else if (BitVec.allOnes 64 - BitVec.ofInt 64 d) / base < result then none
  else some (result * base + BitVec.ofInt 64 d)

def digitLoop (src : StringView) (base : Word) : (remaining i : Nat) → (result : Word) → Except Fault (Option Word)
  | 0, _, result => return some result
  | remaining + 1, i, result => do
    match addDigit base result (← src.data.read i) with
    | none => return none
    | some result => digitLoop src base remaining (i + 1) result

def answer {α : Type} (value : α) : Option α → Bool × α
  | some result => (true,result)
  | none => (false,value)

def parseInteger (src : StringView) (value base : Word) : Except Fault (Bool × Word) := do
  if src.size = 0 then return (false,value)
  return answer value (← digitLoop src base src.size 0 0)

/-- The operator `||`: its right side runs only where the left one is false. -/
def either (first second : Except Fault Bool) : Except Fault Bool := do
  if ← first then return true
  second

/-- The first lines of `Parse` for `uint64_t`: where the digits start, and their base. -/
def numberStart (src : StringView) : Except Fault (Nat × Word) := do
  if 2 ≤ src.size then
    if ← either ((src.substring 0 2).equal (.literal (ascii ['0','x']))) ((src.substring 0 2).equal (.literal (ascii ['0','X']))) then
      return (2,16)
  return (0,10)

def parseUInt64 (src : StringView) (value : Word) : Except Fault (Bool × Word) := do
  if src.size = 0 then return (false,value)
  let (start,base) ← numberStart src
  if src.size ≤ start then return (false,value)
  parseInteger (src.substringFrom start) value base

/-- The first lines of `Parse` for `int64_t`: whether there is a minus, and where the
digits start. -/
def numberSign (src : StringView) : Except Fault (Bool × Nat) := do
  if ← either ((src.substring 0 1).equal (.literal (ascii ['-']))) ((src.substring 0 1).equal (.literal (ascii ['+']))) then
    return (← (src.substring 0 1).equal (.literal (ascii ['-'])),1)
  return (false,0)

def signedLimit (negative : Bool) : Word := if negative then 2^63 - 1 + 1 else 2^63 - 1

def signedValue (negative : Bool) (mag : Word) : Int := if negative then (0 - mag).toInt else mag.toInt

/-- The rest of `Parse` for `int64_t`, after the sign. A value of this type is the
integer it denotes. -/
def parseMagnitude (src : StringView) (value : Int) (negative : Bool) (start : Nat) : Except Fault (Bool × Int) := do
  if src.size ≤ start then return (false,value)
  let (parsed,mag) ← parseInteger (src.substringFrom start) 0 10
  if !parsed then return (false,value)
  if signedLimit negative < mag then return (false,value)
  return (true,signedValue negative mag)

def parseInt64 (src : StringView) (value : Int) : Except Fault (Bool × Int) := do
  if src.size = 0 then return (false,value)
  let (negative,start) ← numberSign src
  parseMagnitude src value negative start

/-! The same functions on a text. -/

def boolOf (text : List UInt8) : Option Bool :=
  if text = ascii ['1'] ∨ text = ascii ['t','r','u','e'] then some true
  else if text = ascii ['0'] ∨ text = ascii ['f','a','l','s','e'] then some false
  else none

def digitsOf (base : Word) (text : List UInt8) : Option Word :=
  if text = [] then none else text.foldlM (addDigit base) 0

def uint64Of (text : List UInt8) : Option Word :=
  if text.take 2 = ascii ['0','x'] ∨ text.take 2 = ascii ['0','X'] then digitsOf 16 (text.drop 2) else digitsOf 10 text

def signedOf (negative : Bool) (text : List UInt8) : Option Int :=
  ((digitsOf 10 text).filter fun mag => !(signedLimit negative < mag)).map (signedValue negative)

def int64Of (text : List UInt8) : Option Int :=
  if text.take 1 = ascii ['-'] then signedOf true (text.drop 1)
  else if text.take 1 = ascii ['+'] then signedOf false (text.drop 1)
  else signedOf false text

section Text
variable {src : StringView} (readable : src.Readable)
include readable

theorem parseBool_text (value : Bool) : parseBool src value = .ok (answer value (boolOf src.text)) := by
  have length := readable.length_text
  by_cases empty : src.size = 0
  · have none : src.text = [] := List.eq_nil_of_length_eq_zero (by omega)
    simp [parseBool,empty,none,boolOf,answer,ascii]
  · simp only [parseBool,if_neg empty,readable.equal_literal (show 0 ∉ ascii ['1'] by decide),
      readable.equal_literal (show 0 ∉ ascii ['0'] by decide),
      readable.equal_literal (show 0 ∉ ascii ['t','r','u','e'] by decide),
      readable.equal_literal (show 0 ∉ ascii ['f','a','l','s','e'] by decide),ok_bind,pure_eq_ok,decide_eq_true_eq]
    by_cases one : src.text = ascii ['1']
    · rw [if_pos one,one]
      rfl
    · by_cases zero : src.text = ascii ['0']
      · rw [if_neg one,if_pos zero,zero]
        rfl
      · by_cases true : src.text = ascii ['t','r','u','e']
        · rw [if_neg one,if_neg zero,if_pos true,true]
          rfl
        · by_cases false : src.text = ascii ['f','a','l','s','e']
          · rw [if_neg one,if_neg zero,if_neg true,if_pos false,false]
            rfl
          · rw [if_neg one,if_neg zero,if_neg true,if_neg false,boolOf,if_neg (by simp [one,true]),
              if_neg (by simp [zero,false])]
            rfl

theorem digitLoop_text (base : Word) (remaining i : Nat) (result : Word) (whole : i + remaining = src.size) :
    digitLoop src base remaining i result = .ok ((src.text.drop i).foldlM (addDigit base) result) := by
  have length := readable.length_text
  induction remaining generalizing i result with
  | zero =>
    rw [List.drop_of_length_le (by omega)]
    rfl
  | succ remaining ih =>
    have inside : i < src.text.length := by omega
    have here : src.data.bytes[i]? = some src.text[i] := by
      rw [← List.getElem?_eq_getElem inside,StringView.text,List.getElem?_take,if_pos (by omega)]
    rw [digitLoop,Pointer.read_of_some here,List.drop_eq_getElem_cons inside,List.foldlM_cons]
    simp only [ok_bind,pure_eq_ok]
    cases added : addDigit base result src.text[i] with
    | none => rfl
    | some next => exact ih (i + 1) next (by omega)

theorem parseInteger_text (value base : Word) :
    parseInteger src value base = .ok (answer value (digitsOf base src.text)) := by
  have length := readable.length_text
  by_cases empty : src.size = 0
  · have none : src.text = [] := List.eq_nil_of_length_eq_zero (by omega)
    simp [parseInteger,empty,none,digitsOf,answer]
  · have some : src.text ≠ [] := fun none => empty (by rw [← length,none]; rfl)
    rw [parseInteger,if_neg empty,digitLoop_text readable base src.size 0 0 (by omega),List.drop_zero,digitsOf,if_neg some]
    rfl

private theorem head_text {length : Nat} (inside : length ≤ src.size) {word : List UInt8} (unbroken : 0 ∉ word) :
    (src.substring 0 length).equal (.literal word) = .ok (decide (src.text.take length = word)) := by
  rw [(StringView.readable_substring readable (by omega)).equal_literal unbroken,
    StringView.text_substring readable (by omega),List.drop_zero]

theorem numberStart_text : numberStart src =
    .ok (if src.text.take 2 = ascii ['0','x'] ∨ src.text.take 2 = ascii ['0','X'] then (2,16) else (0,10)) := by
  have length := readable.length_text
  unfold numberStart
  by_cases long : 2 ≤ src.size
  · rw [if_pos long,either,head_text readable long (by decide),head_text readable long (by decide)]
    by_cases lower : src.text.take 2 = ascii ['0','x']
    · simp [lower]
    · by_cases upper : src.text.take 2 = ascii ['0','X'] <;> simp [lower,upper]
  · have short : ∀ word : List UInt8, word.length = 2 → src.text.take 2 ≠ word := by
      rintro word two rfl
      rw [List.length_take] at two
      omega
    rw [if_neg long]
    simp [short (ascii ['0','x']) rfl,short (ascii ['0','X']) rfl]

private theorem digitsFrom_text (value base : Word) (start : Nat) :
    (if src.size ≤ start then .ok (false,value) else parseInteger (src.substringFrom start) value base) =
      .ok (answer value (digitsOf base (src.text.drop start))) := by
  have length := readable.length_text
  by_cases short : src.size ≤ start
  · rw [if_pos short,List.drop_of_length_le (by omega)]
    rfl
  · rw [if_neg short,parseInteger_text (StringView.readable_substringFrom readable start),
      StringView.text_substringFrom readable]

theorem parseUInt64_text (value : Word) : parseUInt64 src value = .ok (answer value (uint64Of src.text)) := by
  have length := readable.length_text
  by_cases empty : src.size = 0
  · have none : src.text = [] := List.eq_nil_of_length_eq_zero (by omega)
    simp [parseUInt64,empty,none,uint64Of,digitsOf,answer,ascii]
  · rw [parseUInt64,if_neg empty,numberStart_text readable,uint64Of]
    split
    · exact digitsFrom_text readable value 16 2
    · exact digitsFrom_text readable value 10 0

theorem numberSign_text (nonempty : src.size ≠ 0) : numberSign src =
    .ok (if src.text.take 1 = ascii ['-'] then (true,1) else if src.text.take 1 = ascii ['+'] then (false,1) else (false,0)) := by
  have long : 1 ≤ src.size := by omega
  unfold numberSign
  rw [either,head_text readable long (by decide),head_text readable long (by decide)]
  by_cases minus : src.text.take 1 = ascii ['-']
  · simp [minus]
  · by_cases plus : src.text.take 1 = ascii ['+']
    · rw [if_neg minus,if_pos plus,plus]
      rfl
    · simp [minus,plus]

theorem parseMagnitude_text (value : Int) (negative : Bool) (start : Nat) :
    parseMagnitude src value negative start = .ok (answer value (signedOf negative (src.text.drop start))) := by
  have length := readable.length_text
  unfold parseMagnitude signedOf
  by_cases short : src.size ≤ start
  · rw [if_pos short,List.drop_of_length_le (by omega)]
    rfl
  · rw [if_neg short,parseInteger_text (StringView.readable_substringFrom readable start),
      StringView.text_substringFrom readable]
    cases digits : digitsOf 10 (src.text.drop start) with
    | none => rfl
    | some mag =>
      by_cases large : signedLimit negative < mag
      · simp [answer,large,Option.filter]
      · simp [answer,large,Option.filter]

theorem parseInt64_text (value : Int) : parseInt64 src value = .ok (answer value (int64Of src.text)) := by
  have length := readable.length_text
  by_cases empty : src.size = 0
  · have none : src.text = [] := List.eq_nil_of_length_eq_zero (by omega)
    simp [parseInt64,empty,none,int64Of,signedOf,digitsOf,answer,ascii]
  · rw [parseInt64,if_neg empty,numberSign_text readable empty,int64Of]
    split
    · exact parseMagnitude_text readable value true 1
    · split
      · exact parseMagnitude_text readable value false 1
      · exact parseMagnitude_text readable value false 0

end Text

end BorealOS.Utility.Formatter
