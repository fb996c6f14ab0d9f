import BorealOS.Utility.Writer

/-! Format strings as the source handles them: the constructor of `FormatString`
counts the placeholders at compile time, and `WriteArgs` looks for them again at
run time. Beside them stands the meaning of a format string, read off the
constructor's scan. -/
namespace BorealOS.Utility.Formatter

open ByteObject Execution

abbrev opening : UInt8 := '{'.toUInt8

abbrev closing : UInt8 := '}'.toUInt8

@[simp] theorem closing_ne_opening : closing ≠ opening := by decide

@[simp] theorem opening_ne_closing : opening ≠ closing := by decide

@[simp] theorem brace_ne_zero : opening ≠ 0 ∧ closing ≠ 0 := by decide

/-- A chain of comparisons `str[i] == c` joined by `&&`. -/
def allAt (str : Pointer) : List (Nat × UInt8) → Except Fault Bool
  | [] => return true
  | (index,byte) :: rest => do
    if (← str.read index) = byte then allAt str rest else return false

/-- The loop of the constructor. A pointer moves on with each round, so there are no
more rounds than bytes left in the object. -/
def countLoop : (rounds : Nat) → (ptr : Pointer) → (count : Nat) → Except Fault Nat
  | 0, _, _ => throw .outOfBounds
  | rounds + 1, ptr, count => do
    if (← ptr.read 0) = 0 then return count
    if ← allAt ptr [(0,opening),(1,closing)] then countLoop rounds (ptr.advance 2) (count + 1)
    else if ← allAt ptr [(0,opening),(1,opening),(2,closing),(3,closing)] then countLoop rounds (ptr.advance 4) count
    else countLoop rounds (ptr.advance 1) count

/-- Whether the constructor accepts the string for so many arguments. -/
def formatString (s : Pointer) (arguments : Nat) : Except Fault Bool := do
  return (← countLoop s.bytes.length s 0) = arguments

section Write
variable {α : Type} (writeValue : α → WriterM Unit)

/-- Both overloads: without arguments the rest of the string is written as it is. -/
def writeArgs : (rounds : Nat) → (str : Pointer) → List α → WriterM Unit
  | _, str, [] => do
    let size ← checked (strlen str)
    out str (size.signExtend 64).toNat
  | 0, _, _ :: _ => throw .outOfBounds
  | rounds + 1, str, firstArg :: remainingArgs => do
    if (← checked (str.read 0)) = 0 then return
    if ← checked (allAt str [(0,opening),(1,closing)]) then
      writeValue firstArg
      writeArgs rounds (str.advance 2) remainingArgs
    else if ← checked (allAt str [(0,opening),(1,opening),(3,closing),(4,closing)]) then
      outText [opening,closing]
      writeArgs rounds (str.advance 5) remainingArgs
    else
      out str 1
      writeArgs rounds (str.advance 1) (firstArg::remainingArgs)

def format (str : Pointer) (args : List α) : WriterM Unit := writeArgs writeValue str.bytes.length str args

end Write

/-! The meaning of a format string. -/

inductive Token where
  | verbatim (byte : UInt8)
  | placeholder
  | escape
deriving DecidableEq, Repr

/-- The tokens of a text after the next `skip` bytes. -/
def tokensFrom : (skip : Nat) → List UInt8 → List Token
  | _, [] => []
  | skip + 1, _ :: rest => tokensFrom skip rest
  | 0, byte :: rest =>
    if [opening,closing] <+: byte :: rest then .placeholder :: tokensFrom 1 rest
    else if [opening,opening,closing,closing] <+: byte :: rest then .escape :: tokensFrom 3 rest
    else .verbatim byte :: tokensFrom 0 rest

def tokens (text : List UInt8) : List Token := tokensFrom 0 text

/-- Every byte outside of placeholders is written as it is, the placeholders are
replaced by the arguments in order, and every escape by two braces. -/
def render {α : Type} (writeValue : α → WriterM Unit) : List Token → List α → WriterM Unit
  | [], _ => pure ()
  | .verbatim byte :: rest, args => do
    outText [byte]
    render writeValue rest args
  | .escape :: rest, args => do
    outText [opening,closing]
    render writeValue rest args
  | .placeholder :: rest, [] => do
    outText [opening,closing]
    render writeValue rest []
  | .placeholder :: rest, arg :: args => do
    writeValue arg
    render writeValue rest args

def placeholders (text : List UInt8) : Nat := (tokens text).count .placeholder

section Tokens
variable {byte : UInt8} {rest : List UInt8}

theorem tokens_placeholder (rest : List UInt8) : tokens (opening::closing::rest) = .placeholder :: tokens rest := by
  have here : [opening,closing] <+: opening::closing::rest := ⟨rest,rfl⟩
  rw [tokens,tokensFrom,if_pos here]
  rfl

theorem tokens_escape (rest : List UInt8) :
    tokens (opening::opening::closing::closing::rest) = .escape :: tokens rest := by
  have other : ¬ [opening,closing] <+: opening::opening::closing::closing::rest := by simp
  have here : [opening,opening,closing,closing] <+: opening::opening::closing::closing::rest := ⟨rest,rfl⟩
  rw [tokens,tokensFrom,if_neg other,if_pos here]
  rfl

theorem tokens_verbatim (plain : ¬ [opening,closing] <+: byte::rest)
    (unescaped : ¬ [opening,opening,closing,closing] <+: byte::rest) :
    tokens (byte::rest) = .verbatim byte :: tokens rest := by
  rw [tokens,tokensFrom,if_neg plain,if_neg unescaped]
  rfl

theorem placeholders_placeholder (rest : List UInt8) :
    placeholders (opening::closing::rest) = placeholders rest + 1 := by
  rw [placeholders,tokens_placeholder,List.count_cons_self]
  rfl

theorem placeholders_escape (rest : List UInt8) :
    placeholders (opening::opening::closing::closing::rest) = placeholders rest := by
  rw [placeholders,tokens_escape,List.count_cons_of_ne (by simp)]
  rfl

theorem placeholders_verbatim (plain : ¬ [opening,closing] <+: byte::rest)
    (unescaped : ¬ [opening,opening,closing,closing] <+: byte::rest) :
    placeholders (byte::rest) = placeholders rest := by
  rw [placeholders,tokens_verbatim plain unescaped,List.count_cons_of_ne (by simp)]
  rfl

theorem scan_induction {motive : List UInt8 → Prop} (nil : motive [])
    (placeholder : ∀ rest, motive rest → motive (opening::closing::rest))
    (escape : ∀ rest, motive rest → motive (opening::opening::closing::closing::rest))
    (verbatim : ∀ byte rest, ¬ [opening,closing] <+: byte::rest →
      ¬ [opening,opening,closing,closing] <+: byte::rest → motive rest → motive (byte::rest))
    (text : List UInt8) : motive text := by
  induction length : text.length using Nat.strong_induction_on generalizing text with
  | _ n ih =>
    cases text with
    | nil => exact nil
    | cons byte rest =>
      by_cases here : [opening,closing] <+: byte::rest
      · obtain ⟨later,whole⟩ := here
        rw [← whole] at length ⊢
        exact placeholder later (ih later.length (by simp at length; omega) later rfl)
      · by_cases doubled : [opening,opening,closing,closing] <+: byte::rest
        · obtain ⟨later,whole⟩ := doubled
          rw [← whole] at length ⊢
          exact escape later (ih later.length (by simp at length; omega) later rfl)
        · exact verbatim byte rest here doubled (ih rest.length (by simp at length; omega) rest rfl)

end Tokens

end BorealOS.Utility.Formatter
