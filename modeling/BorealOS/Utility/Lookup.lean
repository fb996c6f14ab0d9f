import BorealOS.Utility.Arguments

/-! The loops of the four instances of `GetValue`, one argument at a time. A loop
stops at the first argument that answers the identifier, and at an empty slot
its search for `=` leaves the slot. -/
namespace BorealOS.Utility

open ByteObject StringView

/-- The view of a whole string, as the constructor of `StringView` makes it. -/
def CString.view (string : CString) : StringView := .literal string.text

theorem CString.readable (string : CString) : string.view.Readable := readable_literal string.text

@[simp] theorem CString.text_view (string : CString) : string.view.text = string.text := text_literal string.text

theorem CString.bytes_view (string : CString) : string.view.data.bytes = string.text ++ [0] := rfl

theorem CString.ofPointer_pointer (string : CString) : ofPointer string.pointer = .ok string.view := by
  have length : stringLength string.pointer = .ok string.text.length := lengthLoop_terminated string.unbroken []
  rw [ofPointer,length]
  rfl

namespace CommandLineExtractor

def Named (identifier text : List UInt8) : Prop := equals ∈ text ∧ text.take (text.idxOf equals) = identifier

instance (identifier text : List UInt8) : Decidable (Named identifier text) := inferInstanceAs (Decidable (_ ∧ _))

def valueText (text : List UInt8) : List UInt8 := text.drop (text.idxOf equals + 1)

/-- A loop over arguments, where `answer` says at which of them it returns. -/
structure Searching {α : Type} (loop : List StringView → Except Fault α) (answer : StringView → Option α) (ending : α) :
    Prop where
  done : loop [] = .ok ending
  step : ∀ view args, view.Readable → 0 < view.size → view.size < 2^63 →
    loop (view::args) = match answer view with
      | some result => .ok result
      | none => loop args
  empty : ∀ view args, view.size = 0 → view.data.bytes.length < 2^64 - 1 →
    loop (view::args) = if equals ∈ view.data.bytes then loop args else .error .outOfBounds

theorem idxOf_ne_npos {bytes : List UInt8} (small : bytes.length < 2^64 - 1) (inside : equals ∈ bytes) :
    bytes.idxOf equals ≠ npos := by
  have before := List.idxOf_lt_length_of_mem inside
  unfold npos
  omega

section Argument
variable {view : StringView} (readable : view.Readable) (nonempty : 0 < view.size) (small : view.size < 2^63)
include readable nonempty small

theorem indexOf_equals : view.indexOf (.literal [equals]) =
    .ok (if equals ∈ view.text then view.text.idxOf equals else npos) :=
  readable.indexOf_character nonempty (by omega) equals

theorem indexOf_ne_npos : (if equals ∈ view.text then view.text.idxOf equals else npos) = npos ↔ equals ∉ view.text := by
  have length := readable.length_text
  by_cases inside : equals ∈ view.text
  · simp only [inside,if_true,not_true_eq_false,iff_false]
    exact idxOf_ne_npos (by omega) inside
  · simp [inside]

theorem ident_equal (identifier : CString) :
    (view.substring 0 (if equals ∈ view.text then view.text.idxOf equals else npos)).equal identifier.view =
      .ok (decide (Named identifier.text view.text)) := by
  have length := readable.length_text
  by_cases inside : equals ∈ view.text
  · have before := List.idxOf_lt_length_of_mem inside
    rw [if_pos inside,(readable_substring readable (by omega)).equal_spec identifier.readable
      (by rw [CString.text_view]; exact identifier.unbroken),text_substring readable (by omega),CString.text_view,List.drop_zero]
    simp [Named,inside]
  · have apart : (view.substring 0 npos).size ≠ identifier.view.size := by
      have bound := identifier.small
      rw [substring,if_neg (by omega)]
      change npos ≠ identifier.text.length
      unfold npos
      omega
    rw [if_neg inside,equal_of_size apart]
    simp [Named,inside]

theorem valueOf_spec (inside : equals ∈ view.text) : ∃ value, valueOf view = .ok value ∧ value.Readable ∧
    value.text = valueText view.text ∧ value = view.substringFrom (view.text.idxOf equals + 1) := by
  have length := readable.length_text
  have before := List.idxOf_lt_length_of_mem inside
  have wrap : (view.text.idxOf equals + 1) % 2^64 = view.text.idxOf equals + 1 := Nat.mod_eq_of_lt (by omega)
  refine ⟨_,?_,readable_substringFrom readable _,text_substringFrom readable _,rfl⟩
  rw [valueOf,indexOf_equals readable nonempty small,if_pos inside]
  simp only [ok_bind,pure_eq_ok,wrap]

end Argument

section Empty
variable {view : StringView} (empty : view.size = 0) (small : view.data.bytes.length < 2^64 - 1) {identifier : CString}
  (nonempty : identifier.text ≠ [])
include empty nonempty

theorem equal_empty : view.equal identifier.view = .ok false := by
  apply equal_of_size
  have positive := List.length_pos_iff.mpr nonempty
  change view.size ≠ identifier.text.length
  omega

theorem ident_empty (index : Nat) : (view.substring 0 index).equal identifier.view = .ok false := by
  apply equal_empty _ nonempty
  rw [substring,if_pos (by omega)]

end Empty

private theorem answered {α : Type} (value : α) (parsed : Option α) :
    (if (Formatter.answer value parsed).1 = true then some (Formatter.answer value parsed).2 else none) = parsed := by
  cases parsed <;> rfl

theorem Searching.run {α : Type} {loop : List StringView → Except Fault α} {answer : StringView → Option α} {ending : α}
    (searching : Searching loop answer ending) (views rest : List StringView)
    (good : ∀ view ∈ views, view.Readable ∧ 0 < view.size ∧ view.size < 2^63) :
    loop (views ++ rest) = match views.findSome? answer with
      | some result => .ok result
      | none => loop rest := by
  induction views with
  | nil => rfl
  | cons view views ih =>
    obtain ⟨readable,positive,small⟩ := good view List.mem_cons_self
    rw [List.cons_append,searching.step _ _ readable positive small,List.findSome?_cons]
    cases answer view with
    | some result => rfl
    | none => exact ih fun other member => good other (List.mem_cons_of_mem _ member)

variable (identifier : CString)

def boolAnswer (view : StringView) : Option (Option Bool) :=
  if view.text = identifier.text then some (some true)
  else if Named identifier.text view.text then some (Formatter.boolOf (valueText view.text))
  else none

theorem boolLoop_searching (nonempty : identifier.text ≠ []) :
    Searching (boolLoop identifier.view) (boolAnswer identifier) (some false) where
  done := rfl
  step := by
    intro view args readable positive small
    have equal : view.equal identifier.view = .ok (decide (view.text = identifier.text)) := by
      rw [readable.equal_spec identifier.readable (by rw [CString.text_view]; exact identifier.unbroken),CString.text_view]
    rw [boolLoop,equal,indexOf_equals readable positive small,boolAnswer]
    simp only [ok_bind,decide_eq_true_eq]
    by_cases bare : view.text = identifier.text
    · simp [bare]
    · rw [if_neg bare,if_neg bare,ident_equal readable positive small identifier]
      by_cases named : Named identifier.text view.text
      · obtain ⟨value,run,inside,text,_⟩ := valueOf_spec readable positive small named.1
        have counted : 0 < view.text.count equals := List.count_pos_iff.mpr named.1
        rw [if_pos named,readable.countOf_character,run]
        simp only [ok_bind,named,decide_true,Bool.not_true,Bool.false_eq_true,if_false,if_pos counted,pure_eq_ok,
          Formatter.parseBool_text inside,text,answered]
      · simp [named]
  empty := by
    intro view args empty small
    rw [boolLoop,equal_empty empty nonempty,indexOf_empty empty (by omega)]
    simp only [ok_bind,Bool.false_eq_true,if_false]
    by_cases later : equals ∈ view.data.bytes
    · rw [if_pos later,if_pos later]
      simp only [ok_bind,ident_empty empty nonempty,Bool.not_false,if_true]
    · rw [if_neg later,if_neg later]
      rfl

def integerAnswer {α : Type} (parsed : List UInt8 → Option α) (view : StringView) : Option (Option α) :=
  if Named identifier.text view.text then some (parsed (valueText view.text)) else none

theorem integerLoop_searching {α : Type} [Inhabited α] (parse : StringView → α → Except Fault (Bool × α))
    (parsed : List UInt8 → Option α)
    (spec : ∀ view value, view.Readable → parse view value = .ok (Formatter.answer value (parsed view.text)))
    (nonempty : identifier.text ≠ []) :
    Searching (integerLoop parse identifier.view) (integerAnswer identifier parsed) none where
  done := rfl
  step := by
    intro view args readable positive small
    rw [integerLoop,indexOf_equals readable positive small,integerAnswer]
    simp only [ok_bind,indexOf_ne_npos readable positive small,ident_equal readable positive small identifier]
    by_cases named : Named identifier.text view.text
    · obtain ⟨value,run,inside,text,_⟩ := valueOf_spec readable positive small named.1
      have counted : 0 < view.text.count equals := List.count_pos_iff.mpr named.1
      rw [if_pos named,if_neg (by simp [named.1]),readable.countOf_character,run]
      simp only [ok_bind,named,decide_true,Bool.not_true,Bool.false_eq_true,if_false,if_pos counted,pure_eq_ok,
        spec value default inside,text,answered]
    · simp [named]
  empty := by
    intro view args empty small
    rw [integerLoop,indexOf_empty empty (by omega)]
    by_cases later : equals ∈ view.data.bytes
    · simp only [if_pos later,ok_bind,if_neg (idxOf_ne_npos small later),ident_empty empty nonempty,Bool.not_false,if_true]
    · rw [if_neg later,if_neg later]
      rfl

/-- A value that starts with a quote loses its first and its last character. -/
def stripQuotes (value : StringView) : StringView :=
  if value.text[0]? = some quotation then value.substring 1 ((value.size + 2^64 - 2) % 2^64) else value

def stringAnswer (view : StringView) : Option (Option StringView) :=
  if Named identifier.text view.text then
    some (some (stripQuotes (view.substringFrom (view.text.idxOf equals + 1))) |>.filter fun value => 0 < value.size)
  else none

theorem stringLoop_searching (nonempty : identifier.text ≠ []) :
    Searching (stringLoop identifier.view) (stringAnswer identifier) none where
  done := rfl
  step := by
    intro view args readable positive small
    rw [stringLoop,indexOf_equals readable positive small,stringAnswer]
    simp only [ok_bind,indexOf_ne_npos readable positive small,ident_equal readable positive small identifier]
    by_cases named : Named identifier.text view.text
    · obtain ⟨value,run,inside,text,rfl⟩ := valueOf_spec readable positive small named.1
      rw [if_pos named,if_neg (by simp [named.1]),run]
      simp only [ok_bind,named,decide_true,Bool.not_true,Bool.false_eq_true,if_false,pure_eq_ok,
        character_at inside 0 (show quotation ≠ 0 by decide),decide_eq_true_eq]
      rw [← stripQuotes]
      split <;> simp_all [Option.filter]
    · simp [named]
  empty := by
    intro view args empty small
    rw [stringLoop,indexOf_empty empty (by omega)]
    by_cases later : equals ∈ view.data.bytes
    · simp only [if_pos later,ok_bind,if_neg (idxOf_ne_npos small later),ident_empty empty nonempty,Bool.not_false,if_true]
    · rw [if_neg later,if_neg later]
      rfl

end CommandLineExtractor

end BorealOS.Utility
