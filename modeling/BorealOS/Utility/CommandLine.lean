import BorealOS.Utility.Lookup

/-! A whole command line: the views of its arguments, `Initialize`, and the calls
of `GetValue` as loops over the pieces of the line. -/
namespace BorealOS.Utility

open ByteObject StringView

section Line
variable (line : CString)

theorem viewOf_piece {piece : Piece} (inText : piece.InText line.text) :
    (viewOf line.view (some piece)).Readable ∧ (viewOf line.view (some piece)).text = piece.text ∧
      (viewOf line.view (some piece)).size < 2^63 := by
  obtain ⟨before,after,whole,place⟩ := inText
  have ahead : (line.view.data.advance piece.start).bytes = piece.text ++ (after ++ [0]) := by
    rw [Pointer.bytes_advance,CString.bytes_view,whole,← place,List.append_assoc,List.append_assoc,
      List.drop_left' rfl]
  have bound := line.small
  have length := congrArg List.length whole
  simp only [List.length_append] at length
  refine ⟨?_,?_,?_⟩
  · change piece.text.length ≤ (line.view.data.advance piece.start).bytes.length
    rw [ahead,List.length_append]
    omega
  · change (line.view.data.advance piece.start).bytes.take piece.text.length = piece.text
    rw [ahead,List.take_left' rfl]
  · change piece.text.length < 2^63
    omega

def slotsOf : List StringView := (piecesOf line.text).map (viewOf line.view)

theorem arguments_view : arguments line.view = .ok (slotsOf line) := by
  rw [arguments_spec line.readable,CString.text_view]
  rfl

theorem slots_readable {view : StringView} (member : view ∈ slotsOf line) :
    view.Readable ∧ 0 ∉ view.text ∧ view.size < 2^63 := by
  obtain ⟨piece,inside,rfl⟩ := List.mem_map.mp member
  cases piece with
  | none => exact ⟨Nat.zero_le _,by simp [viewOf,blank,text],show 0 < 2^63 by decide⟩
  | some piece =>
    have inText := piecesOf_inText inside
    obtain ⟨readable,text,small⟩ := viewOf_piece line inText
    obtain ⟨before,after,whole,_⟩ := inText
    refine ⟨readable,?_,small⟩
    rw [text]
    intro zero
    exact line.unbroken (by simp [whole,zero])

end Line

private theorem contentsLoop_spec {view : StringView} (remaining i : Nat) (inside : i + remaining ≤ view.data.bytes.length) :
    contentsLoop view remaining i = .ok ((view.data.bytes.drop i).take remaining) := by
  induction remaining generalizing i with
  | zero => rfl
  | succ remaining ih =>
    have here : i < view.data.bytes.length := by omega
    rw [contentsLoop,Pointer.read_of_some (List.getElem?_eq_getElem here),ih (i + 1) (by omega),
      List.drop_eq_getElem_cons here,List.take_succ_cons]
    rfl

theorem contents_spec {view : StringView} (readable : view.Readable) : view.contents = .ok view.text := by
  rw [contents,contentsLoop_spec _ _ (by rw [Nat.zero_add]; exact readable),List.drop_zero]
  rfl

theorem hasIdentifier_returns {ident : StringView} (readable : ident.Readable) (unbroken : 0 ∉ ident.text)
    {array : List StringView} (known : ∀ other ∈ array, other.Readable) :
    hasIdentifier ident array = .ok (decide (ident.text ∈ array.map text)) := by
  induction array with
  | nil => rfl
  | cons other array ih =>
    rw [hasIdentifier,(known other List.mem_cons_self).equal_spec readable unbroken]
    by_cases same : other.text = ident.text
    · simp [same]
    · have rest := ih fun later member => known later (List.mem_cons_of_mem _ member)
      simp only [same,decide_false,ok_bind,Bool.false_eq_true,if_false,rest,List.map_cons,List.mem_cons,
        Ne.symm same,false_or]

theorem identifierOf_returns {view : StringView} (readable : view.Readable) (unbroken : 0 ∉ view.text)
    (small : view.size < 2^63) : ∃ ident, identifierOf view = .ok ident ∧ ident.Readable ∧ 0 ∉ ident.text := by
  rw [identifierOf,readable.countOf_character]
  simp only [ok_bind]
  by_cases inside : 0 < view.text.count equals
  · have member := List.count_pos_iff.mp inside
    have before := List.idxOf_lt_length_of_mem member
    have length := readable.length_text
    rw [if_pos inside,CommandLineExtractor.indexOf_equals readable (by omega) small,if_pos member]
    refine ⟨_,rfl,readable_substring readable (by omega),?_⟩
    rw [text_substring readable (by omega)]
    exact fun zero => unbroken (List.mem_of_mem_drop (List.mem_of_mem_take zero))
  · rw [if_neg inside]
    exact ⟨view,rfl,readable,unbroken⟩

theorem checkIdentifiers_returns {args uniqueIdentifiers : List StringView} (known : ∀ other ∈ uniqueIdentifiers, other.Readable)
    (good : ∀ view ∈ args, view.Readable ∧ 0 ∉ view.text ∧ view.size < 2^63) :
    ∃ reported, checkIdentifiers uniqueIdentifiers args = .ok reported := by
  induction args generalizing uniqueIdentifiers with
  | nil => exact ⟨[],rfl⟩
  | cons arg args ih =>
    obtain ⟨readable,unbroken,small⟩ := good arg List.mem_cons_self
    have rest : ∀ view ∈ args, view.Readable ∧ 0 ∉ view.text ∧ view.size < 2^63 :=
      fun view member => good view (List.mem_cons_of_mem _ member)
    obtain ⟨ident,found,inside,whole⟩ := identifierOf_returns readable unbroken small
    rw [checkIdentifiers,found]
    simp only [ok_bind,hasIdentifier_returns inside whole known,decide_eq_true_eq]
    split
    · obtain ⟨reported,run⟩ := ih known rest
      rw [contents_spec inside,run]
      exact ⟨_,rfl⟩
    · apply ih _ rest
      intro other member
      rcases List.mem_append.mp member with old | new
      · exact known other old
      · rw [List.mem_singleton.mp new]
        exact inside

namespace CommandLineExtractor

variable (line : CString)

theorem cmdline_some (flag : Bool) : cmdline ⟨some line,flag⟩ = .ok line.view := line.ofPointer_pointer

theorem initializeFrom_some : ∃ reported, initializeFrom (some line) = .ok (⟨some line,true⟩,reported) := by
  have length : strlen line.pointer = .ok (BitVec.ofNat 32 line.text.length) := by
    rw [strlen,show lengthLoop line.pointer.bytes = .ok line.text.length from lengthLoop_terminated line.unbroken []]
    rfl
  have none : ∀ other ∈ ([] : List StringView), other.Readable := by simp
  obtain ⟨reported,checked⟩ := checkIdentifiers_returns none fun view => slots_readable line
  have count := splitArguments_count line.readable
  have fill := splitArguments_fill line.readable
  rw [CString.text_view] at count fill
  refine ⟨reported,?_⟩
  rw [initializeFrom,isSilent,length]
  simp only [ok_bind,pure_eq_ok,cmdline_some,count,fill,Option.getD_some]
  rw [← slotsOf,checked]
  rfl

theorem search_some {α : Type} (loop : StringView → List StringView → Except Fault (Option α)) (identifier : StringView) :
    search loop ⟨some line,true⟩ identifier = loop identifier (slotsOf line) := by
  rw [search,cmdline_some]
  simp only [Bool.not_true,Bool.false_eq_true,if_false,ok_bind,arguments_view]

end CommandLineExtractor

end BorealOS.Utility
