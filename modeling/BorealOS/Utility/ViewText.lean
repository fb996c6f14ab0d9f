import BorealOS.Utility.StringView

/-! What the operations of `StringView` compute on the text of a view. Inside its
object a view is compared by its text, and a search for one character finds the
first place in the text. A search in an empty view is not held by the text: it
runs on to the end of the object. -/
namespace BorealOS.Utility

open ByteObject

theorem lengthLoop_terminated {text : List UInt8} (unbroken : 0 ∉ text) (rest : List UInt8) :
    lengthLoop (text ++ 0 :: rest) = .ok text.length := by
  induction text with
  | nil => simp [lengthLoop]
  | cons byte text ih =>
    obtain ⟨nonzero,unbroken⟩ : _ ≠ _ ∧ _ := by simpa only [List.mem_cons,not_or] using unbroken
    rw [List.cons_append,lengthLoop,if_neg (Ne.symm nonzero),ih unbroken]
    rfl

/-- As long as both strings have bytes and the second one has no terminator, the
comparison is zero exactly on equal bytes. -/
theorem strncmpLoop_spec {s1 s2 : Pointer} {remaining i : Nat} (first : i + remaining ≤ s1.bytes.length)
    (second : i + remaining ≤ s2.bytes.length) (unbroken : 0 ∉ (s2.bytes.drop i).take remaining) :
    ∃ difference, strncmpLoop s1 s2 remaining i = .ok difference ∧
      (difference = 0 ↔ (s1.bytes.drop i).take remaining = (s2.bytes.drop i).take remaining) := by
  induction remaining generalizing i with
  | zero => exact ⟨0,rfl,by simp⟩
  | succ remaining ih =>
    have inside : i < s1.bytes.length := by omega
    have within : i < s2.bytes.length := by omega
    have left := Pointer.read_of_some (List.getElem?_eq_getElem inside)
    have right := Pointer.read_of_some (List.getElem?_eq_getElem within)
    rw [List.drop_eq_getElem_cons within,List.take_succ_cons] at unbroken
    obtain ⟨nonzero,unbroken⟩ : _ ≠ _ ∧ _ := by simpa only [List.mem_cons,not_or] using unbroken
    rw [strncmpLoop,left,right]
    rw [List.drop_eq_getElem_cons inside,List.drop_eq_getElem_cons within,List.take_succ_cons,List.take_succ_cons]
    simp only [ok_bind,pure_eq_ok]
    by_cases same : s1.bytes[i] = s2.bytes[i]
    · have set : s1.bytes[i] ≠ 0 := fun zero => nonzero (zero.symm.trans same)
      obtain ⟨difference,run,zero⟩ := ih (by omega) (by omega) unbroken
      refine ⟨difference,?_,?_⟩
      · rw [if_neg (by simp [same]),if_neg set]
        exact run
      · rw [zero,same]
        simp
    · refine ⟨_,if_pos same,?_⟩
      have unequal : s1.bytes[i].toNat ≠ s2.bytes[i].toNat := fun equal => same (UInt8.toNat_inj.mp equal)
      simp only [List.cons.injEq,same,false_and,iff_false]
      omega

namespace StringView

def text (view : StringView) : List UInt8 := view.data.bytes.take view.size

def Readable (view : StringView) : Prop := view.size ≤ view.data.bytes.length

variable {view other : StringView}

theorem Readable.length_text (readable : view.Readable) : view.text.length = view.size := by
  rw [text,List.length_take]
  exact Nat.min_eq_left readable

theorem equal_of_size (different : view.size ≠ other.size) : view.equal other = .ok false := by
  simp [equal,different]

theorem Readable.equal_spec (readable : view.Readable) (inside : other.Readable) (unbroken : 0 ∉ other.text) :
    view.equal other = .ok (decide (view.text = other.text)) := by
  by_cases size : view.size = other.size
  · obtain ⟨difference,run,zero⟩ := strncmpLoop_spec (show 0 + view.size ≤ view.data.bytes.length by rwa [Nat.zero_add])
      (show 0 + view.size ≤ other.data.bytes.length by rwa [Nat.zero_add,size]) (by simpa [size,text] using unbroken)
    rw [List.drop_zero,List.drop_zero] at zero
    have texts : difference = 0 ↔ view.text = other.text := by
      rw [zero,text,text,← size]
    rw [equal,if_neg (by simp [size]),strncmp,run]
    simp [texts]
  · rw [equal_of_size size]
    have unequal : view.text ≠ other.text := by
      intro same
      rw [← readable.length_text,← inside.length_text,same] at size
      exact size rfl
    simp [unequal]

theorem readable_literal (text : List UInt8) : (literal text).Readable := by
  simp [Readable,literal,Pointer.bytes]

@[simp] theorem text_literal (text : List UInt8) : (literal text).text = text := by
  simp [StringView.text,literal,Pointer.bytes]

theorem Readable.equal_literal (readable : view.Readable) {word : List UInt8} (unbroken : 0 ∉ word) :
    view.equal (literal word) = .ok (decide (view.text = word)) := by
  rw [readable.equal_spec (readable_literal word) (by rwa [text_literal]),text_literal]

/-! Parts of a view. -/

theorem readable_substringFrom (readable : view.Readable) (start : Nat) : (view.substringFrom start).Readable := by
  unfold Readable at readable ⊢
  by_cases past : view.size ≤ start
  · simp [substringFrom,past]
  · simp only [substringFrom,if_neg past,Pointer.bytes_advance,List.length_drop]
    omega

theorem text_substringFrom (readable : view.Readable) (start : Nat) :
    (view.substringFrom start).text = view.text.drop start := by
  have length := readable.length_text
  by_cases past : view.size ≤ start
  · rw [List.drop_of_length_le (by omega)]
    simp [substringFrom,past,text]
  · simp only [substringFrom,if_neg past,text,Pointer.bytes_advance,List.drop_take]

theorem readable_substring (readable : view.Readable) {start length : Nat} (inside : start + length ≤ view.size) :
    (view.substring start length).Readable := by
  unfold Readable at readable ⊢
  by_cases past : view.size ≤ start
  · simp [substring,past]
  · simp only [substring,if_neg past,Pointer.bytes_advance,List.length_drop]
    omega

theorem text_substring (readable : view.Readable) {start length : Nat} (inside : start + length ≤ view.size) :
    (view.substring start length).text = (view.text.drop start).take length := by
  have size := readable.length_text
  by_cases past : view.size ≤ start
  · rw [List.drop_of_length_le (by omega)]
    simp [substring,past,text]
  · simp only [substring,if_neg past,text,Pointer.bytes_advance,List.drop_take,List.take_take]
    congr 1
    omega

/-! One character. -/

theorem strncmp_character (view : StringView) (i : Nat) (character : UInt8) :
    strncmp (view.data.advance i) (literal [character]).data (literal [character]).size =
      match view.data.bytes[i]? with
      | some byte => .ok (if byte = character then 0 else (byte.toNat : Int) - character.toNat)
      | none => .error .outOfBounds := by
  have needle : (literal [character]).data.read 0 = .ok character := rfl
  have ahead : (view.data.advance i).bytes[0]? = view.data.bytes[i]? := by simp
  change strncmpLoop _ _ 1 0 = _
  cases here : view.data.bytes[i]? with
  | none => simp [strncmpLoop,Pointer.read_of_none (ahead.trans here)]
  | some byte =>
    rw [strncmpLoop,Pointer.read_of_some (ahead.trans here),needle]
    by_cases same : byte = character
    · simp [same,strncmpLoop]
    · simp [same]

theorem character_difference {byte character : UInt8} :
    (if byte = character then 0 else (byte.toNat : Int) - character.toNat) = 0 ↔ byte = character := by
  by_cases same : byte = character
  · simp [same]
  · have unequal : byte.toNat ≠ character.toNat := fun equal => same (UInt8.toNat_inj.mp equal)
    rw [if_neg same]
    simp only [same,iff_false]
    omega

/-- The search from an index on: it finds the first place, or it passes all indices,
or it leaves the object. -/
theorem indexLoop_character (view : StringView) (character : UInt8) (last remaining i : Nat) :
    indexLoop view (literal [character]) last remaining i =
      if character ∈ (view.data.bytes.drop i).take remaining then
        .ok (i + ((view.data.bytes.drop i).take remaining).idxOf character)
      else if remaining ≤ (view.data.bytes.drop i).length then
        if last = npos then .error .endlessLoop else .ok npos
      else .error .outOfBounds := by
  induction remaining generalizing i with
  | zero => simp [indexLoop]
  | succ remaining ih =>
    rw [indexLoop,strncmp_character]
    by_cases inside : i < view.data.bytes.length
    · rw [List.getElem?_eq_getElem inside,List.drop_eq_getElem_cons inside,List.take_succ_cons]
      simp only [ok_bind,pure_eq_ok]
      by_cases same : view.data.bytes[i] = character
      · simp [same]
      · rw [if_neg (fun zero => same (character_difference.mp zero)),ih (i + 1)]
        have apart : (view.data.bytes[i] == character) = false := by simpa using same
        simp only [List.mem_cons,Ne.symm same,false_or,List.idxOf_cons,apart,cond_false,List.length_cons,
          Nat.add_le_add_iff_right]
        rw [show i + 1 + ((view.data.bytes.drop (i + 1)).take remaining).idxOf character =
          i + (((view.data.bytes.drop (i + 1)).take remaining).idxOf character + 1) by omega]
    · have outside : view.data.bytes[i]? = none := List.getElem?_eq_none (by omega)
      rw [outside,List.drop_of_length_le (by omega)]
      simp

theorem Readable.indexOf_character (readable : view.Readable) (nonempty : 0 < view.size) (small : view.size < 2^64)
    (character : UInt8) : view.indexOf (literal [character]) =
      .ok (if character ∈ view.text then view.text.idxOf character else npos) := by
  have last : (view.size + 2^64 - (literal [character]).size) % 2^64 = view.size - 1 := by
    change (view.size + 2^64 - 1) % 2^64 = view.size - 1
    omega
  have all : view.size - 1 + 1 = view.size := by omega
  rw [indexOf,last,indexLoop_character,all,List.drop_zero]
  change (if character ∈ view.text then Except.ok (0 + view.text.idxOf character) else _) = _
  have unequal : view.size - 1 ≠ npos := by
    unfold npos
    omega
  rw [if_pos (show view.size ≤ view.data.bytes.length from readable),if_neg unequal,Nat.zero_add]
  split <;> rfl

theorem indexOf_empty (empty : view.size = 0) (small : view.data.bytes.length < 2^64) (character : UInt8) :
    view.indexOf (literal [character]) =
      if character ∈ view.data.bytes then .ok (view.data.bytes.idxOf character) else .error .outOfBounds := by
  have last : (view.size + 2^64 - (literal [character]).size) % 2^64 = npos := by
    change (view.size + 2^64 - 1) % 2^64 = 2^64 - 1
    omega
  have all : npos + 1 = 2^64 := by decide
  rw [indexOf,last,indexLoop_character,all,List.drop_zero,List.take_of_length_le (by omega),Nat.zero_add,
    if_neg (show ¬ 2^64 ≤ view.data.bytes.length by omega)]

private theorem countLoop_character (readable : view.Readable) (character : UInt8) (rounds i count : Nat)
    (enough : view.size ≤ i + rounds) : countLoop view (literal [character]) rounds i count =
      .ok (count + (view.text.drop i).count character) := by
  have length := readable.length_text
  induction rounds generalizing i count with
  | zero =>
    have done : ¬ i < view.size := by omega
    rw [countLoop,if_neg done,List.drop_of_length_le (by omega)]
    rfl
  | succ rounds ih =>
    rw [countLoop]
    by_cases done : view.size ≤ i
    · rw [if_pos done,List.drop_of_length_le (by omega)]
      rfl
    · have inside : i < view.text.length := by omega
      have here : view.data.bytes[i]? = some view.text[i] := by
        rw [← List.getElem?_eq_getElem inside,text,List.getElem?_take,if_pos (by omega)]
      rw [if_neg done,strncmp_character,here,List.drop_eq_getElem_cons inside]
      simp only [ok_bind]
      by_cases same : view.text[i] = character
      · rw [if_pos (character_difference.mpr same),show (literal [character]).size = 1 from rfl,ih _ _ (by omega),same,
          List.count_cons_self,Nat.add_assoc,Nat.add_comm 1]
      · rw [if_neg (fun zero => same (character_difference.mp zero)),ih _ _ (by omega),List.count_cons_of_ne same]

theorem Readable.countOf_character (readable : view.Readable) (character : UInt8) :
    view.countOf (literal [character]) = .ok (view.text.count character) := by
  rw [countOf,countLoop_character readable character _ _ _ (by omega),Nat.zero_add,List.drop_zero]

end StringView

end BorealOS.Utility
