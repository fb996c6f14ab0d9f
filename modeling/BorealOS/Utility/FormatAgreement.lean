import BorealOS.Utility.FormatString

/-! Where the writer of a format string keeps to the constructor's scan. The writer
tests for an escape one byte further on, skips five bytes and drops an argument;
without arguments left it writes escapes as they are. So the two agree on exactly
the format strings without escapes that the writer does not take for one. -/
namespace BorealOS.Utility.Formatter

open ByteObject Execution

/-- The pointer is at a text with its terminator, and rounds are left for all of it. -/
structure At (str : Pointer) (rounds : Nat) (text : List UInt8) : Prop where
  bytes : str.bytes = text ++ [0]
  enough : text.length < rounds
  unbroken : 0 ∉ text

def Lookalike (text : List UInt8) : Prop := ∃ byte rest, text = opening::opening::byte::closing::closing::rest

section Tests
variable {str : Pointer} {rounds : Nat} {text rest : List UInt8} {byte : UInt8}

theorem At.advance (front : List UInt8) (here : At str (rounds + 1) (front ++ rest)) (moves : front ≠ []) :
    At (str.advance front.length) rounds rest where
  bytes := by rw [Pointer.bytes_advance,here.bytes,List.append_assoc,List.drop_left]
  enough := by
    have enough := here.enough
    have some := List.length_pos_iff.mpr moves
    rw [List.length_append] at enough
    omega
  unbroken := fun zero => here.unbroken (List.mem_append_right front zero)

theorem At.read_nil (here : At str rounds []) : str.read 0 = .ok 0 :=
  Pointer.read_of_some (by rw [here.bytes]; rfl)

theorem At.read_cons (here : At str rounds (byte::text)) : str.read 0 = .ok byte :=
  Pointer.read_of_some (by rw [here.bytes]; rfl)

private theorem allAt_some {tests : List (Nat × UInt8)} {index : Nat} {wanted found : UInt8}
    (there : str.bytes[index]? = some found) :
    allAt str ((index,wanted)::tests) = if found = wanted then allAt str tests else .ok false := by
  rw [allAt,Pointer.read_of_some there]
  rfl

theorem At.placeholder_test (here : At str rounds (byte::text)) :
    allAt str [(0,opening),(1,closing)] = .ok (decide ([opening,closing] <+: byte::text)) := by
  have bytes := here.bytes
  rw [allAt_some (show str.bytes[0]? = some byte by rw [bytes]; rfl)]
  cases text with
  | nil =>
    rw [allAt_some (show str.bytes[1]? = some 0 by rw [bytes]; rfl)]
    simp [brace_ne_zero.2.symm]
  | cons second text =>
    rw [allAt_some (show str.bytes[1]? = some second by rw [bytes]; rfl)]
    by_cases first : byte = opening
    · by_cases last : second = closing
      · simp [first,last,allAt]
      · simp [first,last,eq_comm]
    · simp [first,eq_comm]

theorem At.escape_test (here : At str rounds (byte::text)) :
    allAt str [(0,opening),(1,opening),(2,closing),(3,closing)] =
      .ok (decide ([opening,opening,closing,closing] <+: byte::text)) := by
  have bytes := here.bytes
  have zero := brace_ne_zero
  rw [allAt_some (show str.bytes[0]? = some byte by rw [bytes]; rfl)]
  by_cases first : byte = opening
  swap
  · simp [first,eq_comm]
  rcases text with _ | ⟨second,_ | ⟨third,_ | ⟨fourth,text⟩⟩⟩
  · rw [allAt_some (show str.bytes[1]? = some 0 by rw [bytes]; rfl)]
    simp [first,zero.1.symm]
  · rw [allAt_some (show str.bytes[1]? = some second by rw [bytes]; rfl),
      allAt_some (show str.bytes[2]? = some 0 by rw [bytes]; rfl)]
    simp [first,zero.2.symm]
  · rw [allAt_some (show str.bytes[1]? = some second by rw [bytes]; rfl),
      allAt_some (show str.bytes[2]? = some third by rw [bytes]; rfl),
      allAt_some (show str.bytes[3]? = some 0 by rw [bytes]; rfl)]
    simp [first,zero.2.symm]
  · rw [allAt_some (show str.bytes[1]? = some second by rw [bytes]; rfl),
      allAt_some (show str.bytes[2]? = some third by rw [bytes]; rfl),
      allAt_some (show str.bytes[3]? = some fourth by rw [bytes]; rfl)]
    by_cases two : second = opening
    · by_cases three : third = closing
      · by_cases four : fourth = closing
        · simp [first,two,three,four,allAt]
        · simp [first,two,three,four,eq_comm]
      · simp [first,two,three,eq_comm]
    · simp [first,two,eq_comm]

/-- The writer's test reads past the terminator of a text that ends in two opening
braces. -/
theorem At.lookalike_test (here : At str rounds (byte::text)) :
    (Lookalike (byte::text) ∧ allAt str [(0,opening),(1,opening),(3,closing),(4,closing)] = .ok true) ∨
    (byte::text = [opening,opening] ∧ allAt str [(0,opening),(1,opening),(3,closing),(4,closing)] = .error .outOfBounds) ∨
    (¬ Lookalike (byte::text) ∧ allAt str [(0,opening),(1,opening),(3,closing),(4,closing)] = .ok false) := by
  have bytes := here.bytes
  have zero := brace_ne_zero
  rw [allAt_some (show str.bytes[0]? = some byte by rw [bytes]; rfl)]
  by_cases first : byte = opening
  swap
  · exact Or.inr (Or.inr ⟨by simp [Lookalike,first],if_neg first⟩)
  subst first
  rcases text with _ | ⟨second,text⟩
  · rw [allAt_some (show str.bytes[1]? = some 0 by rw [bytes]; rfl)]
    exact Or.inr (Or.inr ⟨by simp [Lookalike],by simp [zero.1.symm]⟩)
  rw [allAt_some (show str.bytes[1]? = some second by rw [bytes]; rfl)]
  by_cases two : second = opening
  swap
  · exact Or.inr (Or.inr ⟨by simp [Lookalike,two],by simp [two]⟩)
  subst two
  rcases text with _ | ⟨third,_ | ⟨fourth,text⟩⟩
  · refine Or.inr (Or.inl ⟨rfl,?_⟩)
    rw [if_pos rfl,if_pos rfl,allAt,Pointer.read_of_none (by rw [bytes]; rfl)]
    rfl
  · rw [allAt_some (show str.bytes[3]? = some 0 by rw [bytes]; rfl)]
    exact Or.inr (Or.inr ⟨by simp [Lookalike],by simp [zero.2.symm]⟩)
  rw [allAt_some (show str.bytes[3]? = some fourth by rw [bytes]; rfl)]
  by_cases four : fourth = closing
  swap
  · exact Or.inr (Or.inr ⟨by simp [Lookalike,four],by simp [four]⟩)
  subst four
  rcases text with _ | ⟨fifth,text⟩
  · rw [allAt_some (show str.bytes[4]? = some 0 by rw [bytes]; rfl)]
    exact Or.inr (Or.inr ⟨by simp [Lookalike],by simp [zero.2.symm]⟩)
  rw [allAt_some (show str.bytes[4]? = some fifth by rw [bytes]; rfl)]
  by_cases five : fifth = closing
  · subst five
    exact Or.inl ⟨⟨third,text,rfl⟩,by simp [allAt]⟩
  · exact Or.inr (Or.inr ⟨by simp [Lookalike,five],by simp [five]⟩)

theorem At.round (here : At str rounds text) : ∃ less, rounds = less + 1 :=
  ⟨rounds - 1,by have := here.enough; omega⟩

theorem countLoop_eq (text : List UInt8) {str : Pointer} {rounds count : Nat} (here : At str rounds text) :
    countLoop rounds str count = .ok (count + placeholders text) := by
  induction text using scan_induction generalizing str rounds count with
  | nil =>
    obtain ⟨rounds,rfl⟩ := here.round
    rw [countLoop,here.read_nil]
    rfl
  | placeholder rest ih =>
    obtain ⟨rounds,rfl⟩ := here.round
    have next : At (str.advance 2) rounds rest := At.advance [opening,closing] here (by simp)
    rw [countLoop,here.read_cons,ok_bind,if_neg brace_ne_zero.1,here.placeholder_test,ok_bind,
      if_pos (decide_eq_true ⟨rest,rfl⟩),ih next,placeholders_placeholder]
    congr 1
    omega
  | escape rest ih =>
    obtain ⟨rounds,rfl⟩ := here.round
    have next : At (str.advance 4) rounds rest := At.advance [opening,opening,closing,closing] here (by simp)
    rw [countLoop,here.read_cons,ok_bind,if_neg brace_ne_zero.1,here.placeholder_test,ok_bind,if_neg (by simp),
      here.escape_test,ok_bind,if_pos (decide_eq_true ⟨rest,rfl⟩),ih next,placeholders_escape]
  | verbatim byte rest plain unescaped ih =>
    obtain ⟨rounds,rfl⟩ := here.round
    have next : At (str.advance 1) rounds rest := At.advance [byte] here (by simp)
    have nonzero : byte ≠ 0 := fun zero => here.unbroken (zero ▸ List.mem_cons_self)
    rw [countLoop,here.read_cons,ok_bind,if_neg nonzero,here.placeholder_test,ok_bind,if_neg (by simpa using plain),
      here.escape_test,ok_bind,if_neg (by simpa using unescaped),ih next,placeholders_verbatim plain unescaped]

section Step
variable {α : Type} (writeValue : α → WriterM Unit) (arg : α) (args : List α) (written : List UInt8)

/-- Everything that one round of the writer can do while arguments are left. -/
theorem writeArgs_cases (here : At str (rounds + 1) text) :
    (text = [] ∧ writeArgs writeValue (rounds + 1) str (arg::args) written = .ok () written) ∨
    (∃ rest, text = opening::closing::rest ∧ At (str.advance 2) rounds rest ∧
      writeArgs writeValue (rounds + 1) str (arg::args) written =
        (do writeValue arg; writeArgs writeValue rounds (str.advance 2) args) written) ∨
    (∃ byte rest, text = opening::opening::byte::closing::closing::rest ∧ At (str.advance 5) rounds rest ∧
      writeArgs writeValue (rounds + 1) str (arg::args) written =
        writeArgs writeValue rounds (str.advance 5) args (written ++ [opening,closing])) ∨
    (text = [opening,opening] ∧
      writeArgs writeValue (rounds + 1) str (arg::args) written = .error .outOfBounds written) ∨
    ∃ byte rest, text = byte::rest ∧ ¬ [opening,closing] <+: text ∧ ¬ Lookalike text ∧ At (str.advance 1) rounds rest ∧
      writeArgs writeValue (rounds + 1) str (arg::args) written =
        writeArgs writeValue rounds (str.advance 1) (arg::args) (written ++ [byte]) := by
  cases text with
  | nil =>
    refine Or.inl ⟨rfl,?_⟩
    rw [writeArgs,here.read_nil,bind_of_ok (checked_ok 0 written),if_pos rfl]
    rfl
  | cons byte rest =>
    have nonzero : byte ≠ 0 := fun zero => here.unbroken (zero ▸ List.mem_cons_self)
    rw [writeArgs,here.read_cons,bind_of_ok (checked_ok byte written),if_neg nonzero,here.placeholder_test,
      bind_of_ok (checked_ok _ written)]
    by_cases plain : [opening,closing] <+: byte::rest
    · obtain ⟨later,whole⟩ := plain
      rw [if_pos (decide_eq_true ⟨later,whole⟩)]
      rw [← whole] at here
      exact Or.inr (Or.inl ⟨later,whole.symm,here.advance [opening,closing] (by simp),rfl⟩)
    · rw [if_neg (by simpa using plain)]
      rcases here.lookalike_test with ⟨⟨third,later,whole⟩,passed⟩ | ⟨doubled,failed⟩ | ⟨unlike,passed⟩
      · rw [passed,bind_of_ok (checked_ok true written),if_pos rfl]
        rw [whole] at here
        exact Or.inr (Or.inr (Or.inl ⟨third,later,whole,
          here.advance [opening,opening,third,closing,closing] (by simp),rfl⟩))
      · rw [failed]
        exact Or.inr (Or.inr (Or.inr (Or.inl ⟨doubled,rfl⟩)))
      · have single : out str 1 written = .ok () (written ++ [byte]) := by
          rw [out,if_pos (by rw [here.bytes]; simp),here.bytes]
          rfl
        rw [passed,bind_of_ok (checked_ok false written),if_neg (by simp),bind_of_ok single]
        exact Or.inr (Or.inr (Or.inr (Or.inr ⟨byte,rest,rfl,plain,unlike,here.advance [byte] (by simp),rfl⟩)))

/-- The size that the last overload hands on: the length as an `int`, made a `size_t`. -/
def restSize (length : Nat) : Nat := ((BitVec.ofNat 32 length).signExtend 64).toNat

theorem restSize_eq_iff {length : Nat} (small : length < 2^63) : restSize length = length ↔ length < 2^31 := by
  have wrapped := Nat.mod_lt length (show 0 < 2^32 by decide)
  have reduced : length % 2^32 % 2^64 = length % 2^32 := Nat.mod_eq_of_lt (by omega)
  rw [restSize,BitVec.toNat_signExtend,BitVec.toNat_setWidth,BitVec.msb_eq_decide,BitVec.toNat_ofNat,reduced]
  by_cases high : 2^31 ≤ length % 2^32
  · simp only [high,decide_true,if_true]
    omega
  · simp only [high,decide_false,Bool.false_eq_true,if_false]
    omega

theorem writeArgs_rest (here : At str rounds text) :
    writeArgs writeValue rounds str [] written = out str (restSize text.length) written := by
  have length : strlen str = .ok (BitVec.ofNat 32 text.length) := by
    rw [strlen,here.bytes,lengthLoop_terminated here.unbroken []]
    rfl
  rw [writeArgs,length,bind_of_ok (checked_ok _ written)]
  rfl

theorem writeArgs_rest_short (here : At str rounds text) (short : text.length < 2^31) :
    writeArgs writeValue rounds str [] written = .ok () (written ++ text) := by
  rw [writeArgs_rest writeValue written here,(restSize_eq_iff (by omega)).mpr short,out,
    if_pos (by rw [here.bytes,List.length_append]; omega),here.bytes,List.take_left,outText_apply]

end Step

end Tests

/-! What is written when all arguments are written alike. -/

section Filler
variable (filler : List UInt8)

def shown : Token → List UInt8
  | .verbatim byte => [byte]
  | .placeholder => filler
  | .escape => [opening,closing]

variable {filler} {text : List UInt8}

theorem render_replicate {α : Type} {writeValue : α → WriterM Unit} {arg : α}
    (writes : ∀ written, writeValue arg written = .ok () (written ++ filler)) (list : List Token) (written : List UInt8) :
    render writeValue list (List.replicate (list.count .placeholder) arg) written =
      .ok () (written ++ list.flatMap (shown filler)) := by
  induction list generalizing written with
  | nil => simp [render]
  | cons token list ih =>
    rw [List.flatMap_cons,← List.append_assoc,← ih (written ++ shown filler token)]
    cases token with
    | verbatim byte =>
      rw [List.count_cons_of_ne (by simp),render,bind_of_ok (outText_apply _ written)]
      rfl
    | escape =>
      rw [List.count_cons_of_ne (by simp),render,bind_of_ok (outText_apply _ written)]
      rfl
    | placeholder =>
      rw [List.count_cons_self,List.replicate_succ,render,bind_of_ok (writes written)]
      rfl

theorem shown_plain (filler : List UInt8) (none : placeholders text = 0) (plain : .escape ∉ tokens text) :
    (tokens text).flatMap (shown filler) = text := by
  induction text using scan_induction with
  | nil => rfl
  | placeholder rest ih => simp [placeholders_placeholder] at none
  | escape rest ih => simp [tokens_escape] at plain
  | verbatim byte rest unmatched unescaped ih =>
    rw [tokens_verbatim unmatched unescaped] at plain ⊢
    rw [placeholders_verbatim unmatched unescaped] at none
    rw [List.flatMap_cons,ih none fun member => plain (List.mem_cons_of_mem _ member)]
    rfl

theorem take_ne_shown (filler : List UInt8) (none : placeholders text = 0) (escaped : .escape ∈ tokens text)
    (tail : List UInt8) (n : Nat) : (text ++ tail).take n ≠ (tokens text).flatMap (shown filler) := by
  induction text using scan_induction generalizing n with
  | nil => simp [tokens,tokensFrom] at escaped
  | placeholder rest ih => simp [placeholders_placeholder] at none
  | escape rest ih =>
    rw [tokens_escape]
    rcases n with _ | _ | n
    · simp [shown]
    · simp [shown]
    · simp [shown]
  | verbatim byte rest unmatched unescaped ih =>
    rw [tokens_verbatim unmatched unescaped] at escaped ⊢
    rw [placeholders_verbatim unmatched unescaped] at none
    have later : .escape ∈ tokens rest := by simpa using escaped
    cases n with
    | zero => simp [shown]
    | succ n =>
      have different := ih none later n
      simpa [shown] using different

end Filler

/-- The constructor meets no escape, the writer takes nothing for one while a
placeholder follows, and the text after the last placeholder has a length that is
an `int`. -/
structure Uniform (text : List UInt8) : Prop where
  plain : .escape ∉ tokens text
  clear : ∀ byte rest, opening::opening::byte::closing::closing::rest <:+ text → placeholders rest = 0
  short : ∀ rest, rest = text ∨ opening::closing::rest <:+ text → placeholders rest = 0 → rest.length < 2^31

section Uniform
variable {byte : UInt8} {text rest : List UInt8}

theorem uniform_nil : Uniform [] where
  plain := by simp [tokens,tokensFrom]
  clear := by simp
  short := by
    rintro rest (rfl | there) _
    · decide
    · simp at there

theorem uniform_placeholder_iff : Uniform (opening::closing::rest) ↔ Uniform rest := by
  have inner : rest <:+ opening::closing::rest := ⟨[opening,closing],rfl⟩
  constructor
  · intro uniform
    refine ⟨?_,fun byte later there => uniform.clear byte later (there.trans inner),?_⟩
    · have plain := uniform.plain
      rw [tokens_placeholder] at plain
      exact fun member => plain (List.mem_cons_of_mem _ member)
    · rintro later (rfl | there) none
      · exact uniform.short later (Or.inr (List.suffix_refl _)) none
      · exact uniform.short later (Or.inr (there.trans inner)) none
  · intro uniform
    refine ⟨?_,?_,?_⟩
    · rw [tokens_placeholder]
      simpa using uniform.plain
    · intro byte later there
      simp only [List.suffix_cons_iff,List.cons.injEq,opening_ne_closing,false_and,and_false,false_or] at there
      exact uniform.clear byte later there
    · rintro later (rfl | there) none
      · rw [placeholders_placeholder] at none
        omega
      · simp only [List.suffix_cons_iff,List.cons.injEq,opening_ne_closing,false_and,false_or,true_and] at there
        exact uniform.short later (there.imp id id) none

/-- A lookalike that is no escape has an escape inside, or no placeholder. -/
private theorem lookalike_inside {later : List UInt8}
    (unescaped : ¬ [opening,opening,closing,closing] <+: opening::opening::byte::closing::closing::later)
    (plain : .escape ∉ tokens (opening::byte::closing::closing::later)) :
    placeholders (opening::byte::closing::closing::later) = placeholders later := by
  have notClosing : byte ≠ closing := by
    rintro rfl
    exact unescaped ⟨closing::later,rfl⟩
  have notOpening : byte ≠ opening := by
    rintro rfl
    rw [tokens_escape] at plain
    exact plain List.mem_cons_self
  rw [placeholders_verbatim (by simp [notClosing.symm]) (by simp [notOpening.symm]),
    placeholders_verbatim (by simp [notOpening.symm]) (by simp [notOpening.symm]),
    placeholders_verbatim (by simp) (by simp),placeholders_verbatim (by simp) (by simp)]

theorem uniform_verbatim_iff (unmatched : ¬ [opening,closing] <+: byte::rest)
    (unescaped : ¬ [opening,opening,closing,closing] <+: byte::rest) (some : placeholders rest ≠ 0) :
    Uniform (byte::rest) ↔ ¬ Lookalike (byte::rest) ∧ Uniform rest := by
  have same := tokens_verbatim unmatched unescaped
  have inner : rest <:+ byte::rest := List.suffix_cons byte rest
  constructor
  · intro uniform
    have plain : .escape ∉ tokens rest := fun member => uniform.plain (same ▸ List.mem_cons_of_mem _ member)
    refine ⟨?_,plain,fun third later there => uniform.clear third later (there.trans inner),?_⟩
    · rintro ⟨third,later,whole⟩
      have none := uniform.clear third later (whole ▸ List.suffix_refl _)
      obtain ⟨rfl,rfl⟩ := List.cons.inj whole
      exact some ((lookalike_inside unescaped plain).trans none)
    · rintro later (rfl | there) none
      · exact absurd none some
      · exact uniform.short later (Or.inr (there.trans inner)) none
  · rintro ⟨unlike,uniform⟩
    refine ⟨?_,?_,?_⟩
    · rw [same]
      simpa using uniform.plain
    · intro third later there
      rcases List.suffix_cons_iff.mp there with whole | inside
      · exact absurd ⟨third,later,whole.symm⟩ unlike
      · exact uniform.clear third later inside
    · rintro later (rfl | there) none
      · rw [placeholders_verbatim unmatched unescaped] at none
        exact absurd none some
      · rcases List.suffix_cons_iff.mp there with whole | inside
        · exact absurd ⟨later,whole⟩ unmatched
        · exact uniform.short later (Or.inr inside) none

private theorem none_in_suffix (plain : .escape ∉ tokens text) (none : placeholders text = 0) {later : List UInt8}
    (inside : later <:+ text) : placeholders later = 0 := by
  induction text using scan_induction with
  | nil =>
    rw [List.suffix_nil.mp inside]
    rfl
  | placeholder rest ih => simp [placeholders_placeholder] at none
  | escape rest ih => simp [tokens_escape] at plain
  | verbatim byte rest unmatched unescaped ih =>
    rcases List.suffix_cons_iff.mp inside with rfl | inner
    · exact none
    · rw [tokens_verbatim unmatched unescaped] at plain
      rw [placeholders_verbatim unmatched unescaped] at none
      exact ih (fun member => plain (List.mem_cons_of_mem _ member)) none inner

theorem uniform_rest_iff (none : placeholders text = 0) : Uniform text ↔ .escape ∉ tokens text ∧ text.length < 2^31 := by
  constructor
  · intro uniform
    exact ⟨uniform.plain,uniform.short text (Or.inl rfl) none⟩
  · rintro ⟨plain,short⟩
    refine ⟨plain,?_,?_⟩
    · intro byte rest there
      exact none_in_suffix plain none ((List.suffix_append [opening,opening,byte,closing,closing] rest).trans there)
    · rintro rest (rfl | there) _
      · exact short
      · have shorter := there.length_le
        simp only [List.length_cons] at shorter
        omega

end Uniform

section Agreement
variable {α : Type} (writeValue : α → WriterM Unit) {str : Pointer} {rounds : Nat} {text : List UInt8}

theorem render_plain (none : placeholders text = 0) (plain : .escape ∉ tokens text) (written : List UInt8) :
    render writeValue (tokens text) [] written = .ok () (written ++ text) := by
  induction text using scan_induction generalizing written with
  | nil => simp [tokens,tokensFrom,render]
  | placeholder rest ih => simp [placeholders_placeholder] at none
  | escape rest ih => simp [tokens_escape] at plain
  | verbatim byte rest unmatched unescaped ih =>
    rw [tokens_verbatim unmatched unescaped] at plain ⊢
    rw [placeholders_verbatim unmatched unescaped] at none
    rw [render,bind_of_ok (outText_apply _ written),ih none (fun member => plain (List.mem_cons_of_mem _ member)),
      List.append_assoc]
    rfl

theorem writeArgs_of_uniform (uniform : Uniform text) {args : List α} (accepted : args.length = placeholders text)
    (here : At str rounds text) (written : List UInt8) :
    writeArgs writeValue rounds str args written = render writeValue (tokens text) args written := by
  induction text using scan_induction generalizing str rounds args written with
  | nil =>
    obtain rfl : args = [] := List.eq_nil_of_length_eq_zero accepted
    rw [writeArgs_rest_short writeValue written here (by decide)]
    simp [tokens,tokensFrom,render]
  | placeholder rest ih =>
    rw [placeholders_placeholder] at accepted
    rw [uniform_placeholder_iff] at uniform
    obtain ⟨arg,args,rfl⟩ := List.exists_cons_of_length_eq_add_one accepted
    obtain ⟨rounds,rfl⟩ := here.round
    rcases writeArgs_cases writeValue arg args written here with ⟨empty,_⟩ | ⟨later,whole,next,step⟩ | ⟨_,_,whole,_⟩ |
      ⟨whole,_⟩ | ⟨_,_,_,unmatched,_⟩
    · cases empty
    · obtain rfl : rest = later := by simpa using whole
      rw [step,tokens_placeholder,render]
      have same : writeArgs writeValue rounds (str.advance 2) args = render writeValue (tokens rest) args := by
        funext written
        exact ih uniform (by simpa using accepted) next written
      rw [same]
    · simp at whole
    · simp at whole
    · exact absurd ⟨rest,rfl⟩ unmatched
  | escape rest ih =>
    have plain := uniform.plain
    rw [tokens_escape] at plain
    exact absurd List.mem_cons_self plain
  | verbatim byte rest unmatched unescaped ih =>
    rw [placeholders_verbatim unmatched unescaped] at accepted
    cases args with
    | nil =>
      have none : placeholders (byte::rest) = 0 := by
        rw [placeholders_verbatim unmatched unescaped,← accepted]
        rfl
      obtain ⟨plain,short⟩ := (uniform_rest_iff none).mp uniform
      rw [writeArgs_rest_short writeValue written here short,render_plain writeValue none plain]
    | cons arg args =>
      have some : placeholders rest ≠ 0 := by
        rw [← accepted]
        simp
      obtain ⟨unlike,inner⟩ := (uniform_verbatim_iff unmatched unescaped some).mp uniform
      obtain ⟨rounds,rfl⟩ := here.round
      rcases writeArgs_cases writeValue arg args written here with ⟨empty,_⟩ | ⟨later,whole,_⟩ | ⟨third,later,whole,_⟩ |
        ⟨whole,_⟩ | ⟨first,later,whole,_,_,next,step⟩
      · cases empty
      · exact absurd ⟨later,whole.symm⟩ unmatched
      · exact absurd ⟨third,later,whole⟩ unlike
      · obtain ⟨rfl,rfl⟩ := List.cons.inj whole
        exact absurd (by decide) some
      · obtain ⟨rfl,rfl⟩ := List.cons.inj whole
        rw [step,ih inner accepted next,tokens_verbatim unmatched unescaped,render,bind_of_ok (outText_apply _ written)]

end Agreement

section Disagreement
variable {α : Type} {writeValue : α → WriterM Unit} {arg : α} {filler : List UInt8}
  (writes : ∀ written, writeValue arg written = .ok () (written ++ filler))
  {str : Pointer} {rounds : Nat} {text : List UInt8} {written : List UInt8}

theorem count_mul_le_shown (filler : List UInt8) (list : List Token) :
    list.count .placeholder * filler.length ≤ (list.flatMap (shown filler)).length := by
  induction list with
  | nil => simp
  | cons token list ih =>
    rw [List.flatMap_cons,List.length_append]
    cases token with
    | verbatim byte =>
      rw [List.count_cons_of_ne (by simp)]
      omega
    | escape =>
      rw [List.count_cons_of_ne (by simp)]
      omega
    | placeholder =>
      rw [List.count_cons_self,Nat.add_mul,Nat.one_mul,shown]
      omega

theorem writeArgs_rest_differs (bounded : text.length < 2^63) (here : At str rounds text) (none : placeholders text = 0)
    (bad : ¬ Uniform text) :
    writeArgs writeValue rounds str [] written ≠ .ok () (written ++ (tokens text).flatMap (shown filler)) := by
  rw [writeArgs_rest writeValue written here,out]
  split
  · rename_i fits
    intro same
    rw [outText_apply] at same
    simp only [EStateM.Result.ok.injEq,true_and,List.append_cancel_left_eq,here.bytes] at same
    rw [here.bytes,List.length_append,List.length_singleton] at fits
    by_cases escaped : .escape ∈ tokens text
    · exact take_ne_shown filler none escaped [0] _ same
    · rw [shown_plain filler none escaped] at same
      have length := congrArg List.length same
      rw [List.length_take,List.length_append,List.length_singleton] at length
      have whole : restSize text.length = text.length := by omega
      exact bad ((uniform_rest_iff none).mpr ⟨escaped,(restSize_eq_iff bounded).mp whole⟩)
  · exact nofun

include writes

theorem writeArgs_grows {count : Nat} {final : List UInt8} (here : At str rounds text)
    (ok : writeArgs writeValue rounds str (List.replicate count arg) written = .ok () final) :
    written <+: final ∧ final.length ≤ written.length + text.length + 1 + count * filler.length := by
  induction rounds generalizing str text count written with
  | zero => exact absurd here.enough (Nat.not_lt_zero _)
  | succ rounds ih =>
    cases count with
    | zero =>
      rw [List.replicate_zero,writeArgs_rest writeValue written here,out] at ok
      split at ok
      · cases ok
        rw [here.bytes]
        refine ⟨List.prefix_append _ _,?_⟩
        rw [List.length_append,List.length_take,List.length_append,List.length_singleton]
        omega
      · cases ok
    | succ count =>
      rw [List.replicate_succ] at ok
      rw [Nat.add_mul,Nat.one_mul]
      rcases writeArgs_cases writeValue arg (List.replicate count arg) written here with ⟨rfl,step⟩ | ⟨later,rfl,next,step⟩ |
        ⟨third,later,rfl,next,step⟩ | ⟨rfl,step⟩ | ⟨first,later,rfl,_,_,next,step⟩
      · rw [step] at ok
        cases ok
        exact ⟨List.prefix_refl _,by omega⟩
      · rw [step,bind_of_ok (writes written)] at ok
        obtain ⟨before,size⟩ := ih next ok
        refine ⟨(List.prefix_append _ _).trans before,?_⟩
        simp only [List.length_append,List.length_cons] at size ⊢
        omega
      · rw [step] at ok
        obtain ⟨before,size⟩ := ih next ok
        refine ⟨(List.prefix_append _ _).trans before,?_⟩
        simp only [List.length_append,List.length_cons,List.length_nil] at size ⊢
        omega
      · rw [step] at ok
        cases ok
      · rw [step,← List.replicate_succ] at ok
        obtain ⟨before,size⟩ := ih next ok
        refine ⟨(List.prefix_append _ _).trans before,?_⟩
        simp only [List.length_append,List.length_cons,List.length_nil,Nat.add_mul,Nat.one_mul] at size ⊢
        omega

theorem writeArgs_dropped {count : Nat} {third : UInt8} {later : List UInt8}
    (long : (opening::opening::third::closing::closing::later).length < filler.length)
    (counted : placeholders (opening::opening::third::closing::closing::later) = count + 1) (next : At str rounds later) :
    writeArgs writeValue rounds str (List.replicate count arg) (written ++ [opening,closing]) ≠
      .ok () (written ++ (tokens (opening::opening::third::closing::closing::later)).flatMap (shown filler)) := by
  intro same
  have size := (writeArgs_grows writes next same).2
  have least := count_mul_le_shown filler (tokens (opening::opening::third::closing::closing::later))
  rw [show (tokens _).count .placeholder = count + 1 from counted,Nat.add_mul,Nat.one_mul] at least
  simp only [List.length_append,List.length_cons,List.length_nil] at size long
  omega

/-- An escape that the writer does not see gets the next argument between its braces. -/
theorem writeArgs_unseen {count : Nat} {rest : List UInt8} (foreign : filler.head? ≠ some closing) (nonempty : filler ≠ [])
    (here : At str (rounds + 1) (opening::opening::closing::closing::rest))
    (unlike : ¬ Lookalike (opening::opening::closing::closing::rest)) :
    writeArgs writeValue (rounds + 1) str (List.replicate (count + 1) arg) written ≠
      .ok () (written ++ (tokens (opening::opening::closing::closing::rest)).flatMap (shown filler)) := by
  rw [List.replicate_succ,tokens_escape]
  rcases writeArgs_cases writeValue arg (List.replicate count arg) written here with ⟨empty,_⟩ | ⟨later,whole,_⟩ |
    ⟨third,later,whole,_⟩ | ⟨whole,_⟩ | ⟨first,later,whole,_,_,next,step⟩
  · cases empty
  · simp at whole
  · exact absurd ⟨third,later,whole⟩ unlike
  · simp at whole
  · obtain ⟨rfl,rfl⟩ := List.cons.inj whole
    obtain ⟨rounds,rfl⟩ := next.round
    rw [step]
    rcases writeArgs_cases writeValue arg (List.replicate count arg) (written ++ [opening]) next with ⟨empty,_⟩ |
      ⟨inner,whole,after,step⟩ | ⟨_,_,whole,_⟩ | ⟨whole,_⟩ | ⟨_,_,_,unmatched,_⟩
    · cases empty
    · rw [step,bind_of_ok (writes _)]
      intro same
      obtain ⟨tail,grown⟩ := (writeArgs_grows writes after same).1
      rw [List.append_assoc,List.append_assoc] at grown
      have braces := List.append_cancel_left grown
      simp only [List.flatMap_cons,shown,List.cons_append,List.nil_append,List.cons.injEq,true_and] at braces
      obtain ⟨head,body,rfl⟩ := List.exists_cons_of_ne_nil nonempty
      rw [List.cons_append,List.cons.injEq] at braces
      exact foreign (congrArg some braces.1)
    · simp at whole
    · simp at whole
    · exact absurd ⟨_,rfl⟩ unmatched

theorem writeArgs_differs (foreign : filler.head? ≠ some closing) (bounded : text.length < 2^63)
    (long : text.length < filler.length) (here : At str rounds text) (bad : ¬ Uniform text) :
    writeArgs writeValue rounds str (List.replicate (placeholders text) arg) written ≠
      .ok () (written ++ (tokens text).flatMap (shown filler)) := by
  have nonempty : filler ≠ [] := by
    rintro rfl
    exact Nat.not_lt_zero _ long
  induction text using scan_induction generalizing str rounds written with
  | nil => exact absurd uniform_nil bad
  | placeholder rest ih =>
    rw [placeholders_placeholder,List.replicate_succ,tokens_placeholder,List.flatMap_cons,← List.append_assoc]
    obtain ⟨rounds,rfl⟩ := here.round
    rcases writeArgs_cases writeValue arg (List.replicate (placeholders rest) arg) written here with ⟨empty,_⟩ |
      ⟨later,whole,next,step⟩ | ⟨_,_,whole,_⟩ | ⟨whole,_⟩ | ⟨_,_,_,unmatched,_⟩
    · cases empty
    · obtain rfl : rest = later := by simpa using whole
      rw [step,bind_of_ok (writes written)]
      simp only [List.length_cons] at bounded long
      exact ih (by omega) (by omega) next fun uniform => bad (uniform_placeholder_iff.mpr uniform)
    · simp at whole
    · simp at whole
    · exact absurd ⟨rest,rfl⟩ unmatched
  | escape rest ih =>
    cases counted : placeholders (opening::opening::closing::closing::rest) with
    | zero => exact writeArgs_rest_differs bounded here counted bad
    | succ count =>
      obtain ⟨rounds,rfl⟩ := here.round
      by_cases seen : Lookalike (opening::opening::closing::closing::rest)
      · obtain ⟨third,later,whole⟩ := seen
        rw [whole] at counted here long ⊢
        rw [List.replicate_succ]
        rcases writeArgs_cases writeValue arg (List.replicate count arg) written here with ⟨empty,_⟩ | ⟨_,other,_⟩ |
          ⟨byte,inner,same,next,step⟩ | ⟨other,_⟩ | ⟨_,_,_,_,unlike,_⟩
        · cases empty
        · simp at other
        · rw [step]
          obtain ⟨rfl,rfl⟩ : third = byte ∧ later = inner := by simpa using same
          exact writeArgs_dropped writes long counted next
        · simp at other
        · exact absurd ⟨third,later,rfl⟩ unlike
      · exact writeArgs_unseen writes foreign nonempty here seen
  | verbatim byte rest unmatched unescaped ih =>
    cases counted : placeholders (byte::rest) with
    | zero => exact writeArgs_rest_differs bounded here counted bad
    | succ count =>
      have inner : placeholders rest = count + 1 := by rw [← counted,placeholders_verbatim unmatched unescaped]
      obtain ⟨rounds,rfl⟩ := here.round
      rw [List.replicate_succ]
      rcases writeArgs_cases writeValue arg (List.replicate count arg) written here with ⟨empty,_⟩ | ⟨later,whole,_⟩ |
        ⟨third,later,whole,next,step⟩ | ⟨_,step⟩ | ⟨first,later,whole,_,unlike,next,step⟩
      · cases empty
      · exact absurd ⟨later,whole.symm⟩ unmatched
      · rw [whole] at counted long ⊢
        rw [step]
        exact writeArgs_dropped writes long counted next
      · rw [step]
        exact nofun
      · obtain ⟨rfl,rfl⟩ := List.cons.inj whole
        rw [step,← List.replicate_succ,← inner,tokens_verbatim unmatched unescaped,List.flatMap_cons,← List.append_assoc]
        simp only [List.length_cons] at bounded long
        refine ih (by omega) (by omega) next fun uniform => bad ?_
        exact (uniform_verbatim_iff unmatched unescaped (by omega)).mpr ⟨unlike,uniform⟩

end Disagreement

theorem at_start (string : CString) : At string.pointer string.pointer.bytes.length string.text where
  bytes := rfl
  enough := by simp [CString.pointer,Pointer.bytes]
  unbroken := string.unbroken

/-- Whatever arguments the constructor accepts, the writer does what the format string
means, exactly when the format string is uniform. -/
theorem format_agrees_iff (floats : FloatWriter) (str : CString) :
    (∀ args : List Value, formatString str.pointer args.length = .ok true → ∀ written,
      format (writeValue floats) str.pointer args written = render (writeValue floats) (tokens str.text) args written) ↔
      Uniform str.text := by
  have accepts : ∀ args : List Value, formatString str.pointer args.length = .ok true ↔
      args.length = placeholders str.text := by
    intro args
    rw [formatString,countLoop_eq str.text (at_start str),Nat.zero_add,ok_bind,pure_eq_ok,Except.ok.injEq,decide_eq_true_eq]
    exact eq_comm
  constructor
  · intro agrees
    by_contra bad
    obtain ⟨filler,made⟩ : ∃ filler, filler = List.replicate (str.text.length + 1) 'x'.toUInt8 := ⟨_,rfl⟩
    have writes : ∀ written, writeValue floats (.view (.literal filler)) written = .ok () (written ++ filler) := by
      intro written
      rw [writeValue,out,if_pos (by simp [StringView.literal,Pointer.bytes])]
      simp [StringView.literal,Pointer.bytes]
    have foreign : filler.head? ≠ some closing := by
      rw [made,List.replicate_succ,List.head?_cons]
      decide
    have long : str.text.length < filler.length := by rw [made,List.length_replicate]; omega
    have same := agrees (List.replicate (placeholders str.text) (.view (.literal filler)))
      ((accepts _).mpr List.length_replicate) []
    rw [placeholders,render_replicate writes (tokens str.text) []] at same
    exact writeArgs_differs writes foreign str.small long (at_start str) bad same
  · intro uniform args accepted written
    exact writeArgs_of_uniform _ uniform ((accepts args).mp accepted) (at_start str) written

def braces : CString := ⟨[opening,opening,closing,closing],by decide,by decide⟩

/-- An escape without arguments is written as it is. -/
theorem format_escape_alone : formatString braces.pointer 0 = .ok true ∧
    format (writeValue ⟨fun _ => pure (),fun _ => pure ()⟩) braces.pointer [] [] =
      .ok () [opening,opening,closing,closing] ∧
    render (writeValue ⟨fun _ => pure (),fun _ => pure ()⟩) (tokens braces.text) [] [] = .ok () [opening,closing] ∧
    [opening,opening,closing,closing] ≠ [opening,closing] := by
  refine ⟨rfl,rfl,rfl,by decide⟩

end BorealOS.Utility.Formatter
