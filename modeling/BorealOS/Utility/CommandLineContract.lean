import BorealOS.Utility.CommandLine

/-! The contract of the command line. A line made of well-formed arguments with
different identifiers is split into these arguments, and each instance of
`GetValue` answers by the one argument that has the identifier. -/
namespace BorealOS.Utility

open ByteObject StringView

structure IsIdentifier (text : List UInt8) : Prop where
  nonempty : text ≠ []
  plain : ∀ c ∈ text, c ≠ equals ∧ c ≠ space ∧ c ≠ quotation ∧ c ≠ 0

/-- An argument with or without a value. Spaces in a value are quoted, and quotes come
in pairs. -/
structure Argument where
  ident : List UInt8
  value : Option (List UInt8)
  identifier : IsIdentifier ident
  unbroken : ∀ v, value = some v → 0 ∉ v
  balanced : ∀ v, value = some v → v.count quotation % 2 = 0
  quoted : ∀ v, value = some v → ∀ before after, v = before ++ space :: after → before.count quotation % 2 = 1

namespace Argument

def text (argument : Argument) : List UInt8 :=
  match argument.value with
  | none => argument.ident
  | some v => argument.ident ++ equals :: v

end Argument

def oddQuotes (text : List UInt8) : Bool := decide (text.count quotation % 2 = 1)

theorem oddQuotes_cons (c : UInt8) (text : List UInt8) : oddQuotes (c::text) = ((c == quotation) != oddQuotes text) := by
  unfold oddQuotes
  by_cases quote : c = quotation
  · subst quote
    rw [List.count_cons_self,decide_odd_succ]
    simp
  · rw [List.count_cons_of_ne quote]
    have apart : (c == quotation) = false := by simpa using quote
    simp [apart]

theorem pieces_solid {quotes : Bool} {text : List UInt8} (start : Nat) (current rest : List UInt8)
    (solid : ∀ before after, text = before ++ space :: after → (quotes != oddQuotes before) = true) :
    pieces false quotes start current (text ++ rest) = pieces false (quotes != oddQuotes text) start (current ++ text) rest := by
  induction text generalizing quotes current with
  | nil => simp [oddQuotes]
  | cons c text ih =>
    have goes : ¬ (c = space ∧ quotes = false) := by
      rintro ⟨rfl,rfl⟩
      have inside := solid [] text rfl
      simp [oddQuotes] at inside
    rw [List.cons_append,pieces,if_neg (by simp),if_neg goes,ih (current ++ [c]),oddQuotes_cons]
    · simp
    · intro before after same
      have inside := solid (c::before) after (by rw [same]; rfl)
      rw [oddQuotes_cons] at inside
      simpa using inside

private theorem pieces_plain {text : List UInt8} (start : Nat) (current rest : List UInt8)
    (plain : ∀ c ∈ text, c ≠ space ∧ c ≠ quotation) :
    pieces false false start current (text ++ rest) = pieces false false start (current ++ text) rest := by
  have even : oddQuotes text = false := by
    have none : text.count quotation = 0 := List.count_eq_zero.mpr fun inside => (plain _ inside).2 rfl
    simp [oddQuotes,none]
  rw [pieces_solid]
  · rw [even]
    rfl
  · rintro before after rfl
    exact absurd rfl (plain space (by simp)).1

namespace Argument

theorem pieces_text (argument : Argument) (start : Nat) (rest : List UInt8) :
    pieces false false start [] (argument.text ++ rest) = pieces false false start argument.text rest := by
  have plain : ∀ c ∈ argument.ident, c ≠ space ∧ c ≠ quotation := fun c inside =>
    ⟨(argument.identifier.plain c inside).2.1,(argument.identifier.plain c inside).2.2.1⟩
  cases value : argument.value with
  | none =>
    rw [text,value]
    exact pieces_plain start [] rest plain
  | some v =>
    have named : ∀ c ∈ argument.ident ++ [equals], c ≠ space ∧ c ≠ quotation := by
      intro c inside
      rcases List.mem_append.mp inside with before | last
      · exact plain c before
      · rw [List.mem_singleton.mp last]
        decide
    have regroup : argument.ident ++ equals :: v = argument.ident ++ [equals] ++ v := by simp
    have even : oddQuotes v = false := by simp [oddQuotes,argument.balanced v value]
    rw [text,value]
    simp only [regroup]
    rw [List.append_assoc,pieces_plain start [] (v ++ rest) named,List.nil_append,pieces_solid,even]
    · rfl
    · intro before after same
      simp [oddQuotes,argument.quoted v value before after same]

theorem text_start (argument : Argument) : ∃ c rest, argument.text = c :: rest ∧ c ≠ space := by
  obtain ⟨c,rest,start⟩ := List.exists_cons_of_ne_nil argument.identifier.nonempty
  have plain := (argument.identifier.plain c (by simp [start])).2.1
  cases value : argument.value with
  | none => exact ⟨c,rest,by rw [text,value]; exact start,plain⟩
  | some v => exact ⟨c,rest ++ equals :: v,by rw [text,value]; simp only [start,List.cons_append],plain⟩

theorem pieces_skipping (argument : Argument) (skipping : Bool) (start : Nat) (rest : List UInt8) :
    pieces skipping false start [] (argument.text ++ rest) = pieces false false start argument.text rest := by
  rw [← argument.pieces_text]
  obtain ⟨c,later,begins,other⟩ := argument.text_start
  rw [begins,List.cons_append]
  simp only [pieces,other,and_false,false_and,if_false]

end Argument

theorem pieces_joined {args : List Argument} (some : args ≠ []) (skipping : Bool) (start : Nat) :
    (pieces skipping false start [] ([space].intercalate (args.map Argument.text))).map (Option.map Piece.text) =
      args.map fun argument => Option.some argument.text := by
  induction args generalizing skipping start with
  | nil => exact absurd rfl some
  | cons argument args ih =>
    cases args with
    | nil =>
      rw [List.map_singleton,List.intercalate_singleton,← List.append_nil argument.text,argument.pieces_skipping]
      simp [pieces]
    | cons other args =>
      have rest := ih (by simp) true (start + argument.text.length + 1)
      rw [List.map_cons,List.map_cons,List.intercalate_cons_cons,List.append_assoc,argument.pieces_skipping,
        List.singleton_append,pieces,if_neg (by simp),if_pos ⟨rfl,rfl⟩,List.map_cons]
      rw [List.map_cons] at rest
      rw [rest]
      rfl

section Line
variable {args : List Argument} {line : CString}

theorem slots_joined (nonempty : args ≠ []) (joined : line.text = [space].intercalate (args.map Argument.text)) :
    (slotsOf line).map StringView.text = args.map Argument.text ∧ ∀ view ∈ slotsOf line,
      view.Readable ∧ 0 < view.size ∧ view.size < 2^63 := by
  have whole : (piecesOf line.text).map (Option.map Piece.text) = args.map fun argument => some argument.text := by
    rw [joined]
    exact pieces_joined nonempty false 0
  have written : ∀ slot ∈ piecesOf line.text, ∃ piece argument, slot = some piece ∧ argument ∈ args ∧
      piece.text = Argument.text argument := by
    intro slot member
    have listed : slot.map Piece.text ∈ args.map fun argument => some argument.text :=
      whole ▸ List.mem_map_of_mem member
    obtain ⟨argument,inside,same⟩ := List.mem_map.mp listed
    obtain ⟨piece,rfl,equal⟩ := Option.map_eq_some_iff.mp same.symm
    exact ⟨piece,argument,rfl,inside,equal⟩
  constructor
  · apply List.map_injective_iff.mpr (Option.some_injective _)
    rw [slotsOf,List.map_map,List.map_map,List.map_map]
    refine Eq.trans (List.map_congr_left ?_) whole
    intro slot inside
    obtain ⟨piece,argument,rfl,_,_⟩ := written slot inside
    have text := (viewOf_piece line (piecesOf_inText inside)).2.1
    simp [text]
  · intro view member
    obtain ⟨slot,inside,rfl⟩ := List.mem_map.mp member
    obtain ⟨piece,argument,rfl,_,same⟩ := written slot inside
    obtain ⟨readable,text,small⟩ := viewOf_piece line (piecesOf_inText inside)
    refine ⟨readable,?_,small⟩
    change 0 < piece.text.length
    obtain ⟨c,rest,begins,_⟩ := argument.text_start
    rw [same,begins]
    simp

end Line

open CommandLineExtractor

namespace Argument

variable (argument : Argument)

theorem equals_notMem : equals ∉ argument.ident := fun inside => (argument.identifier.plain _ inside).1 rfl

theorem idxOf_equals {v : List UInt8} (value : argument.value = some v) :
    argument.text = argument.ident ++ equals :: v ∧ argument.text.idxOf equals = argument.ident.length := by
  have whole : argument.text = argument.ident ++ equals :: v := by rw [text,value]
  refine ⟨whole,?_⟩
  rw [whole,List.idxOf_append_of_notMem argument.equals_notMem,List.idxOf_cons_self,Nat.add_zero]

theorem named_iff (name : List UInt8) : Named name argument.text ↔ argument.ident = name ∧ argument.value ≠ none := by
  cases value : argument.value with
  | none =>
    have bare : argument.text = argument.ident := by rw [text,value]
    simp [Named,bare,argument.equals_notMem]
  | some v =>
    obtain ⟨whole,index⟩ := argument.idxOf_equals value
    rw [Named,index,whole,List.take_left' rfl]
    simp

theorem valueText_text {v : List UInt8} (value : argument.value = some v) : valueText argument.text = v := by
  obtain ⟨whole,index⟩ := argument.idxOf_equals value
  rw [valueText,index,whole,List.drop_append]
  simp

theorem text_eq_iff {name : List UInt8} (identifier : IsIdentifier name) :
    argument.text = name ↔ argument.ident = name ∧ argument.value = none := by
  cases value : argument.value with
  | none =>
    have bare : argument.text = argument.ident := by rw [text,value]
    simp [bare]
  | some v =>
    simp only [reduceCtorEq,and_false,iff_false]
    rintro rfl
    refine (identifier.plain equals ?_).1 rfl
    rw [(argument.idxOf_equals value).1]
    simp

end Argument

/-- The value of the argument with a name: nothing where there is none, and no value
where it is bare. -/
def lookup (args : List Argument) (name : List UInt8) : Option (Option (List UInt8)) :=
  (args.find? fun argument => argument.ident = name).map Argument.value

theorem lookup_cons (argument : Argument) (args : List Argument) (name : List UInt8) :
    lookup (argument::args) name = if argument.ident = name then some argument.value else lookup args name := by
  by_cases same : argument.ident = name <;> simp [lookup,same]

theorem lookup_eq_none {args : List Argument} {name : List UInt8} (absent : name ∉ args.map Argument.ident) :
    lookup args name = none := by
  rw [lookup,Option.map_eq_none_iff,List.find?_eq_none]
  intro argument member same
  exact absent (List.mem_map.mpr ⟨argument,member,by simpa using same⟩)

theorem lookup_of_mem {args : List Argument} (distinct : (args.map Argument.ident).Nodup) {argument : Argument}
    (member : argument ∈ args) : lookup args argument.ident = some argument.value := by
  induction args with
  | nil => cases member
  | cons first args ih =>
    obtain ⟨new,rest⟩ := List.nodup_cons.mp distinct
    rw [lookup_cons]
    rcases List.mem_cons.mp member with rfl | later
    · rw [if_pos rfl]
    · rw [if_neg,ih rest later]
      intro same
      exact new (List.mem_map.mpr ⟨argument,later,same.symm⟩)

theorem findSome_lookup {β : Type} {args : List Argument} (distinct : (args.map Argument.ident).Nodup) (name : List UInt8)
    (answer : Option (List UInt8) → Option β) :
    args.findSome? (fun argument => if argument.ident = name then answer argument.value else none) =
      (lookup args name).bind answer := by
  induction args with
  | nil => rfl
  | cons first args ih =>
    obtain ⟨new,rest⟩ := List.nodup_cons.mp distinct
    rw [List.findSome?_cons,lookup_cons,ih rest]
    by_cases same : first.ident = name
    · rw [if_pos same,if_pos same,lookup_eq_none (same ▸ new),Option.bind_some]
      cases answer first.value <;> rfl
    · rw [if_neg same,if_neg same]

/-- What a call of `Parse` makes an instance return. -/
def accepted {α : Type} (call : Except Fault (Bool × α)) : Except Fault (Option α) := do
  let (parsed,value) ← call
  return if parsed then some value else none

theorem accepted_answer {α : Type} (value : α) (parsed : Option α) :
    accepted (.ok (Formatter.answer value parsed)) = .ok parsed := by
  cases parsed <;> rfl

def unquoted (v : List UInt8) : List UInt8 := if v[0]? = some quotation then (v.drop 1).take (v.length - 2) else v

inductive Spells : (v text : List UInt8) → Prop
  | plain {text : List UInt8} : quotation ∉ text → Spells text text
  | quoted {text : List UInt8} : quotation ∉ text → Spells (quotation :: text ++ [quotation]) text

theorem Spells.unquoted_eq {v text : List UInt8} (spells : Spells v text) : unquoted v = text := by
  cases spells with
  | plain free =>
    rw [unquoted,if_neg]
    intro first
    exact free (List.mem_of_getElem? first)
  | quoted free => simp [unquoted]

theorem stripQuotes_text {value : StringView} (readable : value.Readable) (small : value.size < 2^63) :
    (stripQuotes value).Readable ∧ (stripQuotes value).text = unquoted value.text := by
  have length := readable.length_text
  unfold stripQuotes unquoted
  by_cases quote : value.text[0]? = some quotation
  · have positive : 0 < value.size := by
      obtain ⟨inside,_⟩ := List.getElem?_eq_some_iff.mp quote
      omega
    rw [if_pos quote,if_pos quote,length]
    by_cases single : value.size = 1
    · have past : value.substring 1 ((value.size + 2^64 - 2) % 2^64) = value.substring 1 0 := by
        rw [substring,substring,if_pos (by omega),if_pos (by omega)]
      rw [past]
      refine ⟨readable_substring readable (by omega),?_⟩
      rw [text_substring readable (by omega),single]
    · have wrap : (value.size + 2^64 - 2) % 2^64 = value.size - 2 := by omega
      rw [wrap]
      exact ⟨readable_substring readable (by omega),text_substring readable (by omega)⟩
  · rw [if_neg quote,if_neg quote]
    exact ⟨readable,rfl⟩

theorem stringAnswer_text (identifier : CString) {view : StringView} (readable : view.Readable) (small : view.size < 2^63) :
    (stringAnswer identifier view).map (Option.map StringView.text) =
      if Named identifier.text view.text then some ((some (unquoted (valueText view.text))).filter fun text => 0 < text.length)
      else none := by
  unfold stringAnswer
  by_cases named : Named identifier.text view.text
  · have inside := readable_substringFrom readable (view.text.idxOf equals + 1)
    have text := text_substringFrom readable (view.text.idxOf equals + 1)
    have less : (view.substringFrom (view.text.idxOf equals + 1)).size < 2^63 := by
      rw [← inside.length_text,text,List.length_drop,readable.length_text]
      omega
    obtain ⟨stripped,same⟩ := stripQuotes_text inside less
    rw [text,← valueText] at same
    have size : (stripQuotes (view.substringFrom (view.text.idxOf equals + 1))).size = (unquoted (valueText view.text)).length := by
      rw [← stripped.length_text,same]
    rw [if_pos named,if_pos named]
    by_cases positive : 0 < (unquoted (valueText view.text)).length
    · simp [Option.filter,size,positive,same]
    · simp [Option.filter,size,positive]
  · simp [named]

private theorem findSome_congr {α β : Type} {first second : α → Option β} {list : List α}
    (agree : ∀ x ∈ list, first x = second x) : list.findSome? first = list.findSome? second := by
  induction list with
  | nil => rfl
  | cons x list ih =>
    rw [List.findSome?_cons,List.findSome?_cons,agree x List.mem_cons_self,
      ih fun y member => agree y (List.mem_cons_of_mem _ member)]

section Calls
variable {args : List Argument} {line : CString} (nonempty : args ≠ []) (distinct : (args.map Argument.ident).Nodup)
  (joined : line.text = [space].intercalate (args.map Argument.text))
include nonempty joined

theorem loop_joined {α : Type} {loop : List StringView → Except Fault α} {answer : StringView → Option α} {ending : α}
    (searching : Searching loop answer ending) : loop (slotsOf line) = .ok (((slotsOf line).findSome? answer).getD ending) := by
  have run := searching.run (slotsOf line) [] (slots_joined nonempty joined).2
  rw [List.append_nil,searching.done] at run
  rw [run]
  cases (slotsOf line).findSome? answer <;> rfl

include distinct

theorem findSome_slots {β : Type} (name : List UInt8) (answer : List UInt8 → Option β) (byValue : Option (List UInt8) → Option β)
    (agree : ∀ argument : Argument, answer argument.text = if argument.ident = name then byValue argument.value else none) :
    (slotsOf line).findSome? (fun view => answer view.text) = (lookup args name).bind byValue := by
  have texts : (slotsOf line).findSome? (fun view => answer view.text) =
      ((slotsOf line).map StringView.text).findSome? answer := by
    rw [List.findSome?_map]
    rfl
  rw [texts,(slots_joined nonempty joined).1,List.findSome?_map,← findSome_lookup distinct name byValue]
  congr 1
  exact funext agree

variable (identifier : CString) (named : IsIdentifier identifier.text)
include named

theorem getValueBool_joined : getValueBool ⟨some line,true⟩ identifier.view = match lookup args identifier.text with
    | some (some v) => accepted (Formatter.parseBool (.literal v) false)
    | some none => .ok (some true)
    | none => .ok (some false) := by
  have first : (slotsOf line).findSome? (boolAnswer identifier) = _ := findSome_slots nonempty distinct joined identifier.text
    (fun text => if text = identifier.text then some (some true)
      else if Named identifier.text text then some (Formatter.boolOf (valueText text)) else none)
    (fun value => some (value.elim (some true) Formatter.boolOf)) (by
      intro argument
      simp only [argument.text_eq_iff named,argument.named_iff]
      cases value : argument.value with
      | none => by_cases same : argument.ident = identifier.text <;> simp [same]
      | some v => by_cases same : argument.ident = identifier.text <;> simp [same,argument.valueText_text value])
  have run := loop_joined nonempty joined (boolLoop_searching identifier named.nonempty)
  rw [getValueBool,search_some,run,first]
  cases lookup args identifier.text with
  | none => rfl
  | some value =>
    cases value with
    | none => rfl
    | some v =>
      simp only [Formatter.parseBool_text (readable_literal v),text_literal,accepted_answer]
      rfl

private theorem integer_joined {α : Type} [Inhabited α] (parse : StringView → α → Except Fault (Bool × α))
    (parsed : List UInt8 → Option α)
    (spec : ∀ view value, view.Readable → parse view value = .ok (Formatter.answer value (parsed view.text))) :
    search (integerLoop parse) ⟨some line,true⟩ identifier.view = match lookup args identifier.text with
    | some (some v) => accepted (parse (.literal v) default)
    | _ => .ok none := by
  have first : (slotsOf line).findSome? (integerAnswer identifier parsed) = _ :=
    findSome_slots nonempty distinct joined identifier.text
    (fun text => if Named identifier.text text then some (parsed (valueText text)) else none)
    (fun value => value.map parsed) (by
      intro argument
      simp only [argument.named_iff]
      cases value : argument.value with
      | none => simp
      | some v => by_cases same : argument.ident = identifier.text <;> simp [same,argument.valueText_text value])
  have run := loop_joined nonempty joined (integerLoop_searching identifier parse parsed spec named.nonempty)
  rw [search_some,run,first]
  cases lookup args identifier.text with
  | none => rfl
  | some value =>
    cases value with
    | none => rfl
    | some v =>
      simp only [spec _ _ (readable_literal v),text_literal,accepted_answer]
      rfl

theorem getValueStringView_joined : (getValueStringView ⟨some line,true⟩ identifier.view).map (Option.map StringView.text) =
    match lookup args identifier.text with
    | some (some v) => .ok ((some (unquoted v)).filter fun text => 0 < text.length)
    | _ => .ok none := by
  have first := findSome_slots nonempty distinct joined identifier.text
    (fun text => if Named identifier.text text then
      some ((some (unquoted (valueText text))).filter fun text => 0 < text.length) else none)
    (fun value => value.map fun v => (some (unquoted v)).filter fun text => 0 < text.length) (by
      intro argument
      simp only [argument.named_iff]
      cases value : argument.value with
      | none => simp
      | some v => by_cases same : argument.ident = identifier.text <;> simp [same,argument.valueText_text value])
  have run := loop_joined nonempty joined (stringLoop_searching identifier named.nonempty)
  have texts : ((slotsOf line).findSome? (stringAnswer identifier)).map (Option.map StringView.text) =
      (slotsOf line).findSome? fun view => if Named identifier.text view.text then
        some ((some (unquoted (valueText view.text))).filter fun text => 0 < text.length) else none := by
    rw [List.map_findSome?]
    apply findSome_congr
    intro view member
    obtain ⟨readable,_,small⟩ := (slots_joined nonempty joined).2 view member
    exact stringAnswer_text identifier readable small
  rw [first] at texts
  rw [getValueStringView,search_some,run]
  have mapped : Except.map (Option.map StringView.text)
      (.ok (((slotsOf line).findSome? (stringAnswer identifier)).getD none) : Except Fault _) =
      .ok ((((slotsOf line).findSome? (stringAnswer identifier)).map (Option.map StringView.text)).getD none) := by
    cases (slotsOf line).findSome? (stringAnswer identifier) <;> rfl
  rw [mapped,texts]
  cases lookup args identifier.text with
  | none => rfl
  | some value => cases value <;> rfl

end Calls

/-- The documented contract of the command line. -/
theorem commandLine_contract (args : List Argument) (nonempty : args ≠ []) (distinct : (args.map Argument.ident).Nodup)
    (line : CString) (joined : line.text = [space].intercalate (args.map Argument.text)) :
    (∃ views, splitArguments line.view none = .ok (args.length,none) ∧
      splitArguments line.view (some (List.replicate args.length .blank)) = .ok (args.length,some views) ∧
      views.map StringView.text = args.map Argument.text) ∧
    (∀ argument ∈ args, lookup args argument.ident = some argument.value) ∧
    (∀ v text, Spells v text → unquoted v = text) ∧
    ∃ extractor reported, initializeFrom (some line) = .ok (extractor,reported) ∧
      ∀ identifier : CString, IsIdentifier identifier.text →
        (extractor.getValueUInt64 identifier.view = match lookup args identifier.text with
          | some (some v) => accepted (Formatter.parseUInt64 (.literal v) default)
          | _ => .ok none) ∧
        (extractor.getValueInt64 identifier.view = match lookup args identifier.text with
          | some (some v) => accepted (Formatter.parseInt64 (.literal v) default)
          | _ => .ok none) ∧
        (extractor.getValueBool identifier.view = match lookup args identifier.text with
          | some (some v) => accepted (Formatter.parseBool (.literal v) false)
          | some none => .ok (some true)
          | none => .ok (some false)) ∧
        ((extractor.getValueStringView identifier.view).map (Option.map StringView.text) =
          match lookup args identifier.text with
          | some (some v) => .ok ((some (unquoted v)).filter fun text => 0 < text.length)
          | _ => .ok none) := by
  obtain ⟨texts,_⟩ := slots_joined nonempty joined
  have size : (piecesOf line.text).length = args.length := by
    have length := congrArg List.length texts
    simpa [slotsOf] using length
  have count := splitArguments_count line.readable
  have fill := splitArguments_fill line.readable
  rw [CString.text_view,size] at count fill
  obtain ⟨reported,started⟩ := initializeFrom_some line
  refine ⟨⟨slotsOf line,count,fill,texts⟩,fun argument member => lookup_of_mem distinct member,
    fun v text spells => spells.unquoted_eq,⟨some line,true⟩,reported,started,fun identifier named => ⟨?_,?_,?_,?_⟩⟩
  · exact integer_joined nonempty distinct joined identifier named _ _ fun _ value readable => Formatter.parseUInt64_text readable value
  · exact integer_joined nonempty distinct joined identifier named _ _ fun _ value readable => Formatter.parseInt64_text readable value
  · exact getValueBool_joined nonempty distinct joined identifier named
  · exact getValueStringView_joined nonempty distinct joined identifier named

/-! The line `debug level=2`. -/

def debugName : CString := ⟨Formatter.ascii ['d','e','b','u','g'],by decide,by decide⟩

def levelName : CString := ⟨Formatter.ascii ['l','e','v','e','l'],by decide,by decide⟩

theorem isIdentifier_debugName : IsIdentifier debugName.text := ⟨by decide,by decide +kernel⟩

theorem isIdentifier_levelName : IsIdentifier levelName.text := ⟨by decide,by decide +kernel⟩

def debugArgument : Argument where
  ident := debugName.text
  value := none
  identifier := isIdentifier_debugName
  unbroken := nofun
  balanced := nofun
  quoted := nofun

def levelArgument : Argument where
  ident := levelName.text
  value := some (Formatter.ascii ['2'])
  identifier := isIdentifier_levelName
  unbroken := by
    rintro v ⟨⟩
    decide
  balanced := by
    rintro v ⟨⟩
    decide
  quoted := by
    rintro v ⟨⟩ before after same
    have member : space ∈ Formatter.ascii ['2'] := by simp [same]
    exact absurd member (by decide)

def levelLine : CString := ⟨Formatter.ascii ['d','e','b','u','g',' ','l','e','v','e','l','=','2'],by decide,by decide⟩

theorem commandLine_contract_level : ∃ extractor reported, initializeFrom (some levelLine) = .ok (extractor,reported) ∧
    extractor.getValueUInt64 levelName.view = .ok (some 2) ∧ extractor.getValueBool debugName.view = .ok (some true) := by
  obtain ⟨_,found,_,extractor,reported,started,calls⟩ := commandLine_contract [debugArgument,levelArgument] (by simp)
    (by decide) levelLine (by decide)
  have level := (calls levelName isIdentifier_levelName).1
  have debug := (calls debugName isIdentifier_debugName).2.2.1
  rw [show lookup [debugArgument,levelArgument] levelName.text = _ from found levelArgument (by simp)] at level
  rw [show lookup [debugArgument,levelArgument] debugName.text = _ from found debugArgument (by simp)] at debug
  exact ⟨extractor,reported,started,level.trans (by decide),debug⟩

end BorealOS.Utility
