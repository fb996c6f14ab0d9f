import BorealOS.Utility.CommandLineSafety
import BorealOS.Utility.CommandLineContract

/-! Extra spaces on the command line. `SplitArguments` passes the spaces behind a
separating one, but it has set `previouspos` before it does, so they become the
front of the next argument. Behind the last argument they make a slot that is
never written. -/
namespace BorealOS.Utility

open ByteObject StringView

/-- The texts of the slots, where an unwritten slot has none. -/
def slotTexts (slots : List (Option Piece)) : List (Option (List UInt8)) := slots.map (Option.map Piece.text)

theorem slotTexts_start (skipping quotes : Bool) (start start' : Nat) (current rest : List UInt8) :
    slotTexts (pieces skipping quotes start current rest) = slotTexts (pieces skipping quotes start' current rest) := by
  induction rest generalizing skipping quotes start start' current with
  | nil => cases skipping <;> rfl
  | cons c rest ih =>
    unfold pieces
    split
    · exact ih _ _ _ _ _
    · split
      · exact congrArg (some current :: ·) (ih _ _ _ _ _)
      · exact ih _ _ _ _ _

/-- What has been read of an argument comes first in its text. Only where nothing but
skipped spaces follow there is no argument. -/
theorem slotTexts_current (skipping quotes : Bool) {rest : List UInt8}
    (more : skipping = false ∨ ∃ c ∈ rest, c ≠ space) : ∃ text later, ∀ start current,
      slotTexts (pieces skipping quotes start current rest) = some (current ++ text) :: later := by
  induction rest generalizing skipping quotes with
  | nil =>
    have unset : skipping = false := by simpa using more
    exact ⟨[],[],fun start current => by simp [pieces,slotTexts,unset]⟩
  | cons c rest ih =>
    by_cases skips : skipping = true ∧ c = space
    · have follows : ∃ c ∈ rest, c ≠ space := by simpa [skips.1,skips.2] using more
      obtain ⟨text,later,run⟩ := ih true quotes (Or.inr follows)
      refine ⟨c::text,later,fun start current => ?_⟩
      rw [pieces,if_pos skips,run]
      simp
    · by_cases ends : c = space ∧ quotes = false
      · refine ⟨[],slotTexts (pieces true quotes 0 [] rest),fun start current => ?_⟩
        rw [pieces,if_neg skips,if_pos ends,List.append_nil]
        exact congrArg (some current :: ·) (slotTexts_start true quotes _ 0 [] rest)
      · obtain ⟨text,later,run⟩ := ih false (quotes != (c == quotation)) (Or.inl rfl)
        refine ⟨c::text,later,fun start current => ?_⟩
        rw [pieces,if_neg skips,if_neg ends,run]
        simp

theorem pieces_spaces (start count : Nat) (current rest : List UInt8) :
    pieces true false start current (List.replicate count space ++ rest) =
      pieces true false start (current ++ List.replicate count space) rest := by
  induction count generalizing current with
  | zero => simp
  | succ count ih =>
    rw [List.replicate_succ,List.cons_append,pieces,if_pos ⟨rfl,rfl⟩,ih]
    simp

/-- Spaces at the end of a text add an unwritten slot, or nothing where the text ends among
skipped spaces itself. -/
theorem slotTexts_trailing {text : List UInt8} (even : text.count quotation % 2 = 0) {count : Nat} (some : 0 < count) :
    slotTexts (piecesOf (text ++ List.replicate count space)) =
      slotTexts (piecesOf text) ++ if EndsBlank text then [] else [none] := by
  obtain ⟨args,start,current,run⟩ := pieces_append false false 0 [] text nofun
  rw [scan_flags] at run
  have closed : decide (text.count quotation % 2 = 1) = false := by simp [even]
  have whole := run []
  rw [List.append_nil] at whole
  rw [piecesOf,piecesOf,run,whole,closed]
  obtain ⟨count,rfl⟩ : ∃ n, count = n + 1 := ⟨count - 1,by omega⟩
  by_cases blank : EndsBlank text
  · have spaces := pieces_spaces start (count + 1) current []
    rw [List.append_nil] at spaces
    simp only [blank,decide_true,if_true,spaces,List.append_nil]
    rfl
  · have spaces := pieces_spaces (start + current.length + 1) count [] []
    rw [List.append_nil] at spaces
    simp only [blank,decide_false,List.replicate_succ,pieces,Bool.false_eq_true,false_and,if_false,and_self,if_true,spaces]
    simp [slotTexts]

theorem endsBlank_spaces {text : List UInt8} (even : text.count quotation % 2 = 0) {count : Nat} (some : 0 < count) :
    EndsBlank (text ++ List.replicate count space) := by
  refine ⟨?_,?_⟩
  · rw [List.getLast?_append,List.getLast?_replicate,if_neg (by omega)]
    rfl
  · rw [List.count_append,List.count_replicate,if_neg (by decide)]
    exact even

theorem slotTexts_silent {text : List UInt8} (silent : text = [] ∨ (text.head? = some space ∧ equals ∉ text)) :
    equals ∉ text ∧ ∃ rest, slotTexts (piecesOf text) = some [] :: rest := by
  rcases silent with rfl | ⟨leading,unnamed⟩
  · exact ⟨by simp,[],rfl⟩
  · have nonempty : text ≠ [] := by
      rintro rfl
      cases leading
    obtain ⟨more,_,shape⟩ := piecesOf_slots nonempty
    rw [shape,if_pos leading]
    exact ⟨unnamed,_,rfl⟩

theorem slotTexts_leading {before after : List UInt8} (blank : EndsBlank before) (follows : ∃ c ∈ after, c ≠ space) (count : Nat) :
    ∃ front text later, slotTexts (piecesOf (before ++ after)) = front ++ some text :: later ∧
      ∃ longer, slotTexts (piecesOf (before ++ List.replicate count space ++ after)) = front ++ some longer :: later ∧
        longer.length = count + text.length := by
  obtain ⟨args,start,current,run⟩ := pieces_append false false 0 [] before nofun
  have closed : decide (before.count quotation % 2 = 1) = false := by simp [blank.2]
  rw [scan_flags,closed,decide_eq_true blank] at run
  obtain ⟨text,later,shape⟩ := slotTexts_current true false (Or.inr follows)
  refine ⟨slotTexts (args.map some),current ++ text,later,?_,current ++ List.replicate count space ++ text,?_,?_⟩
  · rw [piecesOf,run,slotTexts,List.map_append]
    exact congrArg (_ ++ ·) (shape start current)
  · rw [List.append_assoc,piecesOf,run,pieces_spaces,slotTexts,List.map_append]
    exact congrArg (_ ++ ·) (shape start (current ++ List.replicate count space))
  · simp only [List.length_append,List.length_replicate]
    omega

namespace CommandLineExtractor

/-- A loop of `GetValue` on the texts of the slots. The slot at the start of a line is the
only empty one that is written, and the search for `=` in it passes the whole line. -/
def lookupTexts {β : Type} (answer : List UInt8 → Option β) (ending : β) (named : Bool) :
    List (Option (List UInt8)) → Except Fault β
  | [] => .ok ending
  | none :: _ => .error .outOfBounds
  | some text :: rest =>
    if text = [] then if named then lookupTexts answer ending named rest else .error .outOfBounds
    else match answer text with
      | some result => .ok result
      | none => lookupTexts answer ending named rest

section Slots
variable {α β : Type} {loop : List StringView → Except Fault α} {answer : StringView → Option α} {ending : α}
  (searching : Searching loop answer ending) (seen : α → β) {answerText : List UInt8 → Option β}
  (reads : ∀ view : StringView, view.Readable → view.size < 2^63 → (answer view).map seen = answerText view.text) (line : CString)
include searching reads

private theorem loop_texts (slots : List (Option Piece))
    (inText : ∀ piece, some piece ∈ slots → piece.InText line.text ∧ (piece.text = [] → piece.start = 0)) :
    (loop (slots.map (viewOf line.view))).map seen =
      lookupTexts answerText (seen ending) (decide (equals ∈ line.text)) (slotTexts slots) := by
  induction slots with
  | nil => rw [List.map_nil,searching.done]; rfl
  | cons slot slots ih =>
    have rest := ih fun piece member => inText piece (List.mem_cons_of_mem _ member)
    cases slot with
    | none =>
      have blank : loop (.blank :: slots.map (viewOf line.view)) = .error .outOfBounds := by
        rw [searching.empty .blank _ rfl (by decide)]
        exact if_neg (by decide)
      exact congrArg (Except.map seen) blank
    | some piece =>
      obtain ⟨inside,first⟩ := inText piece List.mem_cons_self
      obtain ⟨readable,text,small⟩ := viewOf_piece line inside
      change _ = lookupTexts _ _ _ (some piece.text :: slotTexts slots)
      rw [lookupTexts,List.map_cons]
      by_cases empty : piece.text = []
      · have bytes : (viewOf line.view (some piece)).data.bytes = line.text ++ [0] := by
          rw [viewOf,Pointer.bytes_advance,first empty,List.drop_zero,CString.bytes_view]
        have bound := line.small
        have apart : equals ≠ 0 := by decide
        rw [if_pos empty,searching.empty _ _ (by simp [viewOf,empty])
          (by rw [bytes,List.length_append,List.length_singleton]; omega),bytes]
        by_cases later : equals ∈ line.text
        · simp [later,rest]
        · simp [later,apart,Except.map]
      · have positive : 0 < (viewOf line.view (some piece)).size := List.length_pos_iff.mpr empty
        have answered := reads _ readable small
        rw [text] at answered
        rw [if_neg empty,searching.step _ _ readable positive small,← answered]
        cases answer (viewOf line.view (some piece)) with
        | some result => rfl
        | none => exact rest

theorem loop_slotTexts : (loop (slotsOf line)).map seen =
    lookupTexts answerText (seen ending) (decide (equals ∈ line.text)) (slotTexts (piecesOf line.text)) := by
  apply loop_texts searching seen reads
  intro piece member
  refine ⟨piecesOf_inText member,fun empty => ?_⟩
  by_cases nonempty : line.text = []
  · rw [nonempty] at member
    have only : piece = ⟨0,[]⟩ := by simpa [piecesOf,pieces] using member
    rw [only]
  · obtain ⟨more,texts,shape⟩ := piecesOf_slots nonempty
    rw [shape,List.mem_append,List.mem_append] at member
    rcases member with first | later | last
    · split at first
      · rw [Option.some.inj (List.mem_singleton.mp first)]
      · cases first
    · exact absurd empty (texts piece (by simpa using later))
    · split at last <;> simp at last

end Slots

/-- What an instance answers. A view is looked at by its text. -/
inductive Answer where
  | bool (value : Option Bool)
  | uint64 (value : Option Word)
  | int64 (value : Option Int)
  | text (value : Option (List UInt8))
deriving DecidableEq, Repr

def Instance.value (extractor : CommandLineExtractor) (identifier : StringView) : Instance → Except Fault Answer
  | .bool => (extractor.getValueBool identifier).map .bool
  | .uint64 => (extractor.getValueUInt64 identifier).map .uint64
  | .int64 => (extractor.getValueInt64 identifier).map .int64
  | .stringView => (extractor.getValueStringView identifier).map fun value => .text (value.map StringView.text)

def valueFor (line identifier : CString) (getValue : Instance) : Except Fault Answer := do
  let (extractor,_) ← initializeFrom (some line)
  getValue.value extractor identifier.view

def argumentTexts (line : CString) : Except Fault (List (List UInt8)) := do
  return ((← arguments line.view).map StringView.text).filter (· ≠ [])

/-- Two lines are the same to the kernel: in their arguments and for every call. -/
def SameToKernel (line other : CString) : Prop :=
  argumentTexts other = argumentTexts line ∧
    ∀ identifier : CString, identifier.text ≠ [] → space ∉ identifier.text →
      ∀ getValue, valueFor other identifier getValue = valueFor line identifier getValue

theorem valueFor_eq (line identifier : CString) (getValue : Instance) :
    valueFor line identifier getValue = getValue.value ⟨some line,true⟩ identifier.view := by
  obtain ⟨reported,started⟩ := initializeFrom_some line
  rw [valueFor,started]
  rfl

theorem valueFor_slotTexts (identifier : CString) (nonempty : identifier.text ≠ []) (getValue : Instance) :
    ∃ (answer : List UInt8 → Option Answer) (ending : Answer), ∀ line : CString, valueFor line identifier getValue =
      lookupTexts answer ending (decide (equals ∈ line.text)) (slotTexts (piecesOf line.text)) := by
  simp only [valueFor_eq]
  cases getValue with
  | bool =>
    refine ⟨fun text => (if text = identifier.text then some (some true)
      else if Named identifier.text text then some (Formatter.boolOf (valueText text)) else none).map .bool,.bool (some false),fun line => ?_⟩
    rw [Instance.value,getValueBool,search_some]
    exact loop_slotTexts (boolLoop_searching identifier nonempty) Answer.bool (fun _ _ _ => rfl) line
  | uint64 =>
    refine ⟨fun text => (if Named identifier.text text then some (Formatter.uint64Of (valueText text)) else none).map .uint64,
      .uint64 none,fun line => ?_⟩
    rw [Instance.value,getValueUInt64,search_some]
    exact loop_slotTexts (integerLoop_searching identifier _ _
      (fun _ value readable => Formatter.parseUInt64_text readable value) nonempty) Answer.uint64 (fun _ _ _ => rfl) line
  | int64 =>
    refine ⟨fun text => (if Named identifier.text text then some (Formatter.int64Of (valueText text)) else none).map .int64,
      .int64 none,fun line => ?_⟩
    rw [Instance.value,getValueInt64,search_some]
    exact loop_slotTexts (integerLoop_searching identifier _ _
      (fun _ value readable => Formatter.parseInt64_text readable value) nonempty) Answer.int64 (fun _ _ _ => rfl) line
  | stringView =>
    refine ⟨fun text => (if Named identifier.text text then
      some ((some (unquoted (valueText text))).filter fun text => 0 < text.length) else none).map .text,.text none,fun line => ?_⟩
    rw [Instance.value,getValueStringView,search_some]
    refine loop_slotTexts (stringLoop_searching identifier nonempty) (fun value => Answer.text (value.map StringView.text)) ?_ line
    intro view readable small
    rw [← stringAnswer_text identifier readable small,Option.map_map]
    rfl

theorem argumentTexts_eq (line : CString) :
    argumentTexts line = .ok (((slotTexts (piecesOf line.text)).map fun slot => slot.getD []).filter (· ≠ [])) := by
  have texts : (slotsOf line).map StringView.text = (slotTexts (piecesOf line.text)).map fun slot => slot.getD [] := by
    rw [slotsOf,slotTexts,List.map_map,List.map_map]
    apply List.map_congr_left
    intro slot member
    cases slot with
    | none => rfl
    | some piece => exact (viewOf_piece line (piecesOf_inText member)).2.1
  rw [argumentTexts,arguments_view,ok_bind,texts]
  rfl

/-! An identifier that is itself a `=` answers no argument, so a call with it comes to every
slot. -/

def equalsName : CString := ⟨[equals],by decide,by decide⟩

theorem not_named_equals (text : List UInt8) : ¬ Named equalsName.text text := by
  rintro ⟨inside,front⟩
  cases text with
  | nil => cases inside
  | cons c text =>
    by_cases same : c = equals
    · subst same
      simp [equalsName] at front
    · have later : (c::text).idxOf equals = text.idxOf equals + 1 := by
        rw [List.idxOf_cons,show (c == equals) = false by simpa using same]
        rfl
      rw [later,List.take_succ_cons] at front
      exact same (List.cons.inj front).1

theorem valueFor_equalsName (line : CString) : (∃ result, valueFor line equalsName .uint64 = .ok result) ↔
    line.text ≠ [] ∧ (line.text.head? = some space → equals ∈ line.text) ∧ ¬ EndsBlank line.text := by
  have searching := integerLoop_searching equalsName _ _ (fun _ value readable => Formatter.parseUInt64_text readable value)
    (by decide)
  have returns := loop_slots searching (fun view => integerAnswer_matches view _) line (not_named_equals [])
  have mapped : (∃ result, valueFor line equalsName .uint64 = .ok result) ↔
      ∃ result, integerLoop Formatter.parseUInt64 equalsName.view (slotsOf line) = .ok result := by
    rw [valueFor_eq,Instance.value,getValueUInt64,search_some]
    cases integerLoop Formatter.parseUInt64 equalsName.view (slotsOf line) <;> simp [Except.map]
  rw [mapped,returns]
  simp only [not_named_equals,and_false,exists_false,imp_false]

/-- The second line has more spaces than the first one: in the place of one space outside of
quotes, or at the end where no quotes are open. The last text is what stands behind. -/
inductive MoreSpaces : (line spaced after : List UInt8) → Prop
  | between {before after : List UInt8} (count : Nat) : before.count quotation % 2 = 0 → 1 < count →
    MoreSpaces (before ++ [space] ++ after) (before ++ List.replicate count space ++ after) after
  | behind {line : List UInt8} (count : Nat) : line.count quotation % 2 = 0 → 0 < count →
    MoreSpaces line (line ++ List.replicate count space) []

theorem MoreSpaces.split {line spaced after : List UInt8} (more : MoreSpaces line spaced after) :
    ∃ before count, 0 < count ∧ before.count quotation % 2 = 0 ∧ line = before ++ after ∧
      spaced = before ++ List.replicate count space ++ after ∧ (EndsBlank before ∨ after = []) := by
  cases more with
  | @between before after count even longer =>
    have still : (before ++ [space]).count quotation % 2 = 0 := by
      rw [List.count_append,show [space].count quotation = 0 by decide]
      exact even
    obtain ⟨count,rfl⟩ : ∃ n, count = 1 + n := ⟨count - 1,by omega⟩
    refine ⟨before ++ [space],count,by omega,still,rfl,?_,Or.inl ⟨by simp,still⟩⟩
    rw [List.replicate_add]
    simp
  | behind count even some => exact ⟨line,count,some,even,by simp,by simp,Or.inr rfl⟩

section Lines
variable {line spaced : CString} {after : List UInt8} (more : MoreSpaces line.text spaced.text after)
include more

theorem spaces_of_same_arguments (same : argumentTexts spaced = argumentTexts line) : ∀ c ∈ after, c = space := by
  obtain ⟨before,count,some,even,old,new,place⟩ := more.split
  by_contra differs
  have follows : ∃ c ∈ after, c ≠ space := by simpa using differs
  have blank : EndsBlank before := by
    rcases place with blank | rfl
    · exact blank
    · simp at follows
  obtain ⟨front,text,later,short,longer,long,length⟩ := slotTexts_leading blank follows count
  rw [argumentTexts_eq,argumentTexts_eq,old,new,short,long] at same
  have total := congrArg (fun texts => texts.flatten.length) (Except.ok.inj same)
  simp only [List.flatten_filter_ne_nil,List.map_append,List.map_cons,List.flatten_append,List.flatten_cons,List.length_append,
    Option.getD_some] at total
  omega

theorem MoreSpaces.trailing (spaces : ∀ c ∈ after, c = space) :
    ∃ count, 0 < count ∧ line.text.count quotation % 2 = 0 ∧ spaced.text = line.text ++ List.replicate count space := by
  obtain ⟨before,count,some,even,old,new,_⟩ := more.split
  have only : after = List.replicate after.length space := List.eq_replicate_iff.mpr ⟨rfl,spaces⟩
  refine ⟨count,some,?_,?_⟩
  · rw [old,List.count_append,only,List.count_replicate,if_neg (by decide)]
    exact even
  · rw [new,old,only,List.append_assoc,List.append_assoc,← List.replicate_add,← List.replicate_add,Nat.add_comm]

end Lines

/-- More spaces change nothing exactly if no argument follows them and either the line ends
in a space outside of quotes already, or no call on it returns. -/
theorem extraSpaces_same_iff (line spaced : CString) (after : List UInt8) (more : MoreSpaces line.text spaced.text after) :
    SameToKernel line spaced ↔ (∀ c ∈ after, c = space) ∧
      (EndsBlank line.text ∨ line.text = [] ∨ (line.text.head? = some space ∧ equals ∉ line.text)) := by
  constructor
  · rintro ⟨arguments,values⟩
    have spaces := spaces_of_same_arguments more arguments
    refine ⟨spaces,?_⟩
    by_contra returns
    rw [not_or,not_or,not_and,not_not] at returns
    obtain ⟨count,some,even,new⟩ := more.trailing spaces
    have ends : EndsBlank spaced.text := by
      rw [new]
      exact endsBlank_spaces even some
    have short := (valueFor_equalsName line).mpr ⟨returns.2.1,returns.2.2,returns.1⟩
    rw [← values equalsName (by decide) (by decide)] at short
    exact ((valueFor_equalsName spaced).mp short).2.2 ends
  · rintro ⟨spaces,silent⟩
    obtain ⟨count,some,even,new⟩ := more.trailing spaces
    have slots := slotTexts_trailing even some
    have named : (equals ∈ spaced.text) = (equals ∈ line.text) := by
      have apart : equals ≠ space := by decide
      simp [new,List.mem_replicate,apart]
    rw [← new] at slots
    refine ⟨?_,?_⟩
    · rw [argumentTexts_eq,argumentTexts_eq,slots]
      split <;> simp
    · intro identifier nonempty _ getValue
      obtain ⟨answer,ending,reads⟩ := valueFor_slotTexts identifier nonempty getValue
      rw [reads,reads,slots]
      simp only [named]
      by_cases blank : EndsBlank line.text
      · rw [if_pos blank,List.append_nil]
      · -- the first slot is empty, and the search in it fails on both lines
        obtain ⟨unnamed,rest,first⟩ := slotTexts_silent (silent.resolve_left blank)
        simp [first,unnamed,lookupTexts]

def quietTwice : CString := ⟨Formatter.ascii ['q','u','i','e','t',' ',' '],by decide,by decide⟩

/-- One more space behind the line `quiet ` changes nothing: the calls fail on both. -/
theorem extraSpaces_same_quiet : MoreSpaces quietLine.text quietTwice.text [] ∧ SameToKernel quietLine quietTwice := by
  have more : MoreSpaces quietLine.text quietTwice.text [] :=
    .behind 1 (by decide) (by decide)
  exact ⟨more,(extraSpaces_same_iff quietLine quietTwice [] more).mpr ⟨by simp,Or.inl (by decide)⟩⟩

def quietLog : CString :=
  ⟨Formatter.ascii ['q','u','i','e','t',' ','L','O','G','_','L','E','V','E','L','=','2'],by decide,by decide⟩

def spacedLog : CString :=
  ⟨Formatter.ascii ['q','u','i','e','t',' ',' ','L','O','G','_','L','E','V','E','L','=','2'],by decide,by decide⟩

/-- With two spaces in front of it the log level is not found. -/
theorem extraSpaces_hide_logLevel :
    MoreSpaces quietLog.text spacedLog.text (Formatter.ascii ['L','O','G','_','L','E','V','E','L','=','2']) ∧
    ¬ SameToKernel quietLog spacedLog ∧ valueFor quietLog logLevel .uint64 = .ok (.uint64 (some 2)) ∧
    valueFor spacedLog logLevel .uint64 = .ok (.uint64 none) := by
  have found : valueFor quietLog logLevel .uint64 = .ok (.uint64 (some 2)) := by decide +kernel
  have hidden : valueFor spacedLog logLevel .uint64 = .ok (.uint64 none) := by decide +kernel
  refine ⟨?_,?_,found,hidden⟩
  · exact @MoreSpaces.between (Formatter.ascii ['q','u','i','e','t']) _ 2 (by decide) (by decide)
  · rintro ⟨_,values⟩
    have same := values logLevel (by decide) (by decide) .uint64
    rw [found,hidden] at same
    cases same

end CommandLineExtractor

end BorealOS.Utility
