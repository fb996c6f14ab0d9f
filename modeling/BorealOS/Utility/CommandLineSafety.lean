import BorealOS.Utility.CommandLine

/-! Which boot responses the command line code survives. Two kinds of slots are
empty: the first one of a line that starts with a space, and the last one of a
line that ends in a space outside of quotes, which is never written. A search
for `=` in an empty slot runs on through the memory behind it. -/
namespace BorealOS.Utility

open ByteObject StringView

namespace CommandLineExtractor

section Slots
variable {α : Type} {loop : List StringView → Except Fault α} {answer : StringView → Option α} {ending : α}
  (searching : Searching loop answer ending) {Matches : List UInt8 → Prop}
  (answers : ∀ view, answer view ≠ none ↔ Matches view.text) (line : CString)
include searching

private theorem loop_blank : loop [.blank] = .error .outOfBounds := by
  rw [searching.empty .blank [] rfl (by decide)]
  exact if_neg (by decide)

private theorem loop_first (rest : List StringView) : loop (viewOf line.view (some ⟨0,[]⟩) :: rest) =
    if equals ∈ line.text then loop rest else .error .outOfBounds := by
  have bytes : (viewOf line.view (some ⟨0,[]⟩)).data.bytes = line.text ++ [0] := rfl
  have bound := line.small
  have apart : equals ≠ 0 := by decide
  rw [searching.empty _ rest rfl (by rw [bytes,List.length_append,List.length_singleton]; omega),bytes]
  simp [apart]

include answers

private theorem loop_more {more : List Piece} (inText : ∀ piece ∈ more, piece.InText line.text)
    (nonempty : ∀ piece ∈ more, piece.text ≠ []) :
    (∃ result, loop (more.map (fun piece => viewOf line.view (some piece)) ++
        if EndsBlank line.text then [.blank] else []) = .ok result) ↔
      (EndsBlank line.text → ∃ piece ∈ more, Matches piece.text) := by
  have good : ∀ view ∈ more.map (fun piece => viewOf line.view (some piece)),
      view.Readable ∧ 0 < view.size ∧ view.size < 2^63 := by
    intro view member
    obtain ⟨piece,inside,rfl⟩ := List.mem_map.mp member
    obtain ⟨readable,_,small⟩ := viewOf_piece line (inText piece inside)
    exact ⟨readable,List.length_pos_iff.mpr (nonempty piece inside),small⟩
  have found : (more.map (fun piece => viewOf line.view (some piece))).findSome? answer ≠ none ↔
      ∃ piece ∈ more, Matches piece.text := by
    constructor
    · intro some
      by_contra unmatched
      apply some
      rw [List.findSome?_eq_none_iff]
      intro view member
      obtain ⟨piece,inside,rfl⟩ := List.mem_map.mp member
      by_contra answered
      refine unmatched ⟨piece,inside,?_⟩
      rw [← (viewOf_piece line (inText piece inside)).2.1]
      exact (answers _).mp answered
    · rintro ⟨piece,inside,matched⟩ none
      rw [List.findSome?_eq_none_iff] at none
      refine (answers (viewOf line.view (some piece))).mpr ?_ (none _ (List.mem_map.mpr ⟨piece,inside,rfl⟩))
      rw [(viewOf_piece line (inText piece inside)).2.1]
      exact matched
  rw [searching.run _ _ good,← found]
  cases first : (more.map (fun piece => viewOf line.view (some piece))).findSome? answer with
  | some result => simp
  | none =>
    by_cases trailing : EndsBlank line.text
    · simp [trailing,loop_blank searching]
    · simp [trailing,searching.done]

/-- A loop over the slots of a line returns exactly if no search for `=` starts in an
empty slot, or finds a `=` behind it. -/
theorem loop_slots (nothing : ¬ Matches []) : (∃ result, loop (slotsOf line) = .ok result) ↔
    line.text ≠ [] ∧ (line.text.head? = some space → equals ∈ line.text) ∧
      (EndsBlank line.text → ∃ argument ∈ argumentsOf line.text, Matches argument) := by
  by_cases nonempty : line.text = []
  · have slots : slotsOf line = [viewOf line.view (some ⟨0,[]⟩)] := by
      rw [slotsOf,nonempty]
      rfl
    rw [slots,loop_first searching]
    simp [nonempty]
  · obtain ⟨more,texts,shape⟩ := piecesOf_slots nonempty
    have inText : ∀ piece ∈ more, piece.InText line.text := by
      intro piece member
      exact piecesOf_inText (by simp [shape,member])
    have arguments : (∃ argument ∈ argumentsOf line.text, Matches argument) ↔ ∃ piece ∈ more, Matches piece.text := by
      constructor
      · rintro ⟨argument,member,matched⟩
        obtain ⟨slot,inside,same⟩ := List.mem_filterMap.mp member
        obtain ⟨piece,rfl,rfl⟩ := Option.map_eq_some_iff.mp same
        rw [shape,List.mem_append,List.mem_append] at inside
        rcases inside with first | later | last
        · split at first
          · rw [Option.some.inj (List.mem_singleton.mp first)] at matched
            exact absurd matched nothing
          · cases first
        · exact ⟨piece,by simpa using later,matched⟩
        · split at last <;> simp at last
      · rintro ⟨piece,member,matched⟩
        exact ⟨piece.text,List.mem_filterMap.mpr ⟨some piece,by simp [shape,member],rfl⟩,matched⟩
    have views : (more.map some ++ if EndsBlank line.text then [none] else []).map (viewOf line.view) =
        more.map (fun piece => viewOf line.view (some piece)) ++ if EndsBlank line.text then [.blank] else [] := by
      rw [List.map_append,List.map_map]
      split <;> rfl
    have rest := loop_more searching answers line inText texts
    rw [arguments,← rest,slotsOf,shape,List.map_append,views]
    by_cases leading : line.text.head? = some space
    · rw [if_pos leading,List.map_singleton,List.singleton_append,loop_first searching]
      by_cases inside : equals ∈ line.text
      · simp [nonempty,inside]
      · simp [nonempty,inside,leading]
    · simp [nonempty,leading]

end Slots

inductive Instance where
  | bool
  | uint64
  | int64
  | stringView
deriving DecidableEq, Repr

def Instance.call (extractor : CommandLineExtractor) (identifier : StringView) : Instance → Except Fault Unit
  | .bool => do let _ ← extractor.getValueBool identifier
  | .uint64 => do let _ ← extractor.getValueUInt64 identifier
  | .int64 => do let _ ← extractor.getValueInt64 identifier
  | .stringView => do let _ ← extractor.getValueStringView identifier

def Instance.Matches (identifier argument : List UInt8) : Instance → Prop
  | .bool => argument = identifier ∨ Named identifier argument
  | _ => Named identifier argument

/-- `Initialize` and then the instance return: they end, and every read is a read of the
line up to its terminator, of the identifier or of a literal. -/
def Safe (response : Option CString) (identifier : CString) (getValue : Instance) : Prop :=
  ∃ extractor reported, initializeFrom response = .ok (extractor,reported) ∧
    getValue.call extractor identifier.view = .ok ()

private theorem call_ok {α : Type} (call : Except Fault α) :
    (do let _ ← call : Except Fault Unit) = .ok () ↔ ∃ result, call = .ok result := by
  cases call <;> simp

section Matches
variable {identifier : CString} (view : StringView)

theorem boolAnswer_matches : boolAnswer identifier view ≠ none ↔ Instance.bool.Matches identifier.text view.text := by
  unfold boolAnswer Instance.Matches
  split
  · simp [*]
  · split <;> simp [*]

theorem integerAnswer_matches {α : Type} (parsed : List UInt8 → Option α) :
    integerAnswer identifier parsed view ≠ none ↔ Named identifier.text view.text := by
  unfold integerAnswer
  split <;> simp [*]

theorem stringAnswer_matches : stringAnswer identifier view ≠ none ↔ Named identifier.text view.text := by
  unfold stringAnswer
  split <;> simp [*]

end Matches

/-- The calls return exactly if there is a response with a line that is not empty, a
line that starts with a space has a `=`, and a line that ends in a space outside
of quotes has an argument at which the instance returns before it comes to the
slot behind that space. -/
theorem commandLine_safe_iff (response : Option CString) (identifier : CString) (nonempty : identifier.text ≠ [])
    (getValue : Instance) : Safe response identifier getValue ↔ ∃ line, response = some line ∧ line.text ≠ [] ∧
      (line.text.head? = some space → equals ∈ line.text) ∧
      (EndsBlank line.text → ∃ argument ∈ argumentsOf line.text, getValue.Matches identifier.text argument) := by
  cases response with
  | none =>
    have fault : initializeFrom none = .error .nullDereference := rfl
    simp [Safe,fault]
  | some line =>
    obtain ⟨reported,started⟩ := initializeFrom_some line
    have unnamed : ¬ Named identifier.text [] := by simp [Named]
    have called : Safe (some line) identifier getValue ↔ getValue.call ⟨some line,true⟩ identifier.view = .ok () := by
      simp [Safe,started]
    simp only [called,Option.some.injEq,exists_eq_left']
    cases getValue with
    | bool =>
      rw [Instance.call,call_ok,getValueBool,search_some]
      exact loop_slots (boolLoop_searching identifier nonempty) (fun view => boolAnswer_matches view) line
        (by simp [Instance.Matches,unnamed,Ne.symm nonempty])
    | uint64 =>
      rw [Instance.call,call_ok,getValueUInt64,search_some]
      exact loop_slots (integerLoop_searching identifier _ _ (fun _ value readable => Formatter.parseUInt64_text readable value)
        nonempty) (fun view => integerAnswer_matches view _) line unnamed
    | int64 =>
      rw [Instance.call,call_ok,getValueInt64,search_some]
      exact loop_slots (integerLoop_searching identifier _ _ (fun _ value readable => Formatter.parseInt64_text readable value)
        nonempty) (fun view => integerAnswer_matches view _) line unnamed
    | stringView =>
      rw [Instance.call,call_ok,getValueStringView,search_some]
      exact loop_slots (stringLoop_searching identifier nonempty) (fun view => stringAnswer_matches view) line unnamed

/-! The kernel asks for its log level. -/

def logLevel : CString := ⟨Formatter.ascii ['L','O','G','_','L','E','V','E','L'],by decide,by decide⟩

def quietLine : CString := ⟨Formatter.ascii ['q','u','i','e','t',' '],by decide,by decide⟩

def logLine : CString := ⟨Formatter.ascii ['L','O','G','_','L','E','V','E','L','=','2',' '],by decide,by decide⟩

/-- Without a response `Initialize` reads through a null pointer, and a space at the end
of the line makes the call read behind an empty literal. -/
theorem commandLine_quiet : ¬ Safe none logLevel .uint64 ∧ ¬ Safe (some quietLine) logLevel .uint64 ∧
    initializeFrom none = .error .nullDereference ∧
    Instance.uint64.call ⟨some quietLine,true⟩ logLevel.view = .error .outOfBounds := by
  have absent : initializeFrom none = .error .nullDereference := rfl
  have behind : Instance.uint64.call ⟨some quietLine,true⟩ logLevel.view = .error .outOfBounds := by decide
  obtain ⟨reported,started⟩ := initializeFrom_some quietLine
  exact ⟨by simp [Safe,absent],by simp [Safe,started,behind],absent,behind⟩

/-- The same line with the log level in front of the space. -/
theorem commandLine_safe_logLevel : Safe (some logLine) logLevel .uint64 := by
  apply (commandLine_safe_iff (some logLine) logLevel (by decide) .uint64).mpr
  refine ⟨logLine,rfl,by decide,by decide,fun _ => ⟨Formatter.ascii ['L','O','G','_','L','E','V','E','L','=','2'],?_,?_⟩⟩
  · decide
  · change Named logLevel.text _
    decide

end CommandLineExtractor

end BorealOS.Utility
