import Mathlib

/-! Several writers that put records into one output, piece by piece. A record is
issued, its pieces are written one after the other, and the last piece ends it. When a
record is only begun while no other one is open, the output is a sequence of whole
records with at most one that is not complete, in the order of each writer. -/
namespace Journal

variable {Writer Record Byte : Type}

/-- What each writer has still to write, the output, and the issued records. -/
structure State (Writer Record Byte : Type) where
  progress : Writer → Option (Record × List (List Byte))
  output : List Byte
  issued : List (Writer × Record)

variable (pieces : Record → List (List Byte))

def Open (state : State Writer Record Byte) (writer : Writer) : Prop :=
  ∃ record left, state.progress writer = some (record,left) ∧ left ≠ pieces record

/-- One step of the writers: a record is issued, or a piece is written, and the last one
ends the record. -/
inductive Step [DecidableEq Writer] (state next : State Writer Record Byte) : Prop
  | keep (progress : next.progress = state.progress) (output : next.output = state.output) (issued : next.issued = state.issued)
  | issue (writer : Writer) (record : Record) (idle : state.progress writer = none)
    (progress : next.progress = Function.update state.progress writer (some (record,pieces record)))
    (output : next.output = state.output) (issued : next.issued = state.issued ++ [(writer,record)])
  | write (writer : Writer) (record : Record) (piece : List Byte) (left : List (List Byte))
    (had : state.progress writer = some (record,piece::left)) (more : left ≠ [])
    (alone : piece :: left = pieces record → ∀ other, ¬ Open pieces state other)
    (progress : next.progress = Function.update state.progress writer (some (record,left)))
    (output : next.output = state.output ++ piece) (issued : next.issued = state.issued)
  | finish (writer : Writer) (record : Record) (piece : List Byte)
    (had : state.progress writer = some (record,[piece]))
    (alone : [piece] = pieces record → ∀ other, ¬ Open pieces state other)
    (progress : next.progress = Function.update state.progress writer none)
    (output : next.output = state.output ++ piece) (issued : next.issued = state.issued)

def ofWriter [DecidableEq Writer] (records : List (Writer × Record)) (writer : Writer) : List Record :=
  (records.filter (·.1 = writer)).map Prod.snd

def State.current (state : State Writer Record Byte) (writer : Writer) : Option Record :=
  (state.progress writer).map Prod.fst

section

variable [DecidableEq Writer]

theorem mem_ofWriter (records : List (Writer × Record)) (writer : Writer) (record : Record) :
    record ∈ ofWriter records writer ↔ (writer,record) ∈ records := by
  simp [ofWriter]

theorem ofWriter_append (records more : List (Writer × Record)) (writer : Writer) :
    ofWriter (records ++ more) writer = ofWriter records writer ++ ofWriter more writer := by
  simp [ofWriter]

theorem ofWriter_singleton (writer other : Writer) (record : Record) :
    ofWriter [(writer,record)] other = if writer = other then [record] else [] := by
  by_cases same : writer = other <;> simp [ofWriter,same]

end

/-- The output consists of the records and the fragment, and the fragment is what the
one writer of an open record has written of it. -/
structure Recorded [DecidableEq Writer] (state : State Writer Record Byte) (records : List (Writer × Record))
    (fragment : List Byte) : Prop where
  output : state.output = records.flatMap (fun entry => (pieces entry.2).flatten) ++ fragment
  single : ∀ writer other, Open pieces state writer → Open pieces state other → writer = other
  within : ∀ writer record left, state.progress writer = some (record,left) → left <:+ pieces record
  written : ∀ writer record left, state.progress writer = some (record,left) → left ≠ pieces record →
    (pieces record).flatten = fragment ++ left.flatten
  closed : (∀ writer, ¬ Open pieces state writer) → fragment = []
  order : ∀ writer, ofWriter state.issued writer = ofWriter records writer ++ (state.current writer).toList

namespace Recorded

variable {pieces} [DecidableEq Writer] {state : State Writer Record Byte} {records : List (Writer × Record)} {fragment : List Byte}

theorem initial (idle : ∀ writer, state.progress writer = none) (output : state.output = []) (issued : state.issued = []) :
    Recorded pieces state [] [] where
  output := output
  single writer other opened := by
    obtain ⟨record,left,busy,_⟩ := opened
    simp [idle] at busy
  within writer record left busy := by simp [idle] at busy
  written writer record left busy := by simp [idle] at busy
  closed _ := rfl
  order writer := by simp [issued,State.current,idle,ofWriter]

/-- The pieces that a writer has left, and the fragment if the record is open, make up
the record. -/
theorem rest (recorded : Recorded pieces state records fragment) {writer : Writer} {record : Record} {left : List (List Byte)}
    (busy : state.progress writer = some (record,left)) (alone : left = pieces record → ∀ other, ¬ Open pieces state other) :
    (pieces record).flatten = fragment ++ left.flatten := by
  by_cases whole : left = pieces record
  · rw [recorded.closed (alone whole),whole,List.nil_append]
  · exact recorded.written writer record left busy whole

theorem others_closed (recorded : Recorded pieces state records fragment) {writer other : Writer} {record : Record}
    {left : List (List Byte)} (busy : state.progress writer = some (record,left))
    (alone : left = pieces record → ∀ other, ¬ Open pieces state other) (opened : Open pieces state other) : other = writer := by
  by_cases whole : left = pieces record
  · exact absurd opened (alone whole other)
  · exact recorded.single other writer opened ⟨record,left,busy,whole⟩

variable {next : State Writer Record Byte} {writer : Writer} {record : Record} {piece : List Byte} {left : List (List Byte)}

theorem keep (recorded : Recorded pieces state records fragment) (progress : next.progress = state.progress)
    (output : next.output = state.output) (issued : next.issued = state.issued) : Recorded pieces next records fragment := by
  obtain ⟨_,_,_⟩ := next
  simp only at progress output issued
  rw [progress,output,issued]
  exact recorded

theorem issue (recorded : Recorded pieces state records fragment) (idle : state.progress writer = none)
    (progress : next.progress = Function.update state.progress writer (some (record,pieces record)))
    (output : next.output = state.output) (issued : next.issued = state.issued ++ [(writer,record)]) :
    Recorded pieces next records fragment := by
  have same : ∀ other first rest, next.progress other = some (first,rest) → rest ≠ pieces first →
      state.progress other = some (first,rest) := by
    intro other first rest busy opened
    rw [progress] at busy
    by_cases mine : other = writer
    · subst mine
      rw [Function.update_self,Option.some.injEq,Prod.mk.injEq] at busy
      exact absurd (busy.1 ▸ busy.2.symm) opened
    · rwa [Function.update_of_ne mine] at busy
  refine ⟨output.trans recorded.output,?_,?_,?_,?_,?_⟩
  · rintro first second ⟨one,rest,busy,opened⟩ ⟨two,other,also,likewise⟩
    exact recorded.single first second ⟨one,rest,same _ _ _ busy opened,opened⟩ ⟨two,other,same _ _ _ also likewise,likewise⟩
  · intro other first rest busy
    by_cases whole : rest = pieces first
    · rw [whole]
    · exact recorded.within other first rest (same _ _ _ busy whole)
  · intro other first rest busy opened
    exact recorded.written other first rest (same _ _ _ busy opened) opened
  · intro nobody
    apply recorded.closed
    rintro other ⟨first,rest,busy,opened⟩
    have apart : other ≠ writer := by
      intro mine
      simp [mine,idle] at busy
    apply nobody other
    refine ⟨first,rest,?_,opened⟩
    rwa [progress,Function.update_of_ne apart]
  · intro other
    rw [issued,ofWriter_append,ofWriter_singleton,recorded.order other,List.append_assoc,State.current,State.current,progress]
    by_cases mine : other = writer
    · subst mine
      simp [idle]
    · simp [mine,Ne.symm mine]

theorem write (recorded : Recorded pieces state records fragment) (had : state.progress writer = some (record,piece::left))
    (alone : piece :: left = pieces record → ∀ other, ¬ Open pieces state other)
    (progress : next.progress = Function.update state.progress writer (some (record,left)))
    (output : next.output = state.output ++ piece) (issued : next.issued = state.issued) :
    Recorded pieces next records (fragment ++ piece) := by
  have tail := recorded.within writer record _ had
  have shorter : left ≠ pieces record := by
    intro whole
    have long := tail.length_le
    rw [← whole,List.length_cons] at long
    omega
  have mine : ∀ other, Open pieces next other → other = writer := by
    rintro other ⟨first,rest,busy,opened⟩
    by_contra apart
    rw [progress,Function.update_of_ne apart] at busy
    exact apart (recorded.others_closed had alone ⟨first,rest,busy,opened⟩)
  have now : next.progress writer = some (record,left) := by rw [progress,Function.update_self]
  refine ⟨?_,?_,?_,?_,?_,?_⟩
  · rw [output,recorded.output,List.append_assoc]
  · intro first second opened also
    rw [mine first opened,mine second also]
  · intro other first rest busy
    by_cases same : other = writer
    · rw [same,now,Option.some.injEq,Prod.mk.injEq] at busy
      rw [← busy.1,← busy.2]
      exact (List.suffix_cons piece left).trans tail
    · rw [progress,Function.update_of_ne same] at busy
      exact recorded.within other first rest busy
  · intro other first rest busy opened
    rw [mine other ⟨first,rest,busy,opened⟩,now,Option.some.injEq,Prod.mk.injEq] at busy
    rw [← busy.1,← busy.2,recorded.rest had alone,List.flatten_cons,List.append_assoc]
  · intro nobody
    exact absurd ⟨record,left,now,shorter⟩ (nobody writer)
  · intro other
    rw [issued,recorded.order other,State.current,State.current,progress]
    by_cases same : other = writer
    · simp [same,had]
    · simp [same]

theorem finish (recorded : Recorded pieces state records fragment) (had : state.progress writer = some (record,[piece]))
    (alone : [piece] = pieces record → ∀ other, ¬ Open pieces state other)
    (progress : next.progress = Function.update state.progress writer none)
    (output : next.output = state.output ++ piece) (issued : next.issued = state.issued) :
    Recorded pieces next (records ++ [(writer,record)]) [] := by
  have whole : ∀ other first rest, next.progress other = some (first,rest) → rest = pieces first := by
    intro other first rest busy
    rw [progress] at busy
    have apart : other ≠ writer := by
      intro mine
      simp [mine] at busy
    rw [Function.update_of_ne apart] at busy
    by_contra opened
    exact apart (recorded.others_closed had alone ⟨first,rest,busy,opened⟩)
  refine ⟨?_,?_,?_,?_,fun _ => rfl,?_⟩
  · have complete := recorded.rest had alone
    rw [List.flatten_singleton] at complete
    rw [output,recorded.output,List.flatMap_append,List.flatMap_singleton,complete,List.append_nil,List.append_assoc]
  · rintro first second ⟨one,rest,busy,opened⟩ _
    exact absurd (whole first one rest busy) opened
  · intro other first rest busy
    rw [whole other first rest busy]
  · intro other first rest busy opened
    exact absurd (whole other first rest busy) opened
  · intro other
    rw [issued,ofWriter_append,ofWriter_singleton,recorded.order other,State.current,State.current,progress]
    by_cases same : other = writer
    · simp [same,had]
    · simp [same,Ne.symm same]

theorem step (recorded : Recorded pieces state records fragment) (step : Step pieces state next) :
    ∃ records fragment, Recorded pieces next records fragment := by
  cases step with
  | keep progress output issued => exact ⟨records,fragment,recorded.keep progress output issued⟩
  | issue writer record idle progress output issued => exact ⟨records,fragment,recorded.issue idle progress output issued⟩
  | write writer record piece left had more alone progress output issued =>
    exact ⟨records,fragment ++ piece,recorded.write had alone progress output issued⟩
  | finish writer record piece had alone progress output issued =>
    exact ⟨records ++ [(writer,record)],[],recorded.finish had alone progress output issued⟩

theorem fragment_begins (recorded : Recorded pieces state records fragment) :
    fragment = [] ∨ ∃ writer record, state.current writer = some record ∧ fragment <+: (pieces record).flatten := by
  by_cases nobody : ∀ writer, ¬ Open pieces state writer
  · exact Or.inl (recorded.closed nobody)
  · push Not at nobody
    obtain ⟨writer,record,left,busy,opened⟩ := nobody
    refine Or.inr ⟨writer,record,by simp [State.current,busy],?_⟩
    rw [recorded.written writer record left busy opened]
    exact List.prefix_append fragment _

end Recorded

end Journal
