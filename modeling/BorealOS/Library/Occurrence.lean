import Mathlib

/-! Occurrences of a list in another one, and the scan from left to right that takes the
first occurrence and goes on behind it. -/
namespace Occurrence

variable {α : Type} {needle text : List α}

def Occurs (needle text : List α) (i : Nat) : Prop := ∃ before after, text = before ++ needle ++ after ∧ before.length = i

theorem occurs_iff {i : Nat} : Occurs needle text i ↔ i ≤ text.length ∧ needle <+: text.drop i := by
  constructor
  · rintro ⟨before,after,rfl,rfl⟩
    refine ⟨by simp,after,?_⟩
    rw [List.append_assoc,List.drop_left]
  · rintro ⟨inside,after,rest⟩
    refine ⟨text.take i,after,?_,List.length_take_of_le inside⟩
    rw [List.append_assoc,rest,List.take_append_drop]

theorem Occurs.bound {i : Nat} (occurs : Occurs needle text i) : i + needle.length ≤ text.length := by
  obtain ⟨before,after,rfl,rfl⟩ := occurs
  simp

theorem occurs_zero : Occurs needle text 0 ↔ needle <+: text := by
  simp [occurs_iff]

theorem occurs_cons {c : α} {i : Nat} : Occurs needle (c::text) (i + 1) ↔ Occurs needle text i := by
  simp [occurs_iff]

/-- The leftmost occurrence. -/
def IsFirst (needle text : List α) (i : Nat) : Prop := IsLeast {i | Occurs needle text i} i

theorem isFirst_zero (here : needle <+: text) : IsFirst needle text 0 :=
  ⟨occurs_zero.mpr here,fun _ _ => Nat.zero_le _⟩

theorem isFirst_cons {c : α} (other : ¬ needle <+: c::text) {i : Nat} :
    IsFirst needle (c::text) (i + 1) ↔ IsFirst needle text i := by
  constructor
  · rintro ⟨occurs,least⟩
    refine ⟨occurs_cons.mp occurs,fun j earlier => ?_⟩
    exact Nat.le_of_succ_le_succ (least (occurs_cons.mpr earlier))
  · rintro ⟨occurs,least⟩
    refine ⟨occurs_cons.mpr occurs,fun j earlier => ?_⟩
    cases j with
    | zero => exact absurd (occurs_zero.mp earlier) other
    | succ j => exact Nat.succ_le_succ (least (occurs_cons.mp earlier))

theorem never_cons {c : α} (other : ¬ needle <+: c::text) (never : ∀ i, ¬ Occurs needle text i) (i : Nat) :
    ¬ Occurs needle (c::text) i := by
  cases i with
  | zero => exact fun occurs => other (occurs_zero.mp occurs)
  | succ i => exact fun occurs => never i (occurs_cons.mp occurs)

theorem never_short (short : text.length < needle.length) (i : Nat) : ¬ Occurs needle text i := by
  intro occurs
  have bound := occurs.bound
  omega

/-- The scan counts the occurrences that it takes, and leaves the text behind the last one. -/
inductive Scan (needle : List α) : List α → Nat → List α → Prop
  | none {text : List α} : (∀ i, ¬ Occurs needle text i) → Scan needle text 0 text
  | found {text before after rest : List α} {count : Nat} : text = before ++ needle ++ after → IsFirst needle text before.length →
    Scan needle after count rest → Scan needle text (count + 1) rest

theorem Scan.here {after rest : List α} {count : Nat} (scan : Scan needle after count rest) :
    Scan needle (needle ++ after) (count + 1) rest := by
  have split : needle ++ after = [] ++ needle ++ after := rfl
  exact .found split (isFirst_zero (List.prefix_append _ _)) scan

theorem Scan.skip {c : α} {rest : List α} {count : Nat} (other : ¬ needle <+: c::text) (scan : Scan needle text count rest) :
    (rest = text ∧ Scan needle (c::text) count (c::text)) ∨ Scan needle (c::text) count rest := by
  cases scan with
  | none never => exact Or.inl ⟨rfl,.none (never_cons other never)⟩
  | @found _ before after _ count split first later =>
    have longer : c::text = (c::before) ++ needle ++ after := by
      rw [split]
      rfl
    exact Or.inr (.found longer ((isFirst_cons other).mpr first) later)

theorem Scan.occurs_iff {rest : List α} {count : Nat} (scan : Scan needle text count rest) :
    0 < count ↔ ∃ i, Occurs needle text i := by
  cases scan with
  | none never => simpa using never
  | found split first later => exact ⟨fun _ => ⟨_,first.1⟩,fun _ => Nat.succ_pos _⟩

theorem Scan.unique {rest other : List α} {count number : Nat} (scan : Scan needle text count rest)
    (again : Scan needle text number other) : count = number ∧ rest = other := by
  induction scan generalizing other number with
  | none never =>
    cases again with
    | none _ => exact ⟨rfl,rfl⟩
    | found _ first _ => exact absurd first.1 (never _)
  | @found text before after rest count split first later ih =>
    cases again with
    | none never => exact absurd first.1 (never _)
    | @found _ front behind _ _ parts also following =>
      have length := first.unique also
      have same : before ++ needle ++ after = front ++ needle ++ behind := split.symm.trans parts
      obtain ⟨_,rfl⟩ := List.append_inj same (by simp [length])
      obtain ⟨rfl,rfl⟩ := ih following
      exact ⟨rfl,rfl⟩

/-- An occurrence begins in the text, wherever it ends. -/
def Begins (needle text behind : List α) : Prop := ∃ i < text.length, needle <+: (text ++ behind).drop i

theorem begins_cons {c : α} {behind : List α} (other : ¬ needle <+: c::(text ++ behind)) :
    Begins needle (c::text) behind ↔ Begins needle text behind := by
  constructor
  · rintro ⟨i,inside,here⟩
    cases i with
    | zero => exact absurd here other
    | succ i => exact ⟨i,by simpa using inside,by simpa using here⟩
  · rintro ⟨i,inside,here⟩
    exact ⟨i + 1,by simpa using inside,by simpa using here⟩

/-- What a scan counts that looks at the text and what is behind it: an occurrence that
begins in the text left over counts as well. -/
def Counted (needle behind text : List α) (total : Nat) : Prop := ∃ count rest, Scan needle text count rest ∧
  ((Begins needle rest behind ∧ total = count + 1) ∨ (¬ Begins needle rest behind ∧ total = count))

section Counted
variable {behind : List α} {total : Nat}

theorem counted_nil (some : needle ≠ []) : Counted needle behind [] 0 := by
  have short : ([] : List α).length < needle.length := List.length_pos_iff.mpr some
  refine ⟨0,[],.none (never_short short),Or.inr ⟨?_,rfl⟩⟩
  rintro ⟨_,below,_⟩
  cases below

theorem counted_crossing (some : text ≠ []) (short : text.length < needle.length) (here : needle <+: text ++ behind) :
    Counted needle behind text 1 :=
  ⟨0,text,.none (never_short short),Or.inl ⟨⟨0,List.length_pos_iff.mpr some,here⟩,rfl⟩⟩

theorem Counted.here (counted : Counted needle behind text total) : Counted needle behind (needle ++ text) (total + 1) := by
  obtain ⟨count,rest,scan,⟨begins,rfl⟩ | ⟨apart,rfl⟩⟩ := counted
  · exact ⟨count + 1,rest,scan.here,Or.inl ⟨begins,rfl⟩⟩
  · exact ⟨total + 1,rest,scan.here,Or.inr ⟨apart,rfl⟩⟩

theorem Counted.skip {c : α} (other : ¬ needle <+: c::(text ++ behind)) (counted : Counted needle behind text total) :
    Counted needle behind (c::text) total := by
  obtain ⟨count,rest,scan,result⟩ := counted
  have inside : ¬ needle <+: c::text := fun here => other (here.trans (List.prefix_append (c::text) behind))
  rcases scan.skip inside with ⟨rfl,longer⟩ | same
  · rw [← begins_cons other] at result
    exact ⟨count,_,longer,result⟩
  · exact ⟨count,rest,same,result⟩

end Counted

end Occurrence
