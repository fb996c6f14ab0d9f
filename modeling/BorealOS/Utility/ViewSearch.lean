import BorealOS.Library.Occurrence
import BorealOS.Utility.Formatter

/-! `IndexOf` and `CountOf` for any needle. Both compare with `strncmp`, which does not
know where the view ends. `IndexOf` never comes near the end unless the needle is
longer than the view; `CountOf` counts an occurrence as soon as it begins in the view. -/
namespace BorealOS.Utility

open ByteObject Occurrence

/-- What `strncmp` makes of a needle without a zero byte and the bytes ahead. -/
inductive Compared (needle ahead : List UInt8) : Except Fault Int → Prop
  | equal : needle <+: ahead → Compared needle ahead (.ok 0)
  | differs {difference : Int} : difference ≠ 0 → ¬ needle <+: ahead → ¬ ahead <+: needle → Compared needle ahead (.ok difference)
  | leaves : ¬ needle <+: ahead → ahead <+: needle → Compared needle ahead (.error .outOfBounds)

theorem Compared.cons {needle ahead : List UInt8} {result : Except Fault Int} (compared : Compared needle ahead result)
    (c : UInt8) : Compared (c::needle) (c::ahead) result := by
  have inner : ∀ first second : List UInt8, c::first <+: c::second ↔ first <+: second := fun _ _ => List.prefix_cons_inj c
  cases compared with
  | equal here => exact .equal ((inner _ _).mpr here)
  | differs nonzero other apart => exact .differs nonzero (mt (inner _ _).mp other) (mt (inner _ _).mp apart)
  | leaves other short => exact .leaves (mt (inner _ _).mp other) ((inner _ _).mpr short)

theorem strncmpLoop_compared {s1 s2 : Pointer} {remaining i : Nat} (inside : i + remaining ≤ s2.bytes.length)
    (unbroken : 0 ∉ (s2.bytes.drop i).take remaining) :
    Compared ((s2.bytes.drop i).take remaining) (s1.bytes.drop i) (strncmpLoop s1 s2 remaining i) := by
  induction remaining generalizing i with
  | zero => exact .equal (by simp)
  | succ remaining ih =>
    have within : i < s2.bytes.length := by omega
    have right := Pointer.read_of_some (List.getElem?_eq_getElem within)
    rw [List.drop_eq_getElem_cons within,List.take_succ_cons] at unbroken ⊢
    obtain ⟨nonzero,unbroken⟩ : _ ≠ _ ∧ _ := by simpa only [List.mem_cons,not_or] using unbroken
    by_cases ahead : i < s1.bytes.length
    · have left := Pointer.read_of_some (List.getElem?_eq_getElem ahead)
      rw [strncmpLoop,left,right,List.drop_eq_getElem_cons ahead]
      simp only [ok_bind,pure_eq_ok]
      by_cases same : s1.bytes[i] = s2.bytes[i]
      · rw [if_neg (by simp [same]),if_neg (fun zero => nonzero (zero.symm.trans same)),same]
        exact (ih (by omega) unbroken).cons _
      · have unequal : s1.bytes[i].toNat ≠ s2.bytes[i].toNat := fun equal => same (UInt8.toNat_inj.mp equal)
        rw [if_pos same]
        refine .differs (by omega) ?_ ?_
        · exact fun prefixed => same (List.cons_prefix_cons.mp prefixed).1.symm
        · exact fun prefixed => same (List.cons_prefix_cons.mp prefixed).1
    · have outside : s1.bytes[i]? = none := List.getElem?_eq_none (by omega)
      have nothing : s1.bytes.drop i = [] := List.drop_of_length_le (by omega)
      rw [strncmpLoop,Pointer.read_of_none outside,nothing]
      exact .leaves (by simp) (by simp)

namespace StringView

variable {view needle : StringView}

theorem strncmp_compared (view : StringView) (readable : needle.Readable) (unbroken : 0 ∉ needle.text) (i : Nat) :
    Compared needle.text (view.data.bytes.drop i) (strncmp (view.data.advance i) needle.data needle.size) := by
  have compared := @strncmpLoop_compared (view.data.advance i) needle.data needle.size 0 (by rwa [Nat.zero_add]) unbroken
  rwa [List.drop_zero,List.drop_zero,Pointer.bytes_advance] at compared

/-- The needle occurs in a view where it occurs in the buffer and ends inside of the view. -/
theorem Readable.occurs_iff (readable : view.Readable) {word : List UInt8} {i : Nat} :
    Occurs word view.text i ↔ i + word.length ≤ view.size ∧ word <+: view.data.bytes.drop i := by
  have length := readable.length_text
  rw [Occurrence.occurs_iff,length]
  constructor
  · rintro ⟨inside,here⟩
    have bound := here.length_le
    rw [List.length_drop,length] at bound
    refine ⟨by omega,here.trans ?_⟩
    rw [text,List.drop_take]
    exact List.take_prefix _ _
  · rintro ⟨inside,here⟩
    refine ⟨by omega,?_⟩
    rw [text,List.drop_take]
    exact (List.prefix_take_iff.mpr ⟨here,by omega⟩)

/-! `IndexOf`. -/

section Needle
variable (view) (readable : needle.Readable) (unbroken : 0 ∉ needle.text)
include readable unbroken

/-- The search finds the first place from an index on, or it passes so many places, or it
leaves the object at one of them. -/
theorem indexLoop_cases (last remaining i : Nat) :
    (∃ j, i ≤ j ∧ j < i + remaining ∧ needle.text <+: view.data.bytes.drop j ∧
      (∀ k, i ≤ k → k < j → ¬ needle.text <+: view.data.bytes.drop k) ∧ indexLoop view needle last remaining i = .ok j) ∨
    ((∀ k, i ≤ k → k < i + remaining → ¬ needle.text <+: view.data.bytes.drop k ∧ ¬ view.data.bytes.drop k <+: needle.text) ∧
      indexLoop view needle last remaining i = if last = npos then .error .endlessLoop else .ok npos) ∨
    (∃ j, i ≤ j ∧ j < i + remaining ∧ ¬ needle.text <+: view.data.bytes.drop j ∧ view.data.bytes.drop j <+: needle.text ∧
      indexLoop view needle last remaining i = .error .outOfBounds) := by
  induction remaining generalizing i with
  | zero => exact Or.inr (Or.inl ⟨fun k from' below => by omega,by rw [indexLoop]; rfl⟩)
  | succ remaining ih =>
    have compared := strncmp_compared view readable unbroken i
    rw [indexLoop]
    generalize strncmp (view.data.advance i) needle.data needle.size = result at compared
    cases compared with
    | equal here => exact Or.inl ⟨i,le_refl _,by omega,here,fun k from' below => by omega,by simp⟩
    | leaves other short => exact Or.inr (Or.inr ⟨i,le_refl _,by omega,other,short,by simp⟩)
    | differs nonzero other apart =>
      simp only [ok_bind,if_neg nonzero]
      rcases ih (i + 1) with ⟨j,from',below,here,earlier,run⟩ | ⟨passed,run⟩ | ⟨j,from',below,rest⟩
      · refine Or.inl ⟨j,by omega,by omega,here,fun k least before => ?_,run⟩
        rcases Nat.eq_or_lt_of_le least with rfl | later
        · exact other
        · exact earlier k later before
      · refine Or.inr (Or.inl ⟨fun k least before => ?_,run⟩)
        rcases Nat.eq_or_lt_of_le least with rfl | later
        · exact ⟨other,apart⟩
        · exact passed k later (by omega)
      · exact Or.inr (Or.inr ⟨j,by omega,by omega,rest⟩)

end Needle

theorem Readable.indexOf_cases (inside : view.Readable) (small : view.size < 2^64) (readable : needle.Readable)
    (unbroken : 0 ∉ needle.text) (fits : needle.size ≤ view.size) :
    (∃ i, IsFirst needle.text view.text i ∧ view.indexOf needle = .ok i) ∨
    ((∀ i, ¬ Occurs needle.text view.text i) ∧ view.indexOf needle = .ok npos) := by
  have length := readable.length_text
  have last : (view.size + 2^64 - needle.size) % 2^64 = view.size - needle.size := by omega
  have room : ∀ i, i + needle.size ≤ view.size ↔ 0 ≤ i ∧ i < 0 + (view.size - needle.size + 1) := by omega
  rw [indexOf,last]
  rcases indexLoop_cases view readable unbroken (view.size - needle.size) (view.size - needle.size + 1) 0 with
    ⟨i,_,below,here,earlier,run⟩ | ⟨passed,run⟩ | ⟨i,_,below,other,short,_⟩
  · refine Or.inl ⟨i,⟨inside.occurs_iff.mpr ⟨?_,here⟩,?_⟩,run⟩
    · rw [length]
      omega
    · intro j occurs
      by_contra before
      exact earlier j (Nat.zero_le j) (Nat.lt_of_not_le before) (inside.occurs_iff.mp occurs).2
  · have never : ∀ i, ¬ Occurs needle.text view.text i := by
      intro i occurs
      obtain ⟨bound,here⟩ := inside.occurs_iff.mp occurs
      rw [length,room] at bound
      exact (passed i bound.1 bound.2).1 here
    refine Or.inr ⟨never,?_⟩
    rw [run,if_neg]
    intro whole
    -- only an empty needle lets the search go so far, and it occurs at once
    have empty : needle.text = [] := by
      rw [← List.length_eq_zero_iff,length]
      unfold npos at whole
      omega
    exact never 0 (occurs_zero.mpr (by simp [empty]))
  · have same := short.eq_of_length_le (by
      rw [length,List.length_drop]
      unfold Readable at inside
      omega)
    exact absurd (same ▸ List.prefix_refl _) other

/-- The view in an object that ends with it: a read behind the view is a fault there. -/
def enclosed (view : StringView) : StringView :=
  ⟨⟨view.data.object.take (view.data.offset + view.size),view.data.offset⟩,view.size⟩

theorem bytes_enclosed (view : StringView) : view.enclosed.data.bytes = view.text := by
  simp [enclosed,Pointer.bytes,text,List.drop_take]

theorem Readable.enclosed (readable : view.Readable) : view.enclosed.Readable ∧ view.enclosed.text = view.text := by
  have length := readable.length_text
  have size : view.enclosed.size = view.size := rfl
  constructor
  · rw [Readable,bytes_enclosed,length,size]
  · rw [text,bytes_enclosed,size,← length,List.take_length]

theorem indexOf_leaves (readable : needle.Readable) (unbroken : 0 ∉ needle.text) (small : needle.size < 2^64)
    (long : view.size < needle.size) (inside : view.Readable) : view.enclosed.indexOf needle = .error .outOfBounds := by
  have length := readable.length_text
  have ahead := inside.length_text
  have last : (view.enclosed.size + 2^64 - needle.size) % 2^64 = view.size + 2^64 - needle.size :=
    Nat.mod_eq_of_lt (by have size : view.enclosed.size = view.size := rfl; omega)
  rw [indexOf,last]
  rcases indexLoop_cases view.enclosed readable unbroken (view.size + 2^64 - needle.size) (view.size + 2^64 - needle.size + 1) 0
    with ⟨i,_,_,here,_,_⟩ | ⟨passed,_⟩ | ⟨_,_,_,_,_,run⟩
  · have bound := here.length_le
    rw [bytes_enclosed,List.length_drop] at bound
    omega
  · have behind := (passed view.size (Nat.zero_le _) (by omega)).2
    rw [bytes_enclosed,List.drop_of_length_le (by omega)] at behind
    exact absurd (List.nil_prefix) behind
  · exact run

/-- `IndexOf` returns the leftmost occurrence, or `npos` where there is none, and it reads
nothing behind the view. -/
def FindsFirst (view needle : StringView) : Prop := ∃ index,
  view.indexOf needle = .ok index ∧ view.enclosed.indexOf needle = .ok index ∧
    (IsFirst needle.text view.text index ∨ ((∀ i, ¬ Occurs needle.text view.text i) ∧ index = npos))

/-- `IndexOf` does what it is for exactly if the needle is not longer than the view. -/
theorem indexOf_findsFirst_iff (view needle : StringView) (inside : view.Readable) (small : view.size < 2^64)
    (readable : needle.Readable) (unbroken : 0 ∉ needle.text) (few : needle.size < 2^64) :
    FindsFirst view needle ↔ needle.size ≤ view.size := by
  constructor
  · rintro ⟨index,_,alone,_⟩
    by_contra long
    rw [indexOf_leaves readable unbroken few (Nat.lt_of_not_le long) inside] at alone
    cases alone
  · intro fits
    obtain ⟨enclosed,same⟩ := inside.enclosed
    have alone := enclosed.indexOf_cases small readable unbroken fits
    rw [same] at alone
    rcases inside.indexOf_cases small readable unbroken fits with ⟨i,first,run⟩ | ⟨never,run⟩
    · rcases alone with ⟨j,also,again⟩ | ⟨never,_⟩
      · exact ⟨i,run,first.unique also ▸ again,Or.inl first⟩
      · exact absurd first.1 (never i)
    · rcases alone with ⟨j,also,_⟩ | ⟨_,again⟩
      · exact absurd also.1 (never j)
      · exact ⟨npos,run,again,Or.inr ⟨never,rfl⟩⟩

def levelView : StringView := literal (Formatter.ascii ['L','E','V','E','L','=','2'])

theorem indexOf_findsFirst_level : (literal (Formatter.ascii ['E','L'])).size ≤ levelView.size ∧
    FindsFirst levelView (literal (Formatter.ascii ['E','L'])) := by
  have fits : (literal (Formatter.ascii ['E','L'])).size ≤ levelView.size := by decide
  exact ⟨fits,(indexOf_findsFirst_iff levelView (literal (Formatter.ascii ['E','L'])) (readable_literal _) (by decide)
    (readable_literal _) (by rw [text_literal]; decide) (by decide)).mpr fits⟩

/-- The empty first argument of a line that starts with a space. -/
def leadingSlot : StringView := ⟨⟨Formatter.ascii [' ','L','E','V','E','L','=','2'] ++ [0],0⟩,0⟩

theorem indexOf_finds_behind : leadingSlot.indexOf (literal (Formatter.ascii ['='])) = .ok 6 ∧
    ¬ FindsFirst leadingSlot (literal (Formatter.ascii ['='])) := by
  have found : leadingSlot.indexOf (literal (Formatter.ascii ['='])) = .ok 6 := by decide +kernel
  refine ⟨found,?_⟩
  rintro ⟨index,run,_,first | ⟨_,absent⟩⟩
  · have bound := first.1.bound
    have nothing : leadingSlot.text.length = 0 := rfl
    have one : (Formatter.ascii ['=']).length = 1 := rfl
    rw [text_literal] at bound
    omega
  · rw [found,absent] at run
    cases run

/-! `CountOf`. -/

/-- The view is a part of a buffer with a terminator behind it. An object has less than
2^63 bytes. -/
structure InBuffer (view : StringView) : Prop where
  terminated : 0 ∈ view.data.bytes.drop view.size
  small : view.data.object.length < 2^63

def behind (view : StringView) : List UInt8 := view.data.bytes.drop view.size

theorem InBuffer.readable (buffered : view.InBuffer) : view.Readable := by
  by_contra outside
  have nothing := buffered.terminated
  rw [List.drop_of_length_le (Nat.le_of_lt (Nat.lt_of_not_le outside))] at nothing
  cases nothing

theorem InBuffer.text_behind (buffered : view.InBuffer) {i : Nat} (inside : i ≤ view.size) :
    view.data.bytes.drop i = view.text.drop i ++ view.behind := by
  have length := buffered.readable.length_text
  rw [← List.drop_append_of_le_length (by omega),text,behind,List.take_append_drop]

theorem countLoop_past {i : Nat} (past : view.size ≤ i) (rounds count : Nat) : countLoop view needle rounds i count = .ok count := by
  cases rounds with
  | zero => exact if_neg (Nat.not_lt_of_le past)
  | succ rounds => rw [countLoop,if_pos past]; rfl

section Counting
variable (buffered : view.InBuffer) (readable : needle.Readable) (unbroken : 0 ∉ needle.text) (some : 0 < needle.size)
include buffered readable unbroken some

theorem countLoop_counted (rounds i count : Nat) (inside : i ≤ view.size) (enough : view.size ≤ i + rounds) :
    ∃ total, Counted needle.text view.behind (view.text.drop i) total ∧
      countLoop view needle rounds i count = .ok (count + total) := by
  have length := buffered.readable.length_text
  have size := readable.length_text
  have nonempty : needle.text ≠ [] := List.length_pos_iff.mp (size ▸ some)
  induction rounds generalizing i count with
  | zero =>
    rw [List.drop_of_length_le (by omega)]
    exact ⟨0,counted_nil nonempty,countLoop_past enough 0 count⟩
  | succ rounds ih =>
    by_cases past : view.size ≤ i
    · rw [List.drop_of_length_le (by omega)]
      exact ⟨0,counted_nil nonempty,countLoop_past past _ count⟩
    · have here : i < view.text.length := by omega
      have ahead := buffered.text_behind inside
      have compared := strncmp_compared view readable unbroken i
      rw [countLoop,if_neg past]
      generalize strncmp (view.data.advance i) needle.data needle.size = result at compared
      cases compared with
      | equal found =>
        rw [ok_bind,if_pos rfl]
        by_cases fits : i + needle.size ≤ view.size
        · obtain ⟨total,counted,run⟩ := ih (i + needle.size) (count + 1) fits (by omega)
          obtain ⟨_,after,split⟩ := Occurrence.occurs_iff.mp (buffered.readable.occurs_iff.mpr ⟨size.symm ▸ fits,found⟩)
          have rest : view.text.drop (i + needle.size) = after := by
            rw [← List.drop_drop,← split,← size,List.drop_left]
          rw [rest] at counted
          exact ⟨total + 1,split ▸ counted.here,by rw [run,Nat.add_assoc,Nat.add_comm 1]⟩
        · rw [ahead] at found
          refine ⟨1,counted_crossing ?_ ?_ found,countLoop_past (Nat.le_of_not_le fits) _ _⟩
          · simpa using here
          · rw [List.length_drop]
            omega
      | leaves other short =>
        -- the terminator stands behind the view, and the needle has none
        rw [ahead] at short
        exact absurd (short.subset (List.mem_append_right _ buffered.terminated)) unbroken
      | differs nonzero other apart =>
        rw [ok_bind,if_neg nonzero]
        obtain ⟨total,counted,run⟩ := ih (i + 1) count (by omega) (by omega)
        rw [ahead,List.drop_eq_getElem_cons here] at other
        rw [List.drop_eq_getElem_cons here]
        exact ⟨total,counted.skip other,run⟩

theorem countOf_counted : ∃ total, Counted needle.text view.behind view.text total ∧ view.countOf needle = .ok total := by
  obtain ⟨total,counted,run⟩ := countLoop_counted buffered readable unbroken some view.size 0 0 (Nat.zero_le _) (by omega)
  rw [Nat.zero_add] at run
  exact ⟨total,counted,run⟩

omit some in
theorem indexOf_long (few : needle.size < 2^63) (long : view.size < needle.size) : view.indexOf needle ≠ .ok npos := by
  have size := readable.length_text
  have small := buffered.small
  have bytes : view.data.bytes.length ≤ view.data.object.length := by simp [Pointer.bytes]
  have last : (view.size + 2^64 - needle.size) % 2^64 = view.size + 2^64 - needle.size := Nat.mod_eq_of_lt (by omega)
  rw [indexOf,last]
  rcases indexLoop_cases view readable unbroken (view.size + 2^64 - needle.size) (view.size + 2^64 - needle.size + 1) 0
    with ⟨i,_,_,here,_,run⟩ | ⟨passed,_⟩ | ⟨_,_,_,_,_,run⟩
  · have bound := here.length_le
    rw [List.length_drop] at bound
    rw [run,ne_eq,Except.ok.injEq]
    unfold npos
    omega
  · have outside := (passed view.data.bytes.length (Nat.zero_le _) (by omega)).2
    rw [List.drop_length] at outside
    exact absurd List.nil_prefix outside
  · rw [run]
    intro equal
    cases equal

end Counting

theorem countLoop_empty (empty : needle.size = 0) {i : Nat} (inside : i < view.size) (rounds count : Nat) :
    countLoop view needle rounds i count = .error .endlessLoop := by
  induction rounds generalizing count with
  | zero => exact if_pos inside
  | succ rounds ih =>
    rw [countLoop,if_neg (Nat.not_le_of_lt inside),empty]
    exact ih (count + 1)

/-- `CountOf` ends, and for a needle that is not empty it counts the occurrences in the view
and agrees with `IndexOf` on whether there are any. -/
def Counts (view needle : StringView) : Prop := ∃ count, view.countOf needle = .ok count ∧ (0 < needle.size →
  (∃ rest, Scan needle.text view.text count rest) ∧ ∃ index, view.indexOf needle = .ok index ∧ (0 < count ↔ index ≠ npos))

/-- `CountOf` does what it is for on an empty needle only in an empty view, and on another
needle exactly if it is not longer than the view and no occurrence begins in the text that
the scan of the view leaves and ends behind the view. -/
theorem countOf_counts_iff (view needle : StringView) (buffered : view.InBuffer) (readable : needle.Readable)
    (unbroken : 0 ∉ needle.text) (few : needle.size < 2^63) : Counts view needle ↔
      (needle.size = 0 ∧ view.size = 0) ∨ (0 < needle.size ∧ needle.size ≤ view.size ∧
        ∀ count rest, Scan needle.text view.text count rest → ¬ Begins needle.text rest view.behind) := by
  have length := buffered.readable.length_text
  have size := readable.length_text
  constructor
  · rintro ⟨count,run,meaning⟩
    rcases Nat.eq_zero_or_pos needle.size with empty | some
    · refine Or.inl ⟨empty,?_⟩
      by_contra nonempty
      rw [countOf,countLoop_empty empty (Nat.pos_of_ne_zero nonempty)] at run
      cases run
    · obtain ⟨⟨left,scan⟩,index,search,agrees⟩ := meaning some
      refine Or.inr ⟨some,?_,?_⟩
      · by_contra long
        have never : ¬ 0 < count := by
          rw [scan.occurs_iff]
          rintro ⟨i,occurs⟩
          exact never_short (by omega) i occurs
        rw [agrees,not_not] at never
        exact indexOf_long buffered readable unbroken few (Nat.lt_of_not_le long) (never ▸ search)
      · intro number rest again begins
        obtain ⟨total,⟨found,remains,also,result⟩,counted⟩ := countOf_counted buffered readable unbroken some
        obtain ⟨rfl,rfl⟩ := again.unique also
        obtain ⟨rfl,_⟩ := scan.unique also
        rw [run,Except.ok.injEq] at counted
        rcases result with ⟨_,more⟩ | ⟨apart,_⟩
        · omega
        · exact apart begins
  · rintro (⟨empty,nothing⟩ | ⟨some,fits,apart⟩)
    · refine ⟨0,countLoop_past (by omega) _ _,fun positive => ?_⟩
      omega
    · obtain ⟨total,⟨count,rest,scan,result⟩,counted⟩ := countOf_counted buffered readable unbroken some
      rcases result with ⟨begins,_⟩ | ⟨_,rfl⟩
      · exact absurd begins (apart count rest scan)
      · refine ⟨total,counted,fun _ => ⟨⟨rest,scan⟩,?_⟩⟩
        have small := buffered.small
        have bytes : view.data.bytes.length ≤ view.data.object.length := by simp [Pointer.bytes]
        have inside := buffered.readable
        unfold Readable at inside
        rcases buffered.readable.indexOf_cases (by omega) readable unbroken fits with ⟨i,first,run⟩ | ⟨never,run⟩
        · refine ⟨i,run,?_⟩
          have bound := first.1.bound
          rw [scan.occurs_iff]
          unfold npos
          exact ⟨fun _ => by omega,fun _ => ⟨i,first.1⟩⟩
        · refine ⟨npos,run,?_⟩
          rw [scan.occurs_iff]
          refine ⟨?_,fun other => absurd rfl other⟩
          rintro ⟨i,occurs⟩
          exact absurd occurs (never i)

theorem inBuffer_literal {word : List UInt8} (small : word.length < 2^63 - 1) : (literal word).InBuffer := by
  refine ⟨?_,?_⟩
  · simp [literal,Pointer.bytes]
  · simp only [literal,List.length_append,List.length_singleton]
    omega

theorem countOf_counts_equals : (literal (Formatter.ascii ['=','2'])).InBuffer ∧
    Counts (literal (Formatter.ascii ['=','2'])) (literal (Formatter.ascii ['='])) := by
  have buffered : (literal (Formatter.ascii ['=','2'])).InBuffer := inBuffer_literal (by decide)
  refine ⟨buffered,(countOf_counts_iff _ _ buffered (readable_literal _) (by rw [text_literal]; decide) (by decide)).mpr ?_⟩
  refine Or.inr ⟨by decide,by decide,?_⟩
  have none : ∀ i, ¬ Occurs (Formatter.ascii ['=']) (Formatter.ascii ['2']) i :=
    never_cons (by decide) (never_short (by decide))
  rw [text_literal,text_literal]
  intro count rest scan
  obtain ⟨_,rfl⟩ := (Scan.none none).here.unique scan
  rintro ⟨i,below,here⟩
  obtain rfl : i = 0 := Nat.lt_one_iff.mp below
  exact absurd here (by decide)

/-- The first two characters of a buffer with `aab`. -/
def cutView : StringView := ⟨⟨Formatter.ascii ['a','a','b'] ++ [0],0⟩,2⟩

/-- `CountOf` counts the `ab` that ends behind the view, and never ends for an empty needle. -/
theorem countOf_counts_behind : ¬ Counts cutView (literal (Formatter.ascii ['a','b'])) ∧
    cutView.countOf (literal (Formatter.ascii ['a','b'])) = .ok 1 ∧
    cutView.indexOf (literal (Formatter.ascii ['a','b'])) = .ok npos ∧
    ¬ Counts cutView blank ∧ cutView.countOf blank = .error .endlessLoop := by
  have one : cutView.countOf (literal (Formatter.ascii ['a','b'])) = .ok 1 := by decide
  have absent : cutView.indexOf (literal (Formatter.ascii ['a','b'])) = .ok npos := by decide +kernel
  have endless : cutView.countOf blank = .error .endlessLoop := by decide
  refine ⟨?_,one,absent,?_,endless⟩
  · rintro ⟨count,counted,meaning⟩
    obtain ⟨_,index,search,agrees⟩ := meaning (by decide)
    rw [one,Except.ok.injEq] at counted
    rw [absent,Except.ok.injEq] at search
    exact absurd search.symm (agrees.mp (by omega))
  · rintro ⟨count,counted,_⟩
    rw [endless] at counted
    cases counted

end StringView

end BorealOS.Utility
