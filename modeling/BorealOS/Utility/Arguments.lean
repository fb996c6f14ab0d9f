import BorealOS.Utility.CommandLineExtractor

/-! What `SplitArguments` makes of a text. The abstract splitter reads the text
from left to right with a flag for the quotes and a flag for the spaces behind
an argument; the code's two passes count and store its pieces. -/
namespace BorealOS.Utility

open ByteObject StringView

structure Piece where
  start : Nat
  text : List UInt8
deriving DecidableEq, Repr

/-- The pieces of a text behind the part `current` of an argument. While spaces are
skipped they belong to the next argument, and where the text ends among them
there is no next argument. -/
def pieces : (skipping quotes : Bool) → (start : Nat) → (current rest : List UInt8) → List (Option Piece)
  | skipping, _, start, current, [] => [if skipping then none else some ⟨start,current⟩]
  | skipping, quotes, start, current, c :: rest =>
    if skipping ∧ c = space then pieces true quotes start (current ++ [c]) rest
    else if c = space ∧ quotes = false then
      some ⟨start,current⟩ :: pieces true quotes (start + current.length + 1) [] rest
    else pieces false (quotes != (c == quotation)) start (current ++ [c]) rest

def piecesOf (text : List UInt8) : List (Option Piece) := pieces false false 0 [] text

theorem pieces_ne_nil (skipping quotes : Bool) (start : Nat) (current rest : List UInt8) :
    pieces skipping quotes start current rest ≠ [] := by
  induction rest generalizing skipping quotes start current with
  | nil => simp [pieces]
  | cons c rest ih =>
    unfold pieces
    split
    · exact ih _ _ _ _
    · split
      · simp
      · exact ih _ _ _ _

/-- The slot of a piece: a part of the view, or a view that was never written. -/
def viewOf (src : StringView) : Option Piece → StringView
  | some piece => ⟨src.data.advance piece.start,piece.text.length⟩
  | none => .blank

def writesFrom (src : StringView) (count : Nat) : List (Option Piece) → List (Nat × StringView)
  | [] => []
  | none :: rest => writesFrom src (count + 1) rest
  | some piece :: rest => (count,viewOf src (some piece)) :: writesFrom src (count + 1) rest

section Store
variable {σ : Type} (store : σ → Nat → StringView → Except Fault σ) (src : StringView)

def storeAll (out : σ) (writes : List (Nat × StringView)) : Except Fault σ :=
  writes.foldlM (fun out write => store out write.1 write.2) out

def storePieces (out : σ) (count : Nat) (left : List (Option Piece)) : Except Fault (Nat × σ) := do
  let out ← storeAll store out (writesFrom src count left)
  return (count + left.length - 1,out)

theorem storeAll_cons (out : σ) (write : Nat × StringView) (writes : List (Nat × StringView)) :
    storeAll store out (write::writes) = (do
      let out ← store out write.1 write.2
      storeAll store out writes) := List.foldlM_cons

theorem storePieces_cons (out : σ) (count : Nat) (piece : Piece) {left : List (Option Piece)} (more : left ≠ []) :
    storePieces store src out count (some piece::left) = (do
      let out ← store out count (viewOf src (some piece))
      storePieces store src out (count + 1) left) := by
  have positive : 0 < left.length := List.length_pos_iff.mpr more
  have index : count + (left.length + 1) - 1 = count + 1 + left.length - 1 := by omega
  rw [storePieces,writesFrom,storeAll_cons]
  cases stored : store out count (viewOf src (some piece)) <;> simp [storePieces,index]

end Store

section Loop
variable {src : StringView} (readable : src.Readable)

def window (src : StringView) (start pos : Nat) : List UInt8 := (src.text.drop start).take (pos - start)

theorem window_succ {start pos : Nat} (ordered : start ≤ pos) {character : UInt8} (here : src.text[pos]? = some character) :
    window src start (pos + 1) = window src start pos ++ [character] := by
  have next : pos + 1 - start = pos - start + 1 := by omega
  have shifted : (src.text.drop start)[pos - start]? = some character := by
    rw [List.getElem?_drop,← here]
    congr 1
    omega
  rw [window,window,next,List.take_add_one,shifted]
  rfl

private theorem pieces_character {skipping quotes : Bool} {start pos : Nat} (ordered : start ≤ pos) {character : UInt8}
    (here : src.text[pos]? = some character) (goes : character = space → skipping = false ∧ quotes = true) :
    pieces skipping quotes start (window src start pos) (src.text.drop pos) =
      pieces false (if decide (src.text[pos]? = some quotation) then !quotes else quotes) start
        (window src start (pos + 1)) (src.text.drop (pos + 1)) := by
  obtain ⟨inside,value⟩ := List.getElem?_eq_some_iff.mp here
  rw [List.drop_eq_getElem_cons inside,value,pieces,window_succ ordered here]
  have stays : ¬ (skipping = true ∧ character = space) := by
    rintro ⟨set,blank⟩
    rw [(goes blank).1] at set
    cases set
  have inner : ¬ (character = space ∧ quotes = false) := by
    rintro ⟨blank,unset⟩
    rw [(goes blank).2] at unset
    cases unset
  rw [if_neg stays,if_neg inner]
  by_cases quote : character = quotation
  · simp [quote,here]
  · have apart : (character == quotation) = false := by simpa using quote
    simp [quote,here,apart]

include readable

theorem character_at (pos : Nat) {character : UInt8} (nonzero : character ≠ 0) :
    (src.substring pos 1).equal (.literal [character]) = .ok (decide (src.text[pos]? = some character)) := by
  have length := readable.length_text
  by_cases past : src.size ≤ pos
  · have none : src.text[pos]? = none := List.getElem?_eq_none (by omega)
    rw [equal_of_size (by simp [substring,past,literal]),none]
    rfl
  · have inside : pos < src.text.length := by omega
    rw [(readable_substring readable (by omega)).equal_literal (by simpa using nonzero.symm),
      text_substring readable (by omega),List.drop_eq_getElem_cons inside,List.getElem?_eq_getElem inside]
    simp only [List.take_succ_cons,List.take_zero,List.cons.injEq,and_true,Option.some.injEq]

theorem substring_window {start pos : Nat} (ordered : start ≤ pos) (inside : pos ≤ src.size) :
    src.substring start (pos - start) = viewOf src (some ⟨start,window src start pos⟩) := by
  have length := readable.length_text
  have size : (window src start pos).length = pos - start := by
    rw [window,List.length_take,List.length_drop]
    omega
  rw [viewOf,size]
  by_cases past : src.size ≤ start
  · have same : start = src.size := by omega
    have none : pos - src.size = 0 := by omega
    rw [same,substring,if_pos (le_refl _),none]
  · simp [substring,past]

theorem skipSpaces_spec {start : Nat} (remaining pos : Nat) (ordered : start ≤ pos) (whole : pos + remaining = src.size) :
    ∃ reached, skipSpaces src remaining pos = .ok reached ∧ pos ≤ reached ∧ reached ≤ src.size ∧
      src.text[reached]? ≠ some space ∧
      pieces true false start (window src start pos) (src.text.drop pos) =
        pieces true false start (window src start reached) (src.text.drop reached) := by
  have length := readable.length_text
  induction remaining generalizing pos with
  | zero =>
    have none : src.text[pos]? = none := List.getElem?_eq_none (by omega)
    refine ⟨pos,?_,le_refl _,by omega,by simp [none],rfl⟩
    rw [skipSpaces,character_at readable pos (by decide),none]
    rfl
  | succ remaining ih =>
    have inside : pos < src.text.length := by omega
    have here := List.getElem?_eq_getElem inside
    rw [skipSpaces,character_at readable pos (by decide)]
    by_cases blank : src.text[pos] = space
    · rw [blank] at here
      obtain ⟨reached,run,later,bounded,ends,same⟩ := ih (pos + 1) (by omega) (by omega)
      refine ⟨reached,by simpa [here] using run,by omega,bounded,ends,?_⟩
      rw [← same,window_succ ordered here,List.drop_eq_getElem_cons inside,blank,pieces]
      simp
    · have other : src.text[pos]? ≠ some space := by simpa [here] using blank
      exact ⟨pos,by simp [other],le_refl _,by omega,other,rfl⟩

section Store
variable {σ : Type} (store : σ → Nat → StringView → Except Fault σ)

omit readable in
private theorem splitLoop_past {rounds : Nat} {s : SplitState σ} {quotes : Bool} (past : src.size < s.pos) :
    splitLoop store src rounds s quotes = .ok (s.count,s.out) := by
  cases rounds with
  | zero => rw [splitLoop,if_pos past]; rfl
  | succ rounds => rw [splitLoop,if_pos past]; rfl

theorem splitLoop_spec (rounds : Nat) (s : SplitState σ) (quotes : Bool) (ordered : s.previouspos ≤ s.pos)
    (inside : s.pos ≤ src.size) (enough : src.size < s.pos + rounds) :
    splitLoop store src rounds s quotes = storePieces store src s.out s.count
      (pieces false quotes s.previouspos (window src s.previouspos s.pos) (src.text.drop s.pos)) := by
  have length := readable.length_text
  induction rounds generalizing s quotes with
  | zero => omega
  | succ rounds ih =>
    rw [splitLoop,if_neg (by omega)]
    by_cases final : s.pos = src.size
    · rw [if_pos final,List.drop_of_length_le (by omega),substring_window readable ordered inside]
      cases stored : store s.out s.count (viewOf src (some ⟨s.previouspos,window src s.previouspos s.pos⟩)) <;>
        simp [pieces,storePieces,writesFrom,storeAll,stored]
    · have within : s.pos < src.text.length := by omega
      have here := List.getElem?_eq_getElem within
      rw [if_neg final,endArgument,character_at readable s.pos (by decide)]
      by_cases ends : src.text[s.pos] = space ∧ quotes = false
      · obtain ⟨blank,rfl⟩ := ends
        rw [blank] at here
        obtain ⟨reached,skipped,later,bounded,other,same⟩ := skipSpaces_spec readable (src.size - (s.pos + 1)) (s.pos + 1)
          (le_refl (s.pos + 1)) (by omega)
        have start : s.previouspos + (window src s.previouspos s.pos).length + 1 = s.pos + 1 := by
          rw [window,List.length_take,List.length_drop]
          omega
        have none : window src (s.pos + 1) (s.pos + 1) = [] := by simp [window]
        have split : pieces false false s.previouspos (window src s.previouspos s.pos) (src.text.drop s.pos) =
            some ⟨s.previouspos,window src s.previouspos s.pos⟩ ::
              pieces true false (s.pos + 1) (window src (s.pos + 1) reached) (src.text.drop reached) := by
          rw [List.drop_eq_getElem_cons within,blank,pieces,start,← same,none]
          simp
        rw [split,storePieces_cons store src _ _ _ (pieces_ne_nil _ _ _ _ _),skipped,substring_window readable ordered inside]
        cases stored : store s.out s.count (viewOf src (some ⟨s.previouspos,window src s.previouspos s.pos⟩)) with
        | error fault => simp [here]
        | ok out =>
          simp only [here,decide_true,ok_bind,Bool.not_false,Bool.and_self,if_true,pure_eq_ok,
            character_at readable reached (show quotation ≠ 0 by decide)]
          by_cases trailing : reached = src.size
          · rw [splitLoop_past store (by simp; omega),List.drop_of_length_le (by omega)]
            rfl
          · have later : reached < src.text.length := by omega
            rw [pieces_character (by omega) (List.getElem?_eq_getElem later)
              (fun blank => absurd (by rw [List.getElem?_eq_getElem later,blank]) other)]
            exact ih _ _ (by simp; omega) (by simp; omega) (by simp; omega)
      · have goes : src.text[s.pos] = space → false = false ∧ quotes = true := by
          intro blank
          exact ⟨rfl,by simpa using fun unset => ends ⟨blank,unset⟩⟩
        have stays : (decide (src.text[s.pos]? = some space) && !quotes) = false := by
          rw [here]
          by_cases blank : src.text[s.pos] = space
          · simp [(goes blank).2]
          · simp [blank]
        simp only [ok_bind,stays,Bool.false_eq_true,if_false,pure_eq_ok,
          character_at readable s.pos (show quotation ≠ 0 by decide)]
        rw [pieces_character ordered here goes]
        exact ih _ _ (by simp; omega) (by simp; omega) (by simp; omega)

theorem splitInto_spec (out : σ) : splitInto store src out = (do
    let out ← storeAll store out (writesFrom src 0 (piecesOf src.text))
    return ((piecesOf src.text).length,out)) := by
  have positive : 0 < (piecesOf src.text).length := List.length_pos_iff.mpr (pieces_ne_nil _ _ _ _ _)
  have whole : 0 + (piecesOf src.text).length - 1 + 1 = (piecesOf src.text).length := by omega
  have start : pieces false false 0 (window src 0 0) (src.text.drop 0) = piecesOf src.text := rfl
  rw [splitInto,splitLoop_spec readable store _ _ _ (le_refl _) (Nat.zero_le _) (by simp),storePieces,start]
  cases stored : storeAll store out (writesFrom src 0 (piecesOf src.text)) with
  | error fault => simp
  | ok out => simp only [ok_bind,pure_eq_ok,whole]

end Store

omit readable in
theorem storeAll_none (writes : List (Nat × StringView)) : storeAll storeArgument none writes = .ok none := by
  induction writes with
  | nil => rfl
  | cons write writes ih => exact ih

omit readable in
theorem storeAll_slots (done : List StringView) (left : List (Option Piece)) :
    storeAll storeArgument (some (done ++ List.replicate left.length .blank)) (writesFrom src done.length left) =
      .ok (some (done ++ left.map (viewOf src))) := by
  induction left generalizing done with
  | nil => rfl
  | cons piece left ih =>
    have next := ih (done ++ [viewOf src piece])
    rw [List.length_append,List.length_singleton,List.append_assoc,List.append_assoc,List.singleton_append,
      List.singleton_append] at next
    cases piece with
    | none => exact next
    | some piece =>
      have room : done.length < (done ++ List.replicate (left.length + 1) StringView.blank).length := by simp
      have written : (done ++ List.replicate (left.length + 1) StringView.blank).set done.length (viewOf src (some piece)) =
          done ++ viewOf src (some piece) :: List.replicate left.length .blank := by
        rw [List.set_append_right _ _ (le_refl _),Nat.sub_self]
        rfl
      rw [writesFrom,storeAll_cons,List.length_cons,storeArgument,if_pos room,written]
      exact next

theorem splitArguments_count : splitArguments src none = .ok ((piecesOf src.text).length,none) := by
  rw [splitArguments,splitInto_spec readable,storeAll_none]
  rfl

theorem splitArguments_fill : splitArguments src (some (List.replicate (piecesOf src.text).length .blank)) =
    .ok ((piecesOf src.text).length,some ((piecesOf src.text).map (viewOf src))) := by
  have filled : storeAll storeArgument (some (List.replicate (piecesOf src.text).length .blank))
      (writesFrom src 0 (piecesOf src.text)) = .ok (some ((piecesOf src.text).map (viewOf src))) :=
    storeAll_slots [] (piecesOf src.text)
  rw [splitArguments,splitInto_spec readable,filled]
  rfl

theorem arguments_spec : arguments src = .ok ((piecesOf src.text).map (viewOf src)) := by
  rw [arguments,splitArguments_count readable]
  simp only [ok_bind,splitArguments_fill readable]
  rfl

end Loop

/-! The pieces of a text. -/

def Piece.InText (text : List UInt8) (piece : Piece) : Prop :=
  ∃ before after, text = before ++ piece.text ++ after ∧ before.length = piece.start

theorem pieces_inText {skipping quotes : Bool} {start : Nat} {current rest before : List UInt8} (place : before.length = start)
    {piece : Piece} (member : some piece ∈ pieces skipping quotes start current rest) :
    piece.InText (before ++ current ++ rest) := by
  induction rest generalizing skipping quotes start current before with
  | nil =>
    cases skipping with
    | true => simp [pieces] at member
    | false =>
      have same : piece = ⟨start,current⟩ := by simpa [pieces] using member
      exact ⟨before,[],by simp [same],by simp [same,place]⟩
  | cons c rest ih =>
    have regroup : before ++ current ++ c :: rest = before ++ (current ++ [c]) ++ rest := by simp
    have behind : before ++ current ++ c :: rest = (before ++ current ++ [c]) ++ [] ++ rest := by simp
    unfold pieces at member
    split at member
    · rw [regroup]
      exact ih place member
    · split at member
      · rcases List.mem_cons.mp member with same | later
        · have equal : piece = ⟨start,current⟩ := Option.some.inj same
          exact ⟨before,c::rest,by simp [equal],by simp [equal,place]⟩
        · rw [behind]
          exact ih (by simp [place,Nat.add_assoc]) later
      · rw [regroup]
        exact ih place member

theorem piecesOf_inText {text : List UInt8} {piece : Piece} (member : some piece ∈ piecesOf text) : piece.InText text := by
  have inside := pieces_inText (show ([] : List UInt8).length = 0 from rfl) member
  simpa using inside

theorem pieces_nonempty {skipping quotes : Bool} {start : Nat} {current rest : List UInt8}
    (begun : skipping = true ∨ current ≠ []) {piece : Piece}
    (member : some piece ∈ pieces skipping quotes start current rest) : piece.text ≠ [] := by
  induction rest generalizing skipping quotes start current with
  | nil =>
    cases skipping with
    | true => simp [pieces] at member
    | false =>
      have same : piece = ⟨start,current⟩ := by simpa [pieces] using member
      simpa [same] using begun
  | cons c rest ih =>
    unfold pieces at member
    split at member
    · exact ih (Or.inl rfl) member
    · rename_i stays
      split at member
      · rename_i ends
        rcases List.mem_cons.mp member with same | later
        · have equal : piece = ⟨start,current⟩ := Option.some.inj same
          rcases begun with skips | nonempty
          · exact absurd ⟨skips,ends.1⟩ stays
          · simpa [equal] using nonempty
        · exact ih (Or.inl rfl) later
      · exact ih (Or.inr (by simp)) member

/-- The two flags behind a character: whether spaces are skipped, and whether quotes
are open. -/
def scanStep (flags : Bool × Bool) (c : UInt8) : Bool × Bool :=
  if c = space then (flags.1 || !flags.2,flags.2) else (false,flags.2 != (c == quotation))

theorem pieces_cons (skipping quotes : Bool) (start : Nat) (current : List UInt8) (c : UInt8)
    (closed : skipping = true → quotes = false) : ∃ (args : List Piece) (start' : Nat) (current' : List UInt8),
      (∀ rest, pieces skipping quotes start current (c::rest) =
        args.map some ++ pieces (scanStep (skipping,quotes) c).1 (scanStep (skipping,quotes) c).2 start' current' rest) ∧
      ((scanStep (skipping,quotes) c).1 = true → (scanStep (skipping,quotes) c).2 = false) := by
  by_cases skips : skipping = true ∧ c = space
  · have step : scanStep (skipping,quotes) c = (true,quotes) := by simp [scanStep,skips.1,skips.2]
    refine ⟨[],start,current ++ [c],?_,by rw [step]; exact fun _ => closed skips.1⟩
    intro rest
    rw [pieces,if_pos skips,step]
    rfl
  · by_cases ends : c = space ∧ quotes = false
    · have step : scanStep (skipping,quotes) c = (true,quotes) := by simp [scanStep,ends.1,ends.2]
      refine ⟨[⟨start,current⟩],start + current.length + 1,[],?_,by rw [step]; exact fun _ => ends.2⟩
      intro rest
      rw [pieces,if_neg skips,if_pos ends,step]
      rfl
    · have step : scanStep (skipping,quotes) c = (false,quotes != (c == quotation)) := by
        by_cases blank : c = space
        · have unskipped : skipping = false := by simpa [blank] using skips
          have open' : quotes = true := by simpa [blank] using ends
          simp [scanStep,blank,unskipped,open']
          decide
        · simp [scanStep,blank]
      refine ⟨[],start,current ++ [c],?_,by rw [step]; nofun⟩
      intro rest
      rw [pieces,if_neg skips,if_neg ends,step]
      rfl

theorem pieces_append (skipping quotes : Bool) (start : Nat) (current before : List UInt8)
    (closed : skipping = true → quotes = false) : ∃ (args : List Piece) (start' : Nat) (current' : List UInt8),
      ∀ rest, pieces skipping quotes start current (before ++ rest) = args.map some ++
        pieces (before.foldl scanStep (skipping,quotes)).1 (before.foldl scanStep (skipping,quotes)).2 start' current' rest := by
  induction before generalizing skipping quotes start current with
  | nil => exact ⟨[],start,current,fun _ => rfl⟩
  | cons c before ih =>
    obtain ⟨first,start₁,current₁,step,stays⟩ := pieces_cons skipping quotes start current c closed
    obtain ⟨args,start₂,current₂,run⟩ := ih _ _ start₁ current₁ stays
    refine ⟨first ++ args,start₂,current₂,?_⟩
    intro rest
    rw [List.cons_append,step,run,List.foldl_cons,List.map_append,List.append_assoc]

/-- Only the last slot can stay unwritten, and it does where the text ends among
skipped spaces. -/
theorem pieces_shape (skipping quotes : Bool) (start : Nat) (current rest : List UInt8)
    (closed : skipping = true → quotes = false) :
    ∃ args : List Piece, pieces skipping quotes start current rest =
      args.map some ++ if (rest.foldl scanStep (skipping,quotes)).1 then [none] else [] := by
  obtain ⟨args,start',current',run⟩ := pieces_append skipping quotes start current rest closed
  have whole := run []
  rw [List.append_nil,pieces] at whole
  rw [whole]
  by_cases skips : (rest.foldl scanStep (skipping,quotes)).1 = true
  · exact ⟨args,by rw [if_pos skips,if_pos skips]⟩
  · exact ⟨args ++ [⟨start',current'⟩],by rw [if_neg skips,if_neg skips]; simp⟩

/-- A text ends among skipped spaces where its last character is a space outside of
quotes. -/
def EndsBlank (text : List UInt8) : Prop := text.getLast? = some space ∧ text.count quotation % 2 = 0

instance (text : List UInt8) : Decidable (EndsBlank text) := inferInstanceAs (Decidable (_ ∧ _))

private theorem count_concat {c : UInt8} (apart : c ≠ quotation) (text : List UInt8) :
    (text ++ [c]).count quotation = text.count quotation := by
  rw [List.count_append,List.count_cons_of_ne apart,List.count_nil,Nat.add_zero]

theorem decide_odd_succ (n : Nat) : decide ((n + 1) % 2 = 1) = !decide (n % 2 = 1) := by
  by_cases odd : n % 2 = 1
  · simp [odd,show (n + 1) % 2 = 0 by omega]
  · simp [odd,show (n + 1) % 2 = 1 by omega]

theorem scan_flags (text : List UInt8) : text.foldl scanStep (false,false) =
    (decide (EndsBlank text),decide (text.count quotation % 2 = 1)) := by
  induction text using List.reverseRecOn with
  | nil => decide
  | append_singleton text c ih =>
    rw [List.foldl_append,ih,List.foldl_cons,List.foldl_nil]
    by_cases blank : c = space
    · subst blank
      rw [scanStep,if_pos rfl]
      simp only [EndsBlank,count_concat (show space ≠ quotation by decide),List.getLast?_concat,true_and]
      by_cases even : text.count quotation % 2 = 0
      · simp [even]
      · have odd : text.count quotation % 2 = 1 := by omega
        simp [odd]
    · rw [scanStep,if_neg blank]
      have last : ¬ EndsBlank (text ++ [c]) := by
        rintro ⟨same,_⟩
        exact blank (by simpa using same)
      simp only [last,decide_false,Prod.mk.injEq,true_and]
      by_cases quote : c = quotation
      · subst quote
        rw [List.count_append,List.count_singleton_self,decide_odd_succ]
        simp
      · rw [count_concat quote]
        have apart : (c == quotation) = false := by simpa using quote
        simp [apart]

/-- The slots of a command line: the arguments, and an unwritten one behind them where
the line ends in a space outside of quotes. -/
theorem piecesOf_shape (text : List UInt8) : ∃ args : List Piece, piecesOf text =
    args.map some ++ if EndsBlank text then [none] else [] := by
  obtain ⟨args,shape⟩ := pieces_shape false false 0 [] text nofun
  rw [scan_flags] at shape
  simp only [decide_eq_true_eq] at shape
  exact ⟨args,shape⟩

/-- The first argument is empty where the line starts with a space, and every other
argument has a text. -/
theorem piecesOf_slots {text : List UInt8} (nonempty : text ≠ []) : ∃ more : List Piece,
    (∀ piece ∈ more, piece.text ≠ []) ∧ piecesOf text =
      (if text.head? = some space then [some ⟨0,[]⟩] else []) ++ (more.map some ++ if EndsBlank text then [none] else []) := by
  obtain ⟨c,rest,rfl⟩ := List.exists_cons_of_ne_nil nonempty
  by_cases blank : c = space
  · subst blank
    have split : piecesOf (space::rest) = some ⟨0,[]⟩ :: pieces true false 1 [] rest := by
      simp [piecesOf,pieces]
    obtain ⟨more,shape⟩ := pieces_shape true false 1 [] rest fun _ => rfl
    have flags : rest.foldl scanStep (true,false) = (space::rest).foldl scanStep (false,false) := rfl
    rw [flags,scan_flags] at shape
    simp only [decide_eq_true_eq] at shape
    refine ⟨more,?_,by rw [split,shape]; simp⟩
    intro piece member
    have inside : some piece ∈ pieces true false 1 [] rest := by simp [shape,member]
    exact pieces_nonempty (Or.inl rfl) inside
  · have begun : piecesOf (c::rest) = pieces false (false != (c == quotation)) 0 [c] rest := by
      simp [piecesOf,pieces,blank]
    obtain ⟨more,shape⟩ := piecesOf_shape (c::rest)
    refine ⟨more,?_,by rw [shape]; simp [blank]⟩
    intro piece member
    have inside : some piece ∈ pieces false (false != (c == quotation)) 0 [c] rest := by
      rw [← begun,shape]
      simp [member]
    exact pieces_nonempty (Or.inr (by simp)) inside

def argumentsOf (text : List UInt8) : List (List UInt8) := (piecesOf text).filterMap fun slot => slot.map Piece.text

end BorealOS.Utility
