import BorealOS.Library.Occurrence
import BorealOS.Utility.StringView

/-! `strstr`: nested loops over two strings with terminators. The inner one stops at the
first difference or at a terminator, so it has come to the end of the needle exactly if
the needle begins there. -/
namespace BorealOS.Utility

open ByteObject Occurrence

/-- The inner loop of `strstr`. Its pointers `h` and `n` move on together, so one index
stands for both; each round reads a further byte, so the bytes of `h` bound the rounds. -/
def matchLoop (h n : Pointer) : (rounds i : Nat) → Except Fault Nat
  | 0, _ => throw .endlessLoop
  | rounds + 1, i => do
    if (← h.read i) ≠ 0 then
      if (← n.read i) ≠ 0 then
        if (← h.read i) = (← n.read i) then return ← matchLoop h n rounds (i + 1)
    return i

def strstrLoop (haystack needle : Pointer) : (rounds i : Nat) → Except Fault (Option Pointer)
  | 0, _ => throw .endlessLoop
  | rounds + 1, i => do
    if (← haystack.read i) = 0 then return none
    if (← haystack.read i) = (← needle.read 0) then
      let n ← matchLoop (haystack.advance i) needle ((haystack.advance i).bytes.length + 1) 0
      if (← needle.read n) = 0 then return some (haystack.advance i)
    strstrLoop haystack needle rounds (i + 1)

def strstr (haystack needle : Pointer) : Except Fault (Option Pointer) := do
  if (← needle.read 0) = 0 then return some haystack
  strstrLoop haystack needle (haystack.bytes.length + 1) 0

theorem read_ahead {pointer : Pointer} {i : Nat} {c : UInt8} {rest : List UInt8} (ahead : pointer.bytes.drop i = c::rest) :
    pointer.read i = .ok c ∧ pointer.bytes.drop (i + 1) = rest := by
  constructor
  · apply Pointer.read_of_some
    rw [← List.head?_drop,ahead]
    rfl
  · rw [← List.drop_drop,ahead]
    rfl

/-- The loop ends at a place where the needle has its terminator exactly if the whole needle
is ahead of `h`. -/
theorem matchLoop_spec {h n : Pointer} {rounds i : Nat} {text word after behind : List UInt8} (unbroken : 0 ∉ text)
    (whole : 0 ∉ word) (ahead : h.bytes.drop i = text ++ 0::after) (needle : n.bytes.drop i = word ++ 0::behind)
    (enough : text.length < rounds) :
    ∃ k byte, matchLoop h n rounds i = .ok k ∧ n.read k = .ok byte ∧ (byte = 0 ↔ word <+: text) := by
  obtain ⟨rounds,rfl⟩ : ∃ r, rounds = r + 1 := ⟨rounds - 1,by omega⟩
  induction text generalizing i word rounds with
  | nil =>
    have ends : matchLoop h n (rounds + 1) i = .ok i := by
      simp [matchLoop,(read_ahead ahead).1]
    cases word with
    | nil => exact ⟨i,0,ends,(read_ahead needle).1,by simp⟩
    | cons d word =>
      have nonzero : d ≠ 0 := fun zero => whole (by simp [zero])
      exact ⟨i,d,ends,(read_ahead needle).1,by simp [nonzero]⟩
  | cons c text ih =>
    obtain ⟨here,more⟩ := read_ahead ahead
    have set : c ≠ 0 := fun zero => unbroken (by simp [zero])
    cases word with
    | nil =>
      obtain ⟨last,_⟩ := read_ahead needle
      refine ⟨i,0,?_,last,by simp⟩
      simp [matchLoop,here,last]
    | cons d word =>
      obtain ⟨there,rest⟩ := read_ahead needle
      have nonzero : d ≠ 0 := fun zero => whole (by simp [zero])
      by_cases same : c = d
      · subst same
        rw [List.length_cons] at enough
        obtain ⟨rounds,rfl⟩ : ∃ r, rounds = r + 1 := ⟨rounds - 1,by omega⟩
        obtain ⟨k,byte,run,read,ends⟩ := ih (fun zero => unbroken (List.mem_cons_of_mem _ zero))
          (fun zero => whole (List.mem_cons_of_mem _ zero)) more rest rounds (by omega)
        refine ⟨k,byte,?_,read,by rw [ends,List.prefix_cons_inj]⟩
        rw [matchLoop]
        simp [here,there,set,run]
      · refine ⟨i,d,?_,there,?_⟩
        · rw [matchLoop]
          simp [here,there,same]
        · simp [nonzero,List.cons_prefix_cons,Ne.symm same]

section Strings
variable {haystack needle : Pointer} {word behind : List UInt8} (ending : needle.bytes = word ++ 0::behind) (whole : 0 ∉ word)
include ending whole

/-- One round tests whether the needle begins here. -/
theorem strstrLoop_round {rounds i : Nat} {c : UInt8} {text after : List UInt8} (unbroken : 0 ∉ c::text) (some : word ≠ [])
    (ahead : haystack.bytes.drop i = (c::text) ++ 0::after) : strstrLoop haystack needle (rounds + 1) i =
      if word <+: c::text then .ok (Option.some (haystack.advance i)) else strstrLoop haystack needle rounds (i + 1) := by
  obtain ⟨d,rest,rfl⟩ := List.exists_cons_of_ne_nil some
  have here := (read_ahead ahead).1
  have start : needle.bytes.drop 0 = (d::rest) ++ 0::behind := ending
  have first := (read_ahead start).1
  have set : c ≠ 0 := fun zero => unbroken (by simp [zero])
  have bytes : ((haystack.advance i).bytes.drop 0) = (c::text) ++ 0::after := by
    rw [List.drop_zero,Pointer.bytes_advance,ahead]
  rw [strstrLoop]
  simp only [here,first,ok_bind,if_neg set]
  by_cases same : c = d
  · have enough : (c::text).length < (haystack.advance i).bytes.length + 1 := by
      rw [Pointer.bytes_advance,ahead,List.length_append]
      omega
    obtain ⟨k,byte,run,read,ends⟩ := matchLoop_spec unbroken whole bytes start enough
    simp only [if_pos same,run,read,ok_bind,ends]
    split <;> rfl
  · have apart : ¬ d::rest <+: c::text := fun begins => same (List.cons_prefix_cons.mp begins).1.symm
    rw [if_neg same,if_neg apart]

theorem strstrLoop_spec {rounds i : Nat} {text after : List UInt8} (unbroken : 0 ∉ text) (some : word ≠ [])
    (ahead : haystack.bytes.drop i = text ++ 0::after) (enough : text.length < rounds) :
    (∃ j, IsFirst word text j ∧ strstrLoop haystack needle rounds i = .ok (Option.some (haystack.advance (i + j)))) ∨
    ((∀ j, ¬ Occurs word text j) ∧ strstrLoop haystack needle rounds i = .ok none) := by
  obtain ⟨rounds,rfl⟩ : ∃ r, rounds = r + 1 := ⟨rounds - 1,by omega⟩
  induction text generalizing i rounds with
  | nil =>
    refine Or.inr ⟨never_short (List.length_pos_iff.mpr some),?_⟩
    simp [strstrLoop,(read_ahead ahead).1]
  | cons c text ih =>
    rw [strstrLoop_round ending whole unbroken some ahead]
    by_cases begins : word <+: c::text
    · rw [if_pos begins]
      exact Or.inl ⟨0,isFirst_zero begins,rfl⟩
    · rw [if_neg begins]
      rw [List.length_cons] at enough
      obtain ⟨rounds,rfl⟩ : ∃ r, rounds = r + 1 := ⟨rounds - 1,by omega⟩
      rcases ih (fun zero => unbroken (List.mem_cons_of_mem _ zero)) (read_ahead ahead).2 rounds (by omega) with
        ⟨j,first,run⟩ | ⟨never,run⟩
      · refine Or.inl ⟨j + 1,(isFirst_cons begins).mpr first,?_⟩
        rw [run,Nat.add_right_comm,Nat.add_assoc]
      · exact Or.inr ⟨never_cons begins never,run⟩

end Strings

theorem strstr_spec {haystack needle : Pointer} {text word after behind : List UInt8} (unbroken : 0 ∉ text) (whole : 0 ∉ word)
    (ahead : haystack.bytes = text ++ 0::after) (ending : needle.bytes = word ++ 0::behind) :
    (∃ j, IsFirst word text j ∧ strstr haystack needle = .ok (some (haystack.advance j))) ∨
    ((∀ j, ¬ Occurs word text j) ∧ strstr haystack needle = .ok none) := by
  cases word with
  | nil =>
    have first := (read_ahead (show needle.bytes.drop 0 = 0::behind from ending)).1
    refine Or.inl ⟨0,isFirst_zero List.nil_prefix,?_⟩
    rw [strstr,first]
    rfl
  | cons d word =>
    have first := (read_ahead (show needle.bytes.drop 0 = d::(word ++ 0::behind) from ending)).1
    have nonzero : d ≠ 0 := fun zero => whole (by simp [zero])
    have enough : text.length < haystack.bytes.length + 1 := by
      rw [ahead]
      simp
    have search := @strstrLoop_spec haystack needle _ _ ending whole _ 0 text after unbroken (by simp) ahead enough
    rw [strstr,first]
    simp only [ok_bind,if_neg nonzero]
    simpa only [Nat.zero_add] using search

/-- `strstr` returns, and it finds the leftmost occurrence of the needle if there is one. What
it returns depends on the two strings only: the objects may end with the terminators, where
a read behind them is a fault. -/
theorem strstr_finds_first (text word : List UInt8) (unbroken : 0 ∉ text) (whole : 0 ∉ word) : ∃ found : Option Nat,
    (∀ (haystack needle : Pointer) (after behind : List UInt8), haystack.bytes = text ++ 0::after →
      needle.bytes = word ++ 0::behind → strstr haystack needle = .ok (found.map haystack.advance)) ∧
    (∀ i, found = some i ↔ IsFirst word text i) ∧ (found = none ↔ ∀ i, ¬ Occurs word text i) ∧ (word = [] → found = some 0) := by
  have alone : ∀ string : List UInt8, (⟨string ++ [0],0⟩ : Pointer).bytes = string ++ 0::[] := fun _ => rfl
  rcases strstr_spec unbroken whole (alone text) (alone word) with ⟨j,first,_⟩ | ⟨never,_⟩
  · refine ⟨some j,fun haystack needle after behind ahead ending => ?_,fun i => ?_,?_,?_⟩
    · rcases strstr_spec unbroken whole ahead ending with ⟨k,also,run⟩ | ⟨never,_⟩
      · rw [run,first.unique also]
        rfl
      · exact absurd first.1 (never j)
    · rw [Option.some.injEq]
      exact ⟨fun same => same ▸ first,fun also => first.unique also⟩
    · simp only [reduceCtorEq,false_iff]
      exact fun never => never j first.1
    · rintro rfl
      exact congrArg some (first.unique (isFirst_zero List.nil_prefix))
  · refine ⟨none,fun haystack needle after behind ahead ending => ?_,fun i => ?_,?_,?_⟩
    · rcases strstr_spec unbroken whole ahead ending with ⟨k,also,_⟩ | ⟨_,run⟩
      · exact absurd also.1 (never k)
      · exact run
    · simp only [reduceCtorEq,false_iff]
      exact fun first => never i first.1
    · exact ⟨fun _ => never,fun _ => rfl⟩
    · rintro rfl
      exact absurd (occurs_zero.mpr List.nil_prefix) (never 0)

/-- The needle overlaps itself: `aab` is found behind a part of it. -/
theorem strstr_finds_overlapping : ∃ found : Option Nat,
    strstr ⟨[97,97,97,98,0],0⟩ ⟨[97,97,98,0],0⟩ = .ok (found.map (Pointer.advance ⟨[97,97,97,98,0],0⟩)) ∧
      IsFirst ([97,97,98] : List UInt8) [97,97,97,98] 1 := by
  obtain ⟨found,run,first,_⟩ := strstr_finds_first [97,97,97,98] [97,97,98] (by decide) (by decide)
  have run := run ⟨[97,97,97,98,0],0⟩ ⟨[97,97,98,0],0⟩ [] [] rfl rfl
  have place : strstr ⟨[97,97,97,98,0],0⟩ ⟨[97,97,98,0],0⟩ = .ok (some ⟨[97,97,97,98,0],1⟩) := by decide
  refine ⟨found,run,(first 1).mp ?_⟩
  rw [place,Except.ok.injEq] at run
  cases found with
  | none => cases run
  | some i =>
    rw [Option.map_some,Option.some.injEq,Pointer.advance,Pointer.mk.injEq] at run
    rw [run.2,Nat.zero_add]

end BorealOS.Utility
