import BorealOS.Utility.Arguments

/-! The two passes of `SplitArguments`. Both run the same loop, so they count alike, and
the writes of the filling pass go to slots below the count, one behind the other, and
are slices of the view one behind the other. -/
namespace BorealOS.Utility

open ByteObject StringView

/-- The slice lies in the view between two places of it. -/
structure Slice (src : StringView) (low high : Nat) (view : StringView) : Prop where
  object : view.data.object = src.data.object
  lower : src.data.offset + low ≤ view.data.offset
  upper : view.data.offset + view.size ≤ src.data.offset + high

theorem Slice.widen {src view : StringView} {low high : Nat} (slice : Slice src low high view) {lower upper : Nat}
    (below : lower ≤ low) (above : high ≤ upper) : Slice src lower upper view :=
  ⟨slice.object,by have := slice.lower; omega,by have := slice.upper; omega⟩

theorem slice_piece (src : StringView) (start : Nat) (current : List UInt8) :
    Slice src start (start + current.length) (viewOf src (some ⟨start,current⟩)) :=
  ⟨rfl,le_refl _,by simp [viewOf,Pointer.advance,Nat.add_assoc]⟩

/-- The first write comes before the second one: in the slots and in the view. -/
def Before (first second : Nat × StringView) : Prop :=
  first.1 < second.1 ∧ first.2.data.offset + first.2.size ≤ second.2.data.offset

section Pieces
variable (src : StringView)

theorem writes_placed {skipping quotes : Bool} {start count : Nat} {current rest : List UInt8} {write : Nat × StringView}
    (member : write ∈ writesFrom src count (pieces skipping quotes start current rest)) :
    count ≤ write.1 ∧ write.1 < count + (pieces skipping quotes start current rest).length ∧
      Slice src start (start + current.length + rest.length) write.2 := by
  induction rest generalizing skipping quotes start count current with
  | nil =>
    cases skipping with
    | true => simp [pieces,writesFrom] at member
    | false =>
      have only : write = (count,viewOf src (some ⟨start,current⟩)) := by simpa [pieces,writesFrom] using member
      subst only
      exact ⟨le_refl _,by simp [pieces],slice_piece src start current⟩
  | cons c rest ih =>
    have whole : start + (current ++ [c]).length + rest.length = start + current.length + (c::rest).length := by
      simp only [List.length_append,List.length_cons,List.length_nil]
      omega
    unfold pieces at member ⊢
    split at member
    · rename_i skips
      rw [if_pos skips,← whole]
      exact ih member
    · rename_i stays
      rw [if_neg stays]
      split at member
      · rename_i ends
        rw [if_pos ends,List.length_cons]
        rcases List.mem_cons.mp member with rfl | later
        · exact ⟨le_refl _,by simp,(slice_piece src start current).widen (le_refl _) (by omega)⟩
        · obtain ⟨from',below,slice⟩ := ih later
          refine ⟨by omega,by omega,slice.widen (by omega) ?_⟩
          simp only [List.length_cons,List.length_nil]
          omega
      · rename_i goes
        rw [if_neg goes,← whole]
        exact ih member

theorem writes_ordered (skipping quotes : Bool) (start count : Nat) (current rest : List UInt8) :
    (writesFrom src count (pieces skipping quotes start current rest)).Pairwise Before := by
  induction rest generalizing skipping quotes start count current with
  | nil => cases skipping <;> simp [pieces,writesFrom]
  | cons c rest ih =>
    unfold pieces
    split
    · exact ih _ _ _ _ _
    · split
      · apply List.pairwise_cons.mpr
        refine ⟨?_,ih _ _ _ _ _⟩
        -- the next argument starts behind the space that ends this one
        intro write later
        obtain ⟨index,_,slice⟩ := writes_placed src later
        have here := (slice_piece src start current).upper
        have there := slice.lower
        exact ⟨index,by dsimp only; omega⟩
      · exact ih _ _ _ _ _

end Pieces

theorem storeAll_log (done writes : List (Nat × StringView)) :
    storeAll (fun writes count argument => .ok (writes ++ [(count,argument)])) done writes = .ok (done ++ writes) := by
  induction writes generalizing done with
  | nil => simp [storeAll]
  | cons write writes ih =>
    rw [storeAll_cons,ok_bind,ih,List.append_assoc]
    rfl

theorem storeAll_room {writes : List (Nat × StringView)} (ordered : writes.Pairwise Before) (slots : List StringView)
    (room : ∀ write ∈ writes, write.1 < slots.length) :
    ∃ filled, storeAll storeArgument (some slots) writes = .ok (some filled) ∧ filled.length = slots.length ∧
      (∀ write ∈ writes, filled[write.1]? = some write.2) ∧
      ∀ i, (∀ write ∈ writes, write.1 ≠ i) → filled[i]? = slots[i]? := by
  induction writes generalizing slots with
  | nil => exact ⟨slots,rfl,rfl,by simp,fun _ _ => rfl⟩
  | cons first writes ih =>
    obtain ⟨later,ordered⟩ := List.pairwise_cons.mp ordered
    obtain ⟨here,room⟩ := List.forall_mem_cons.mp room
    obtain ⟨filled,run,length,written,others⟩ := ih ordered (slots.set first.1 first.2) (by simpa using room)
    rw [List.length_set] at length
    refine ⟨filled,?_,length,?_,?_⟩
    · rw [storeAll_cons,storeArgument,if_pos here]
      exact run
    · intro write member
      rcases List.mem_cons.mp member with rfl | member
      · have untouched := others write.1 fun other after => (later other after).1.ne'
        rw [untouched,List.getElem?_set_self here]
      · exact written write member
    · intro i elsewhere
      obtain ⟨apart,elsewhere⟩ := List.forall_mem_cons.mp elsewhere
      rw [others i elsewhere,List.getElem?_set_ne apart]

/-- The counting pass and the filling pass return the same count. The writes of the filling
pass go to slots below that count, each slot once and in order, and what they write are
slices of the view, one behind the other. An array with that many slots has room for
all of them. -/
theorem splitArguments_passes_agree {src : StringView} (readable : src.Readable) :
    ∃ count writes, splitWrites src = .ok (count,writes) ∧ splitArguments src none = .ok (count,none) ∧
      (∀ write ∈ writes, write.1 < count ∧ Slice src 0 src.size write.2) ∧ writes.Pairwise Before ∧
      (∀ slots, splitArguments src (some slots) = (do
        let out ← writes.foldlM (fun out write => storeArgument out write.1 write.2) (some slots)
        return (count,out))) ∧
      ∀ slots : List StringView, count ≤ slots.length → ∃ filled, splitArguments src (some slots) = .ok (count,some filled) ∧
        filled.length = slots.length ∧ (∀ write ∈ writes, filled[write.1]? = some write.2) ∧
        ∀ i, (∀ write ∈ writes, write.1 ≠ i) → filled[i]? = slots[i]? := by
  have length := readable.length_text
  have placed : ∀ write ∈ writesFrom src 0 (piecesOf src.text),
      write.1 < (piecesOf src.text).length ∧ Slice src 0 src.size write.2 := by
    intro write member
    obtain ⟨_,below,slice⟩ := writes_placed src member
    rw [Nat.zero_add] at below
    refine ⟨below,slice.widen (le_refl _) ?_⟩
    simp [length]
  have ordered : (writesFrom src 0 (piecesOf src.text)).Pairwise Before := writes_ordered src false false 0 0 [] src.text
  have passes : ∀ out, splitArguments src out = (do
      let out ← storeAll storeArgument out (writesFrom src 0 (piecesOf src.text))
      return ((piecesOf src.text).length,out)) := splitInto_spec readable storeArgument
  refine ⟨(piecesOf src.text).length,writesFrom src 0 (piecesOf src.text),?_,splitArguments_count readable,placed,ordered,
    fun slots => passes (some slots),?_⟩
  · rw [splitWrites,splitInto_spec readable]
    simp only [pure_eq_ok,storeAll_log,ok_bind,List.nil_append]
  · intro slots enough
    obtain ⟨filled,run,size,written,others⟩ := storeAll_room ordered slots fun write member => by
      have below := (placed write member).1
      omega
    refine ⟨filled,?_,size,written,others⟩
    rw [passes,run]
    rfl

/-- Both passes over the line `a b`. -/
theorem splitArguments_passes_two : (literal (Formatter.ascii ['a',' ','b'])).Readable ∧
    ∃ filled, splitArguments (literal (Formatter.ascii ['a',' ','b'])) (some (List.replicate 2 .blank)) = .ok (2,some filled) ∧
      filled.length = 2 := by
  have readable := readable_literal (Formatter.ascii ['a',' ','b'])
  obtain ⟨count,writes,_,counted,_,_,_,fill⟩ := splitArguments_passes_agree readable
  have two : splitArguments (literal (Formatter.ascii ['a',' ','b'])) none = .ok (2,none) := by decide
  obtain ⟨rfl,_⟩ := Prod.mk.inj (Except.ok.inj (counted.symm.trans two))
  obtain ⟨filled,run,length,_⟩ := fill (List.replicate 2 .blank) (by simp)
  exact ⟨readable,filled,run,by simpa using length⟩

end BorealOS.Utility
