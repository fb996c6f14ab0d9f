import Mathlib

/-! Tables of locks that are taken by test-and-set and given back by a store. As long
as an owner only gives back what it took, a lock is marked exactly while one owner
has it. -/
namespace LockTable

variable {Owner Lock : Type}

/-- The marked locks are those that some owner has, no two owners have one, and none
has one twice. -/
structure Owned (locked : Lock → Bool) (held : Owner → List Lock) : Prop where
  marked : ∀ lock, locked lock = true ↔ ∃ owner, lock ∈ held owner
  alone : ∀ lock owner other, lock ∈ held owner → lock ∈ held other → owner = other
  once : ∀ owner, (held owner).Nodup

theorem owned_free (locked : Lock → Bool) (held : Owner → List Lock) (free : ∀ lock, locked lock = false)
    (none : ∀ owner, held owner = []) : Owned locked held where
  marked lock := by simp [free,none]
  alone lock owner other member := by simp [none] at member
  once owner := by simp [none]

variable [DecidableEq Owner]

private theorem mem_update (held : Owner → List Lock) (owner other : Owner) (mine : List Lock) (lock : Lock) :
    lock ∈ Function.update held owner mine other ↔ if other = owner then lock ∈ mine else lock ∈ held other := by
  by_cases same : other = owner
  · subst same
    simp
  · simp [same]

variable [DecidableEq Lock]

/-- How a step of one owner changes the marks and the locks it has, the last one taken
first. -/
inductive Effect (locked : Lock → Bool) (held : List Lock) : (Lock → Bool) → List Lock → Prop
  | keep : Effect locked held locked held
  | take (lock : Lock) (free : locked lock = false) : Effect locked held (Function.update locked lock true) (lock::held)
  | release (lock : Lock) (rest : List Lock) (last : held = lock :: rest) :
    Effect locked held (Function.update locked lock false) rest

section Owner
variable {locked : Lock → Bool} {held : Owner → List Lock} {owner : Owner} {lock : Lock} (owned : Owned locked held)
include owned

theorem Owned.take (free : locked lock = false) :
    Owned (Function.update locked lock true) (Function.update held owner (lock :: held owner)) := by
  have nobody : ∀ other, lock ∉ held other := by
    intro other member
    rw [(owned.marked lock).mpr ⟨other,member⟩] at free
    exact Bool.noConfusion free
  have taken (wanted : Lock) (other : Owner) : wanted ∈ Function.update held owner (lock :: held owner) other ↔
      wanted ∈ held other ∨ (wanted = lock ∧ other = owner) := by
    rw [mem_update]
    by_cases same : other = owner
    · subst same
      simp [or_comm]
    · simp [same]
  refine ⟨fun wanted => ?_,fun wanted first second => ?_,fun other => ?_⟩
  · simp only [taken]
    by_cases same : wanted = lock
    · subst same
      simp
    · simp [same,owned.marked wanted]
  · simp only [taken]
    rintro (has | ⟨rfl,rfl⟩) (also | ⟨new,rfl⟩)
    · exact owned.alone wanted first second has also
    · exact absurd (new ▸ has) (nobody first)
    · exact absurd also (nobody second)
    · rfl
  · by_cases same : other = owner
    · subst same
      simpa using ⟨nobody other,owned.once other⟩
    · simpa [same] using owned.once other

theorem Owned.release {rest : List Lock} (last : held owner = lock :: rest) :
    Owned (Function.update locked lock false) (Function.update held owner rest) := by
  have once := owned.once owner
  rw [last] at once
  obtain ⟨gone,once⟩ := List.nodup_cons.mp once
  have member : lock ∈ held owner := by simp [last]
  have left (wanted : Lock) (other : Owner) :
      wanted ∈ Function.update held owner rest other ↔ wanted ∈ held other ∧ wanted ≠ lock := by
    rw [mem_update]
    by_cases same : other = owner
    · subst same
      rw [if_pos rfl,last,List.mem_cons]
      constructor
      · intro inside
        exact ⟨.inr inside,fun equal => gone (equal ▸ inside)⟩
      · rintro ⟨inside,apart⟩
        exact inside.resolve_left apart
    · rw [if_neg same]
      constructor
      · intro inside
        exact ⟨inside,fun equal => same (owned.alone lock other owner (equal ▸ inside) member)⟩
      · exact And.left
  refine ⟨fun wanted => ?_,fun wanted first second => ?_,fun other => ?_⟩
  · simp only [left]
    by_cases same : wanted = lock
    · simp [same]
    · simp [same,owned.marked wanted]
  · simp only [left]
    intro has also
    exact owned.alone wanted first second has.1 also.1
  · by_cases same : other = owner
    · subst same
      simpa using once
    · simpa [same] using owned.once other

theorem Owned.effect {after : Lock → Bool} {mine : List Lock} (effect : Effect locked (held owner) after mine) :
    Owned after (Function.update held owner mine) := by
  cases effect with
  | keep => rwa [Function.update_eq_self]
  | take lock free => exact owned.take free
  | release lock rest last => exact owned.release last

end Owner

end LockTable
