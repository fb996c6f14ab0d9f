import Mathlib

/-! First-fit search for a run of consecutive free places, made in one pass with
the start and the length of the current run as its only memory. -/
namespace FirstFit

def Run (free : Nat → Bool) (start n : Nat) : Prop :=
  ∀ k, start ≤ k → k < start + n → free k = true

/-- `start` is the least start of a run of `n` free places below `total`. -/
structure IsFirst (free : Nat → Bool) (total start n : Nat) : Prop where
  inside : start + n ≤ total
  run : Run free start n
  least : ∀ earlier < start, ¬ Run free earlier n

def scan (free : Nat → Bool) (wanted : Nat) : (remaining place start length : Nat) → Nat × Nat
  | 0, _, start, length => (start,length)
  | remaining + 1, place, start, length =>
    if free place then
      let start := if length = 0 then place else start
      if length + 1 = wanted then (start,length + 1)
      else scan free wanted remaining (place + 1) start (length + 1)
    else scan free wanted remaining (place + 1) start 0

/-- What the pass knows on reaching `place`: the current run ends there, is
still too short, and no long enough run starts before it. -/
structure Scanning (free : Nat → Bool) (wanted place start length : Nat) : Prop where
  short : length < wanted
  fits : length ≤ place
  current : length ≠ 0 → start + length = place
  run : Run free (place - length) length
  before : ∀ earlier < place - length, ¬ Run free earlier wanted

theorem Scanning.initial (free : Nat → Bool) {wanted : Nat} (positive : 0 < wanted) :
    Scanning free wanted 0 0 0 where
  short := positive
  fits := Nat.le_refl 0
  current := fun impossible => absurd rfl impossible
  run := fun k low high => by omega
  before := fun earlier bound => by omega

private theorem run_extend {free : Nat → Bool} {place length : Nat} (fits : length ≤ place)
    (run : Run free (place - length) length) (here : free place = true) :
    Run free (place - length) (length + 1) := by
  intro k low high
  by_cases last : k = place
  · rw [last]; exact here
  · exact run k low (by omega)

theorem Scanning.first_eq {free : Nat → Bool} {wanted place start length : Nat}
    (state : Scanning free wanted place start length) : (if length = 0 then place else start) = place - length := by
  split
  · omega
  · rename_i running
    have := state.current running
    omega

theorem Scanning.free_step {free : Nat → Bool} {wanted place start length : Nat}
    (state : Scanning free wanted place start length) (here : free place = true)
    (more : length + 1 ≠ wanted) :
    Scanning free wanted (place + 1) (if length = 0 then place else start) (length + 1) where
  short := by have := state.short; omega
  fits := by have := state.fits; omega
  current := by
    intro _
    rw [state.first_eq]
    have := state.fits
    omega
  run := by
    have same : place + 1 - (length + 1) = place - length := by omega
    rw [same]
    exact run_extend state.fits state.run here
  before := by
    intro earlier bound
    exact state.before earlier (by omega)

/-- A place that is not free ends every run that reaches it, so no run of the
wanted length starts at or before it. -/
theorem Scanning.taken_step {free : Nat → Bool} {wanted place start length : Nat}
    (state : Scanning free wanted place start length) (here : free place = false) :
    Scanning free wanted (place + 1) start 0 where
  short := by have := state.short; omega
  fits := by omega
  current := fun impossible => absurd rfl impossible
  run := fun k low high => by omega
  before := by
    intro earlier bound run
    by_cases old : earlier < place - length
    · exact state.before earlier old run
    · have reach := run place (by omega) (by have := state.short; omega)
      simp [here] at reach

theorem Scanning.found {free : Nat → Bool} {wanted place start length : Nat}
    (state : Scanning free wanted place start length) (here : free place = true)
    (enough : length + 1 = wanted) :
    IsFirst free (place + 1) (if length = 0 then place else start) wanted := by
  rw [state.first_eq,← enough]
  refine ⟨by have := state.fits; omega,run_extend state.fits state.run here,?_⟩
  rw [enough]
  exact state.before

theorem scan_outcome {free : Nat → Bool} {wanted : Nat} (remaining place start length : Nat)
    (state : Scanning free wanted place start length) :
    ((scan free wanted remaining place start length).2 = wanted ∧
      IsFirst free (place + remaining) (scan free wanted remaining place start length).1 wanted) ∨
    ((scan free wanted remaining place start length).2 < wanted ∧
      ∀ first, first + wanted ≤ place + remaining → ¬ Run free first wanted) := by
  induction remaining generalizing place start length with
  | zero =>
    refine Or.inr ⟨state.short,?_⟩
    intro first inside
    exact state.before first (by have := state.short; have := state.fits; omega)
  | succ remaining ih =>
    have total : place + (remaining + 1) = place + 1 + remaining := by omega
    rw [total,scan]
    cases here : free place with
    | false => simpa using ih _ _ _ (state.taken_step here)
    | true =>
      simp only [if_true]
      split
      · rename_i enough
        have found := state.found here enough
        exact Or.inl ⟨enough,⟨Nat.le_trans found.inside (by omega),found.run,found.least⟩⟩
      · rename_i more
        exact ih _ _ _ (state.free_step here more)

theorem scan_spec (free : Nat → Bool) {wanted : Nat} (positive : 0 < wanted) (total : Nat) :
    ((scan free wanted total 0 0 0).2 = wanted ∧
      IsFirst free total (scan free wanted total 0 0 0).1 wanted) ∨
    ((scan free wanted total 0 0 0).2 < wanted ∧
      ∀ first, first + wanted ≤ total → ¬ Run free first wanted) := by
  have outcome := scan_outcome total 0 0 0 (Scanning.initial free positive)
  simpa only [Nat.zero_add] using outcome

end FirstFit
