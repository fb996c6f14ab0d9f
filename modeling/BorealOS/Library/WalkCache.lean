import BorealOS.Library.TableTree

/-! Caches of walks through multi-level tables. A walker reads one entry at a time,
from the root or from a table that it finds in its cache, and keeps the entries it has
read. Several parties have a cache each; one of them writes the store and removes paths
from its own cache only. A set of paths for each party says where its cache may be out of
date, and the rules say how a write and a removal change the sets. -/
namespace TableTree

variable {F I E P : Type} (child : Nat → E → Option F) (usable : E → Bool) (level : Nat) (root : F)

/-- The entries that a walk from the root reads along a path. -/
inductive Chain (store : F → I → E) : List I → List E → Prop
  | root : Chain store [] []
  | entry {path : List I} {entries : List E} {table : F} {index : I} : Chain store path entries →
    tableAt child store level root path = some table → usable (store table index) = true →
    Chain store (path ++ [index]) (entries ++ [store table index])

abbrev WalkCache (I E : Type) := List I → Option (List E)

/-- The tables from which a walk may go on. -/
inductive Known (cache : WalkCache I E) : List I → List E → F → Prop
  | root : Known cache [] [] root
  | cached {path : List I} {index : I} {entries : List E} {entry : E} {table : F} :
    cache (path ++ [index]) = some (entries ++ [entry]) → child (level - path.length) entry = some table →
    Known cache (path ++ [index]) (entries ++ [entry]) table

inductive Activity [DecidableEq I] (store : F → I → E) (cache : WalkCache I E) : WalkCache I E → Prop
  | fill {path : List I} {entries : List E} {table : F} {index : I} :
    Known child level root cache path entries table → usable (store table index) = true →
    Activity store cache (Function.update cache (path ++ [index]) (some (entries ++ [store table index])))
  | evict (path : List I) : Activity store cache (Function.update cache path none)

def WalkCache.invalidate [DecidableEq I] (cache : WalkCache I E) (path : List I) : WalkCache I E :=
  fun other => if other <+: path then none else cache other

inductive Moment (F I E : Type) where
  | store (after : F → I → E)
  | invalidate (path : List I)

section Parties
variable [DecidableEq I] [DecidableEq P]

def Working (store : F → I → E) : (P → WalkCache I E) → (P → WalkCache I E) → Prop :=
  Relation.ReflTransGen fun before after => ∃ party cache,
    Activity child usable level root store (before party) cache ∧ after = Function.update before party cache

/-- The caches while one party goes through the moments of a call. All parties may
read and evict between any two of them. -/
inductive Observes (caller : P) : (F → I → E) → (P → WalkCache I E) → List (Moment F I E) →
    (F → I → E) → (P → WalkCache I E) → Prop
  | done {store : F → I → E} {caches last : P → WalkCache I E} :
    Working child usable level root store caches last → Observes caller store caches [] store last
  | store {store after final : F → I → E} {caches middle last : P → WalkCache I E} {moments : List (Moment F I E)} :
    Working child usable level root store caches middle → Observes caller after middle moments final last →
    Observes caller store caches (.store after::moments) final last
  | invalidate {store final : F → I → E} {caches middle last : P → WalkCache I E} {path : List I}
    {moments : List (Moment F I E)} : Working child usable level root store caches middle →
    Observes caller store (Function.update middle caller ((middle caller).invalidate path)) moments final last →
    Observes caller store caches (.invalidate path::moments) final last

end Parties

/-- A write that moves no table and changes no usable entry but at the end of the paths
of `lost`. -/
structure Keeps (store after : F → I → E) (lost : Set (List I)) : Prop where
  tables : ∀ path table, tableAt child store level root path = some table →
    tableAt child after level root path = some table
  entries : ∀ path table index, tableAt child store level root path = some table →
    usable (store table index) = true → path ++ [index] ∉ lost → after table index = store table index

/-- The sets of outdated paths along the moments of a call. -/
inductive Ages [DecidableEq P] (caller : P) : (F → I → E) → (P → Set (List I)) → List (Moment F I E) →
    (F → I → E) → (P → Set (List I)) → Prop
  | done {store : F → I → E} {outdated : P → Set (List I)} : Ages caller store outdated [] store outdated
  | store {store after final : F → I → E} {outdated last : P → Set (List I)} {lost : Set (List I)}
    {moments : List (Moment F I E)} : Keeps child usable level root store after lost →
    (∀ path ∈ lost, path.length = level) →
    Ages caller after (fun party => outdated party ∪ lost) moments final last →
    Ages caller store outdated (.store after::moments) final last
  | invalidate {store final : F → I → E} {outdated last : P → Set (List I)} {path : List I}
    {moments : List (Moment F I E)} :
    Ages caller store (Function.update outdated caller (outdated caller \ {path})) moments final last →
    Ages caller store outdated (.invalidate path::moments) final last

/-- What is cached is what a walk would read, but at outdated paths, which lead to no
further table. -/
structure Sound (store : F → I → E) (outdated : Set (List I)) (cache : WalkCache I E) : Prop where
  current : ∀ path entries, cache path = some entries → Chain child usable level root store path entries ∨ path ∈ outdated
  bottom : ∀ path ∈ outdated, path.length = level

variable {child usable level root} {store after final : F → I → E} {cache next : WalkCache I E}
  {outdated lost : Set (List I)} {path : List I} {entries : List E}

theorem Chain.snoc (path : List I) {index : I} (chain : Chain child usable level root store (path ++ [index]) entries) :
    ∃ before table, entries = before ++ [store table index] ∧ Chain child usable level root store path before ∧
      tableAt child store level root path = some table ∧ usable (store table index) = true := by
  generalize whole : path ++ [index] = longer at chain
  cases chain with
  | root => simp at whole
  | entry above here set =>
    obtain ⟨rfl,same⟩ := List.append_inj' whole rfl
    cases same
    exact ⟨_,_,rfl,above,here,set⟩

theorem Chain.nil (chain : Chain child usable level root store [] entries) : entries = [] := by
  generalize whole : ([] : List I) = path at chain
  cases chain with
  | root => rfl
  | entry _ _ _ => simp at whole

/-- A write keeps the tables and the usable entries where it leaves these entries alone. -/
theorem Keeps.of_agree (leads : ∀ level entry, (child level entry).isSome → usable entry = true)
    (leaves : ∀ path ∈ lost, tableAt child store level root path = none)
    (agree : ∀ path table index, tableAt child store level root path = some table →
      usable (store table index) = true → path ++ [index] ∉ lost → after table index = store table index) :
    Keeps child usable level root store after lost where
  tables path table here := by
    rw [← here]
    apply tableAt_congr
    intro before index parent inside above
    have reached := tableAt_isSome_above child inside (by rw [here]; rfl)
    apply agree before parent index above
    · rw [tableAt_snoc child above] at reached
      exact leads _ _ reached
    · intro gone
      rw [leaves _ gone] at reached
      cases reached
  entries := agree

theorem Chain.keeps (keeps : Keeps child usable level root store after lost)
    (leaves : ∀ path ∈ lost, tableAt child store level root path = none)
    (chain : Chain child usable level root store path entries) :
    Chain child usable level root after path entries ∨ path ∈ lost := by
  induction chain with
  | root => exact Or.inl .root
  | @entry path entries table index above here set ih =>
    rcases ih with kept | gone
    · by_cases inside : path ++ [index] ∈ lost
      · exact Or.inr inside
      · have same := keeps.entries path table index here set inside
        rw [← same] at set ⊢
        exact Or.inl (.entry kept (keeps.tables path table here) set)
    · rw [leaves path gone] at here
      cases here

theorem Sound.mono {more : Set (List I)} (sound : Sound child usable level root store outdated cache)
    (larger : outdated ⊆ more) (bottom : ∀ path ∈ more, path.length = level) :
    Sound child usable level root store more cache :=
  ⟨fun path entries found => (sound.current path entries found).imp_right fun old => larger old,bottom⟩

theorem Sound.invalidate [DecidableEq I] (sound : Sound child usable level root store outdated cache) (removed : List I) :
    Sound child usable level root store (outdated \ {removed}) (cache.invalidate removed) := by
  constructor
  · intro path entries found
    rw [WalkCache.invalidate] at found
    split at found
    · cases found
    · rename_i apart
      refine (sound.current path entries found).imp_right fun old => ⟨old,?_⟩
      rintro rfl
      exact apart (List.prefix_refl _)
  · intro path old
    exact sound.bottom path old.1

section Soundness
variable (flat : ∀ entry, child 1 entry = none)
include flat

theorem tableAt_bottom (deep : path.length = level) (positive : 0 < level) :
    tableAt child store level root path = none := by
  cases there : tableAt child store level root path with
  | none => rfl
  | some table =>
    induction path using List.reverseRecOn with
    | nil =>
      simp at deep
      omega
    | append_singleton path index _ =>
      obtain ⟨parent,_,down⟩ := tableAt_parent child there
      have last : level - path.length = 1 := by
        simp at deep
        omega
      rw [last,flat] at down
      cases down

theorem Known.here (sound : Sound child usable level root store outdated cache) {table : F}
    (known : Known child level root cache path entries table) :
    Chain child usable level root store path entries ∧ tableAt child store level root path = some table := by
  cases known with
  | root => exact ⟨.root,rfl⟩
  | @cached path index entries entry table found down =>
    rcases sound.current _ _ found with chain | old
    · obtain ⟨before,parent,same,_,above,_⟩ := chain.snoc path
      obtain ⟨_,read⟩ := List.append_inj' same rfl
      cases read
      exact ⟨chain,by rw [tableAt_snoc child above,down]⟩
    · have last := sound.bottom _ old
      have one : level - path.length = 1 := by
        simp at last
        omega
      rw [one,flat] at down
      cases down

theorem Activity.sound [DecidableEq I] (sound : Sound child usable level root store outdated cache)
    (activity : Activity child usable level root store cache next) :
    Sound child usable level root store outdated next := by
  refine ⟨?_,sound.bottom⟩
  intro other read found
  cases activity with
  | @fill path entries table index known set =>
    rw [Function.update_apply] at found
    split at found
    · rename_i same
      cases found
      subst same
      obtain ⟨chain,here⟩ := known.here flat sound
      exact Or.inl (.entry chain here set)
    · exact sound.current other read found
  | evict path =>
    rw [Function.update_apply] at found
    split at found
    · cases found
    · exact sound.current other read found

theorem Sound.write (positive : 0 < level) (sound : Sound child usable level root store outdated cache)
    (keeps : Keeps child usable level root store after lost) (deep : ∀ path ∈ lost, path.length = level) :
    Sound child usable level root after (outdated ∪ lost) cache := by
  constructor
  · intro path entries found
    rcases sound.current path entries found with chain | old
    · exact (chain.keeps keeps fun path gone => tableAt_bottom flat (deep path gone) positive).imp_right Or.inr
    · exact Or.inr (Or.inl old)
  · intro path old
    exact old.elim (sound.bottom path) (deep path)

variable [DecidableEq I] [DecidableEq P] {caches last : P → WalkCache I E} {old new : P → Set (List I)} {caller : P}
  {moments : List (Moment F I E)}

theorem Working.sound (working : Working child usable level root store caches last)
    (sound : ∀ party, Sound child usable level root store (old party) (caches party)) (party : P) :
    Sound child usable level root store (old party) (last party) := by
  induction working with
  | refl => exact sound party
  | tail _ step ih =>
    obtain ⟨other,cache,activity,rfl⟩ := step
    rw [Function.update_apply]
    split
    · rename_i same
      subst same
      exact activity.sound flat ih
    · exact ih

/-- Through the moments of a call every cache stays sound for its set of outdated paths. -/
theorem Observes.sound (positive : 0 < level)
    (observes : Observes child usable level root caller store caches moments final last)
    (ages : Ages child usable level root caller store old moments final new)
    (sound : ∀ party, Sound child usable level root store (old party) (caches party)) (party : P) :
    Sound child usable level root final (new party) (last party) := by
  induction observes generalizing old with
  | done working =>
    cases ages
    exact working.sound flat sound party
  | store working _ ih =>
    cases ages with
    | store keeps deep rest => exact ih rest fun other => (working.sound flat sound other).write flat positive keeps deep
  | @invalidate store final caches middle last path moments working _ ih =>
    cases ages with
    | invalidate rest =>
      apply ih rest
      intro other
      rw [Function.update_apply,Function.update_apply]
      split
      · rename_i same
        subst same
        exact (working.sound flat sound other).invalidate path
      · exact working.sound flat sound other

end Soundness

section Filling
variable [DecidableEq I] [DecidableEq P] (party : P) (caches : P → WalkCache I E)

/-- Every walk can end in the cache, with all that it has read. -/
theorem Chain.cached (chain : Chain child usable level root store path entries) : ∃ last,
    Working child usable level root store caches last ∧ (path = [] ∨ last party path = some entries) := by
  induction chain with
  | root => exact ⟨caches,.refl,Or.inl rfl⟩
  | @entry path entries table index above here set ih =>
    obtain ⟨middle,working,found⟩ := ih
    have known : Known child level root (middle party) path entries table := by
      cases above with
      | root =>
        cases here
        exact .root
      | entry _ before _ =>
        rw [tableAt_snoc child before] at here
        exact .cached (found.resolve_left (by simp)) here
    exact ⟨_,working.tail ⟨party,_,.fill known set,rfl⟩,Or.inr (by simp)⟩

theorem Observes.working {caller : P} {middle last : P → WalkCache I E} {moments : List (Moment F I E)}
    (working : Working child usable level root store caches middle)
    (observes : Observes child usable level root caller store middle moments final last) :
    Observes child usable level root caller store caches moments final last := by
  cases observes with
  | done more => exact .done (working.trans more)
  | store more rest => exact .store (working.trans more) rest
  | invalidate more rest => exact .invalidate (working.trans more) rest

theorem Observes.stores {caller : P} (store : F → I → E) (stores : List (F → I → E)) :
    Observes child usable level root caller store caches (stores.map .store) (stores.getLastD store) caches := by
  induction stores generalizing store with
  | nil => exact .done .refl
  | cons after stores ih =>
    have rest := ih after
    rw [List.getLastD_cons]
    exact .store .refl rest

end Filling

section Composing
variable [DecidableEq P] {caller : P} {middle : F → I → E} {old between new : P → Set (List I)}
  {first second : List (Moment F I E)}

theorem Ages.append (ages : Ages child usable level root caller store old first middle between)
    (rest : Ages child usable level root caller middle between second final new) :
    Ages child usable level root caller store old (first ++ second) final new := by
  induction ages with
  | done => exact rest
  | store keeps deep _ ih => exact .store keeps deep (ih rest)
  | invalidate _ ih => exact .invalidate (ih rest)

/-- A write that loses nothing leaves the sets as they are. -/
theorem Ages.grows (keeps : Keeps child usable level root store after ∅) :
    Ages child usable level root caller store old [.store after] after old := by
  refine .store keeps (fun _ inside => absurd inside (Set.notMem_empty _)) ?_
  simp only [Set.union_empty]
  exact .done

/-- A call can always be observed: the caches may stay idle. -/
theorem Ages.observed [DecidableEq I] (ages : Ages child usable level root caller store old first final new)
    (caches : P → WalkCache I E) : ∃ last, Observes child usable level root caller store caches first final last := by
  induction ages generalizing caches with
  | done => exact ⟨caches,.done .refl⟩
  | store _ _ _ ih =>
    obtain ⟨last,observes⟩ := ih caches
    exact ⟨last,.store .refl observes⟩
  | @invalidate _ _ _ _ path _ _ ih =>
    obtain ⟨last,observes⟩ := ih (Function.update caches caller ((caches caller).invalidate path))
    exact ⟨last,.invalidate .refl observes⟩

end Composing

end TableTree
