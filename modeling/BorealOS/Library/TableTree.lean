import Mathlib

/-! Multi-level tables in one flat store. A table is a frame of the store and an
entry may point to a table one level below; which entries do is given by
`child`. Tables are addressed by their path of indices from the root, and the
rules say how writing one entry changes the tables at all paths. -/
namespace TableTree

variable {F I E : Type} (child : Nat → E → Option F)

/-- The table at a path below `table`, a table of the given level. -/
def tableAt (store : F → I → E) : (level : Nat) → (table : F) → List I → Option F
  | _, table, [] => some table
  | level, table, index :: path =>
    (child level (store table index)).bind fun next => tableAt store (level - 1) next path

theorem tableAt_append (store : F → I → E) (level : Nat) (table : F) (path rest : List I) :
    tableAt child store level table (path ++ rest) =
      (tableAt child store level table path).bind fun reached =>
        tableAt child store (level - path.length) reached rest := by
  induction path generalizing level table with
  | nil => simp [tableAt]
  | cons index path ih =>
    simp only [List.cons_append,tableAt,Option.bind_assoc,List.length_cons]
    congr 1
    funext next
    rw [ih,Nat.sub_sub,Nat.add_comm 1]

theorem tableAt_cons_after {store : F → I → E} {level : Nat} {root table : F} {path : List I}
    (here : tableAt child store level root path = some table) (index : I) (rest : List I) :
    tableAt child store level root (path ++ index :: rest) =
      (child (level - path.length) (store table index)).bind fun next =>
        tableAt child store (level - path.length - 1) next rest := by
  rw [tableAt_append,here]
  rfl

theorem tableAt_snoc {store : F → I → E} {level : Nat} {root table : F} {path : List I}
    (here : tableAt child store level root path = some table) (index : I) :
    tableAt child store level root (path ++ [index]) = child (level - path.length) (store table index) := by
  rw [tableAt_cons_after child here]
  simp [tableAt]

theorem tableAt_parent {store : F → I → E} {level : Nat} {root table : F} {path : List I} {index : I}
    (here : tableAt child store level root (path ++ [index]) = some table) :
    ∃ parent, tableAt child store level root path = some parent ∧
      child (level - path.length) (store parent index) = some table := by
  cases above : tableAt child store level root path with
  | none => simp [tableAt_append,above] at here
  | some parent => exact ⟨parent,rfl,by rw [← tableAt_snoc child above index]; exact here⟩

theorem tableAt_isSome_above {store : F → I → E} {level : Nat} {root : F} {path longer : List I}
    (before : path <+: longer) (reached : (tableAt child store level root longer).isSome) :
    (tableAt child store level root path).isSome := by
  obtain ⟨rest,rfl⟩ := before
  rw [tableAt_append] at reached
  cases above : tableAt child store level root path with
  | none => simp [above] at reached
  | some table => rfl

theorem tableAt_congr (store store' : F → I → E) (level : Nat) (root : F) (path : List I)
    (agree : ∀ before index table, before ++ [index] <+: path →
      tableAt child store level root before = some table → store' table index = store table index) :
    tableAt child store' level root path = tableAt child store level root path := by
  induction path generalizing level root with
  | nil => rfl
  | cons index path ih =>
    have first : store' root index = store root index :=
      agree [] index root ⟨path,rfl⟩ rfl
    simp only [tableAt,first]
    cases down : child level (store root index) with
    | none => rfl
    | some next =>
      simp only [Option.bind_some]
      apply ih
      intro before later table inside reached
      refine agree (index::before) later table ?_ (by simp [tableAt,down,reached])
      rw [List.cons_append]
      exact List.cons_prefix_cons.mpr ⟨rfl,inside⟩

section Fill
variable [DecidableEq F]

def fill (store : F → I → E) (table : F) (entry : E) : F → I → E :=
  fun frame i => if frame = table then entry else store frame i

@[simp] theorem fill_here (store : F → I → E) (table : F) (i : I) (entry : E) :
    fill store table entry table i = entry := by simp [fill]

theorem fill_frame (store : F → I → E) {table other : F} (different : other ≠ table) (i : I) (entry : E) :
    fill store table entry other i = store other i := by simp [fill,different]

end Fill

/-- No table is reached along two paths. -/
def Distinct (store : F → I → E) (level : Nat) (root : F) : Prop :=
  ∀ first second table, tableAt child store level root first = some table →
    tableAt child store level root second = some table → first = second

private theorem not_prefix_self (path : List I) (index : I) : ¬ path ++ [index] <+: path := by
  intro inside
  have := inside.length_le
  simp at this

variable {child} {store : F → I → E} {level : Nat} {root : F}

theorem tableAt_fill [DecidableEq F] {fresh : F} (unused : ∀ path, tableAt child store level root path ≠ some fresh)
    (entry : E) (path : List I) :
    tableAt child (fill store fresh entry) level root path = tableAt child store level root path := by
  apply tableAt_congr
  intro before index table _ reached
  apply fill_frame
  rintro rfl
  exact unused before reached

theorem Distinct.congr {store' : F → I → E} (distinct : Distinct child store level root)
    (same : tableAt child store' level root = tableAt child store level root) :
    Distinct child store' level root := by
  intro first second table left right
  rw [same] at left right
  exact distinct first second table left right

theorem Distinct.link [DecidableEq I] {store' : F → I → E} {path : List I} {fresh : F}
    (distinct : Distinct child store level root)
    (unused : ∀ path, tableAt child store level root path ≠ some fresh)
    (linked : tableAt child store' level root =
      Function.update (tableAt child store level root) path (some fresh)) :
    Distinct child store' level root := by
  intro first second table left right
  rw [linked,Function.update_apply] at left right
  split at left <;> split at right
  · rename_i here there
    rw [here,there]
  · cases left
    exact absurd right (unused second)
  · cases right
    exact absurd left (unused first)
  · exact distinct first second table left right

theorem Distinct.unlink [DecidableEq I] {store' : F → I → E} {path : List I} (distinct : Distinct child store level root)
    (unlinked : tableAt child store' level root =
      Function.update (tableAt child store level root) path none) :
    Distinct child store' level root := by
  intro first second table left right
  rw [unlinked,Function.update_apply] at left right
  split at left
  · cases left
  · split at right
    · cases right
    · exact distinct first second table left right

section Write
variable [DecidableEq F] [DecidableEq I]

def write (store : F → I → E) (table : F) (index : I) (entry : E) : F → I → E :=
  fun frame i => if frame = table ∧ i = index then entry else store frame i

@[simp] theorem write_here (store : F → I → E) (table : F) (index : I) (entry : E) :
    write store table index entry table index = entry := by simp [write]

theorem write_frame (store : F → I → E) {table other : F} (different : other ≠ table) (index i : I) (entry : E) :
    write store table index entry other i = store other i := by simp [write,different]

theorem write_index (store : F → I → E) (table : F) {index i : I} (different : i ≠ index) (entry : E)
    (frame : F) : write store table index entry frame i = store frame i := by simp [write,different]

theorem tableAt_write_apart (distinct : Distinct child store level root) {path other : List I} {table : F}
    {index : I} (here : tableAt child store level root path = some table)
    (apart : ¬ path ++ [index] <+: other) (entry : E) :
    tableAt child (write store table index entry) level root other =
      tableAt child store level root other := by
  apply tableAt_congr
  intro before i reachedTable inside reached
  simp only [write,ite_eq_right_iff]
  rintro ⟨sameTable,sameIndex⟩
  subst sameTable sameIndex
  rw [distinct before path _ reached here] at inside
  exact absurd inside apart

/-- The table rule. One entry is replaced, where neither the old nor the new
entry leads to a table with tables below it: the new entry decides the table at
its own path and nothing else changes. -/
theorem tableAt_write (distinct : Distinct child store level root) {path : List I} {table : F}
    (here : tableAt child store level root path = some table) (index : I) (entry : E)
    (oldLeaf : ∀ old, child (level - path.length) (store table index) = some old →
      ∀ i, child (level - path.length - 1) (store old i) = none)
    (newLeaf : ∀ new, child (level - path.length) entry = some new →
      ∀ i, child (level - path.length - 1) (write store table index entry new i) = none) :
    tableAt child (write store table index entry) level root =
      Function.update (tableAt child store level root) (path ++ [index])
        (child (level - path.length) entry) := by
  have kept : tableAt child (write store table index entry) level root path = some table := by
    rw [tableAt_write_apart distinct here (not_prefix_self path index),here]
  funext other
  by_cases below : path ++ [index] <+: other
  · obtain ⟨rest,rfl⟩ := below
    have regroup : path ++ [index] ++ rest = path ++ index :: rest := by simp
    cases rest with
    | nil => rw [List.append_nil,Function.update_self,tableAt_snoc child kept,write_here]
    | cons next rest =>
      have longer : path ++ [index] ++ next :: rest ≠ path ++ [index] := by simp
      rw [Function.update_of_ne longer,regroup,tableAt_cons_after child kept,
        tableAt_cons_after child here,write_here]
      have old : ((child (level - path.length) (store table index)).bind fun reached =>
          tableAt child store (level - path.length - 1) reached (next::rest)) = none := by
        cases down : child (level - path.length) (store table index) with
        | none => rfl
        | some reached => simp [tableAt,oldLeaf reached down next]
      have new : ((child (level - path.length) entry).bind fun reached =>
          tableAt child (write store table index entry) (level - path.length - 1) reached (next::rest)) = none := by
        cases down : child (level - path.length) entry with
        | none => rfl
        | some reached => simp [tableAt,newLeaf reached down next]
      rw [old,new]
  · have different : other ≠ path ++ [index] := fun same => below (same ▸ List.prefix_refl _)
    rw [Function.update_of_ne different,tableAt_write_apart distinct here below]

theorem write_at (distinct : Distinct child store level root) {path other : List I} {table reached : F}
    {index i : I} (here : tableAt child store level root path = some table)
    (there : tableAt child store level root other = some reached) (entry : E) :
    write store table index entry reached i =
      if other = path ∧ i = index then entry else store reached i := by
  by_cases same : other = path
  · subst same
    have equal : reached = table := Option.some.inj (there.symm.trans here)
    simp [write,equal]
  · have different : reached ≠ table := fun equal => same (distinct other path _ there (equal ▸ here))
    simp [write,different,same]

end Write

/-! Copies of a tree. -/

section Mirror
variable (child : Nat → E → Option F) (leaf link : E → E → Prop)

/-- The copy of an entry of a table of some level: an entry that leads to no table
has a copy that leads to none and is related to it as a leaf, and one that leads to a
table has a copy, related to it as a link, that leads to a table of `own` whose entries
are copies. -/
def Mirror (source store : F → I → E) (own : F → Prop) : (level : Nat) → (entry copy : E) → Prop
  | 0, _, _ => False
  | level + 1, entry, copy =>
    (child (level + 1) entry = none ∧ child (level + 1) copy = none ∧ leaf entry copy) ∨
    ∃ original table, child (level + 1) entry = some original ∧ child (level + 1) copy = some table ∧ link entry copy ∧
      own table ∧ ∀ i, Mirror source store own level (source original i) (store table i)

variable {child leaf link} {source store : F → I → E} {own : F → Prop}

theorem Mirror.transfer {store' : F → I → E} {own' : F → Prop} {level : Nat} {entry copy : E}
    (mirror : Mirror child leaf link source store own level entry copy)
    (kept : ∀ frame, own frame → own' frame ∧ ∀ i, store' frame i = store frame i) :
    Mirror child leaf link source store' own' level entry copy := by
  induction level generalizing entry copy with
  | zero => exact mirror
  | succ level ih =>
    rcases mirror with ends | ⟨original,table,down,copied,linked,owned,below⟩
    · exact Or.inl ends
    · obtain ⟨still,same⟩ := kept table owned
      refine Or.inr ⟨original,table,down,copied,linked,still,?_⟩
      intro i
      rw [same i]
      exact ih (below i)

theorem Mirror.mono {leaf' : E → E → Prop} (weaker : ∀ entry copy, leaf entry copy → leaf' entry copy) {level : Nat}
    {entry copy : E} (mirror : Mirror child leaf link source store own level entry copy) :
    Mirror child leaf' link source store own level entry copy := by
  induction level generalizing entry copy with
  | zero => exact mirror
  | succ level ih =>
    rcases mirror with ⟨ends,copied,same⟩ | ⟨original,table,down,copied,linked,owned,below⟩
    · exact Or.inl ⟨ends,copied,weaker entry copy same⟩
    · exact Or.inr ⟨original,table,down,copied,linked,owned,fun i => ih (below i)⟩

/-- Every table of the copy stands where the source has a table, and its entries are
copies of the entries there. -/
theorem Mirror.tableAt_source {level : Nat} {original table copy : F}
    (mirror : ∀ i, Mirror child leaf link source store own level (source original i) (store table i)) {path : List I}
    (here : tableAt child store level table path = some copy) :
    (path ≠ [] → own copy) ∧ ∃ found, tableAt child source level original path = some found ∧
      ∀ i, Mirror child leaf link source store own (level - path.length) (source found i) (store copy i) := by
  induction path generalizing level original table with
  | nil =>
    cases here
    exact ⟨fun contra => absurd rfl contra,original,rfl,mirror⟩
  | cons index path ih =>
    obtain ⟨next,down,rest⟩ := Option.bind_eq_some_iff.mp here
    have first := mirror index
    cases level with
    | zero => exact first.elim
    | succ level =>
      rcases first with ⟨_,ends,_⟩ | ⟨below,fresh,leads,copied,_,owned,deeper⟩
      · rw [down] at ends
        cases ends
      · have same : next = fresh := Option.some.inj (down.symm.trans copied)
        obtain ⟨inside,found,there,entries⟩ := ih deeper (same ▸ rest)
        refine ⟨fun _ => ?_,found,?_,?_⟩
        · cases path with
          | nil =>
            cases rest
            exact same ▸ owned
          | cons other path => exact inside (List.cons_ne_nil other path)
        · exact Option.bind_eq_some_iff.mpr ⟨below,leads,there⟩
        · rw [List.length_cons,Nat.add_sub_add_right]
          exact entries

end Mirror

/-! Copies whose tables are all different. -/

section Replica
variable (child : Nat → E → Option F) (source store : F → I → E)

/-- The path leads to a table of the source, below one of the entries `done`. -/
def Below (level : Nat) (original : F) (done : I → Prop) : List I → Prop
  | [] => False
  | index :: path => done index ∧ (tableAt child source level original (index::path)).isSome

/-- The tables below the entries `done` of a table have copies along the same paths,
all different and in a region. -/
structure Replica (level : Nat) (original table : F) (done : I → Prop) (region : F → Prop) : Prop where
  reaches : ∀ path, Below child source level original done path →
    ∃ copy, region copy ∧ tableAt child store level table path = some copy
  distinct : ∀ first second copy, Below child source level original done first →
    Below child source level original done second → tableAt child store level table first = some copy →
    tableAt child store level table second = some copy → first = second

variable {child source store} {level : Nat} {original table : F} {done : I → Prop} {region : F → Prop}

theorem replica_nothing (level : Nat) (original table : F) (none : ∀ index, ¬ done index) :
    Replica child source store level original table done region where
  reaches path below := by
    cases path with
    | nil => exact below.elim
    | cons index path => exact absurd below.1 (none index)
  distinct first second copy below := by
    cases first with
    | nil => exact below.elim
    | cons index path => exact absurd below.1 (none index)

theorem Replica.tableAt_eq {store' : F → I → E} (replica : Replica child source store level original table done region)
    (root : ∀ index, done index → store' table index = store table index)
    (kept : ∀ frame, region frame → ∀ index, store' frame index = store frame index) {path : List I}
    (below : Below child source level original done path) :
    tableAt child store' level table path = tableAt child store level table path := by
  cases path with
  | nil => exact below.elim
  | cons first path =>
    apply tableAt_congr
    intro before index reached inside here
    cases before with
    | nil =>
      cases here
      obtain ⟨rest,whole⟩ := inside
      have same : index = first := (List.cons.inj whole).1
      exact same ▸ root first below.1
    | cons head before =>
      have shorter : head :: before <+: first :: path := (List.prefix_append _ _).trans inside
      have same : head = first := (List.cons_prefix_cons.mp shorter).1
      obtain ⟨copy,inRegion,there⟩ := replica.reaches (head::before)
        ⟨same ▸ below.1,tableAt_isSome_above child shorter below.2⟩
      have equal : reached = copy := Option.some.inj (here.symm.trans there)
      exact equal ▸ kept copy inRegion index

theorem Replica.transfer {store' : F → I → E} {region' : F → Prop}
    (replica : Replica child source store level original table done region)
    (root : ∀ index, done index → store' table index = store table index)
    (kept : ∀ frame, region frame → region' frame ∧ ∀ index, store' frame index = store frame index) :
    Replica child source store' level original table done region' where
  reaches path below := by
    obtain ⟨copy,inside,here⟩ := replica.reaches path below
    refine ⟨copy,(kept copy inside).1,?_⟩
    rw [replica.tableAt_eq root (fun frame member => (kept frame member).2) below]
    exact here
  distinct first second copy left right := by
    rw [replica.tableAt_eq root (fun frame member => (kept frame member).2) left,
      replica.tableAt_eq root (fun frame member => (kept frame member).2) right]
    exact replica.distinct first second copy left right

variable {next : I}

private theorem below_or {path : List I}
    (below : Below child source level original (fun index => done index ∨ index = next) path) :
    Below child source level original done path ∨
      ∃ rest, path = next :: rest ∧ (tableAt child source level original (next::rest)).isSome := by
  cases path with
  | nil => exact below.elim
  | cons index path =>
    rcases below with ⟨member | rfl,there⟩
    · exact Or.inl ⟨member,there⟩
    · exact Or.inr ⟨path,rfl,there⟩

theorem Replica.skip (replica : Replica child source store level original table done region)
    (ends : child level (source original next) = none) :
    Replica child source store level original table (fun index => done index ∨ index = next) region := by
  have old : ∀ path, Below child source level original (fun index => done index ∨ index = next) path →
      Below child source level original done path := by
    intro path below
    rcases below_or below with before | ⟨rest,rfl,there⟩
    · exact before
    · simp [tableAt,ends] at there
  exact ⟨fun path below => replica.reaches path (old path below),
    fun first second copy left right => replica.distinct first second copy (old first left) (old second right)⟩

/-- An entry that leads to a table gets a copy outside of the region, with a replica
of its own below it. -/
theorem Replica.add {below fresh : F} {inner whole : F → Prop}
    (replica : Replica child source store level original table done region)
    (down : child level (source original next) = some below) (copied : child level (store table next) = some fresh)
    (deeper : Replica child source store (level - 1) below fresh (fun _ => True) inner)
    (new : ¬ region fresh) (apart : ∀ frame, inner frame → ¬ region frame ∧ frame ≠ fresh)
    (all : ∀ frame, region frame ∨ inner frame ∨ frame = fresh → whole frame) :
    Replica child source store level original table (fun index => done index ∨ index = next) whole := by
  have step : ∀ path, tableAt child store level table (next::path) = tableAt child store (level - 1) fresh path := by
    intro path
    simp [tableAt,copied]
  have original_step : ∀ path, (tableAt child source level original (next::path)).isSome →
      (tableAt child source (level - 1) below path).isSome := by
    intro path there
    simpa [tableAt,down] using there
  -- the copies below the new entry are the fresh table and those of its replica
  have reached : ∀ path, (tableAt child source level original (next::path)).isSome →
      ∃ copy, (inner copy ∨ copy = fresh) ∧ tableAt child store (level - 1) fresh path = some copy := by
    intro path there
    cases path with
    | nil => exact ⟨fresh,Or.inr rfl,rfl⟩
    | cons index path =>
      obtain ⟨copy,inside,here⟩ := deeper.reaches (index::path) ⟨trivial,original_step _ there⟩
      exact ⟨copy,Or.inl inside,here⟩
  have outside : ∀ copy, inner copy ∨ copy = fresh → ¬ region copy := by
    rintro copy (inside | rfl)
    · exact (apart copy inside).1
    · exact new
  have mixed : ∀ {path rest : List I} {copy : F}, Below child source level original done path →
      (tableAt child source level original (next::rest)).isSome → tableAt child store level table path = some copy →
      tableAt child store level table (next::rest) ≠ some copy := by
    intro path rest copy before there here same
    obtain ⟨found,inRegion,left⟩ := replica.reaches path before
    obtain ⟨other,inside,right⟩ := reached rest there
    rw [step rest,right] at same
    rw [left] at here
    exact outside other inside (Option.some.inj same ▸ Option.some.inj here ▸ inRegion)
  constructor
  · intro path member
    rcases below_or member with before | ⟨rest,rfl,there⟩
    · obtain ⟨copy,inRegion,here⟩ := replica.reaches path before
      exact ⟨copy,all copy (Or.inl inRegion),here⟩
    · obtain ⟨copy,inside,here⟩ := reached rest there
      exact ⟨copy,all copy (Or.inr inside),(step rest).trans here⟩
  · intro first second copy left right here also
    rcases below_or left with before | ⟨rest,rfl,there⟩
    · rcases below_or right with before' | ⟨rest',rfl,there'⟩
      · exact replica.distinct first second copy before before' here also
      · exact absurd also (mixed before there' here)
    · rcases below_or right with before' | ⟨rest',rfl,there'⟩
      · exact absurd here (mixed before' there also)
      · rw [step] at here also
        cases rest with
        | nil =>
          cases here
          cases rest' with
          | nil => rfl
          | cons index path =>
            obtain ⟨found,inside,left⟩ := deeper.reaches (index::path) ⟨trivial,original_step _ there'⟩
            exact absurd (Option.some.inj (left.symm.trans also)) (apart found inside).2
        | cons index path =>
          cases rest' with
          | nil =>
            cases also
            obtain ⟨found,inside,left⟩ := deeper.reaches (index::path) ⟨trivial,original_step _ there⟩
            exact absurd (Option.some.inj (left.symm.trans here)) (apart found inside).2
          | cons index' path' =>
            rw [deeper.distinct (index::path) (index'::path') copy ⟨trivial,original_step _ there⟩
              ⟨trivial,original_step _ there'⟩ here also]

end Replica

/-! Copies that go wrong. -/

section Astray
variable (child : Nat → E → Option F) (source store : F → I → E)

/-- Along a path on which the source has tables, the copies stand in the frames of
`own` and the last of them is the frame `lost`. -/
inductive Astray (own : F → Prop) (lost : F) : (level : Nat) → (original table : F) → I → List I → Prop
  | here {level : Nat} {original table next : F} {i : I} (down : child level (source original i) = some next)
    (copied : child level (store table i) = some lost) : Astray own lost level original table i []
  | deeper {level : Nat} {original table next copy : F} {i j : I} {path : List I}
    (down : child level (source original i) = some next) (copied : child level (store table i) = some copy)
    (owned : own copy) (rest : Astray own lost (level - 1) next copy j path) :
    Astray own lost level original table i (j::path)

variable {child source store} {own : F → Prop} {lost : F} {level : Nat} {original table : F} {i : I} {path : List I}

theorem Astray.leads (astray : Astray child source store own lost level original table i path) :
    (tableAt child source level original (i::path)).isSome ∧ tableAt child store level table (i::path) = some lost := by
  induction astray with
  | here down copied => simp [tableAt,down,copied]
  | deeper down copied owned rest ih =>
    rw [tableAt,tableAt,down,copied]
    exact ih

theorem Astray.transfer {store' : F → I → E} {own' : F → Prop}
    (astray : Astray child source store own lost level original table i path) (first : store' table i = store table i)
    (kept : ∀ frame, own frame → own' frame ∧ ∀ index, store' frame index = store frame index) :
    Astray child source store' own' lost level original table i path := by
  induction astray with
  | here down copied => exact .here down (first ▸ copied)
  | deeper down copied owned rest ih =>
    obtain ⟨still,same⟩ := kept _ owned
    exact .deeper down (first ▸ copied) still (ih (same _))

end Astray

end TableTree
