import ComputedFields.Text

/-!
# `ComputedFields.Table` — finite maps from names

A table lists its entries in the order of their names' bytes, each name once. Values hold tables, so
that this order is no part of the type; `sorted_insert` and `sorted_ofList` say that the operations
keep it. What `find?` says after `insert` needs no such assumption: the name inserted is found, and
every other name is found as before.
-/

namespace ComputedFields

/-- Things by name, in the order of the names' bytes. -/
abbrev Table (α : Type) := List (Text × α)

namespace Table

variable {α : Type}

/-- What a name stands for. -/
def find? (name : Text) : Table α → Option α
  | [] => none
  | (key, a) :: rest => if key = name then some a else find? name rest

/-- The table with `name` standing for `a`. -/
def insert (name : Text) (a : α) : Table α → Table α
  | [] => [(name, a)]
  | (key, b) :: rest =>
    if key = name then (name, a) :: rest
    else if name < key then (name, a) :: (key, b) :: rest
    else (key, b) :: insert name a rest

/-- The table without `name`. -/
def erase (name : Text) (table : Table α) : Table α := table.filter fun (key, _) => key != name

/-- The table with further entries, given in any order; of two entries of one name the later one
counts. -/
def insertAll (entries : List (Text × α)) (table : Table α) : Table α :=
  entries.foldl (fun table (name, a) => insert name a table) table

/-- The table of a list in any order. -/
def ofList (entries : List (Text × α)) : Table α := insertAll entries []

/-- The names of a table. -/
def names (table : Table α) : List Text := table.map (·.1)

@[simp] theorem find?_insert_self (name : Text) (a : α) (table : Table α) :
    find? name (insert name a table) = some a := by
  induction table with
  | nil => simp [insert, find?]
  | cons entry rest ih =>
    obtain ⟨key, b⟩ := entry
    by_cases h : key = name
    · simp [insert, find?, h]
    · by_cases lt : name < key <;> simp [insert, find?, h, lt, ih]

@[simp] theorem find?_insert_of_ne {name other : Text} (h : other ≠ name) (a : α)
    (table : Table α) : find? other (insert name a table) = find? other table := by
  induction table with
  | nil => simp [insert, find?, Ne.symm h]
  | cons entry rest ih =>
    obtain ⟨key, b⟩ := entry
    by_cases same : key = name
    · subst same
      simp [insert, find?, Ne.symm h]
    · by_cases lt : name < key
      · simp [insert, find?, same, lt, Ne.symm h]
      · simp [insert, find?, same, lt, ih]

/-! ## Many entries at once -/

theorem insertAll_append (entries others : List (Text × α)) (table : Table α) :
    insertAll (entries ++ others) table = insertAll others (insertAll entries table) :=
  List.foldl_append

theorem find?_insertAll_of_notMem {name : Text} {entries : List (Text × α)}
    (h : name ∉ entries.map (·.1)) (table : Table α) :
    find? name (insertAll entries table) = find? name table := by
  induction entries generalizing table with
  | nil => rfl
  | cons entry rest ih =>
    simp only [List.map_cons, List.mem_cons, not_or] at h
    exact (ih h.2 _).trans (find?_insert_of_ne h.1 _ _)

theorem find?_insertAll_of_mem {name : Text} {a : α} {entries : List (Text × α)}
    (distinct : (entries.map (·.1)).Nodup) (h : (name, a) ∈ entries) (table : Table α) :
    find? name (insertAll entries table) = some a := by
  induction entries generalizing table with
  | nil => simp at h
  | cons entry rest ih =>
    simp only [List.map_cons, List.nodup_cons] at distinct
    rcases List.mem_cons.mp h with rfl | h
    · exact (find?_insertAll_of_notMem distinct.1 _).trans (find?_insert_self _ _ _)
    · exact ih distinct.2 h _

theorem find?_ofList_of_mem {name : Text} {a : α} {entries : List (Text × α)}
    (distinct : (entries.map (·.1)).Nodup) (h : (name, a) ∈ entries) :
    find? name (ofList entries) = some a :=
  find?_insertAll_of_mem distinct h []

theorem names_insert {name : Text} {a : α} {table : Table α} (fresh : name ∉ names table) :
    (names (insert name a table)).Perm (name :: names table) := by
  induction table with
  | nil => exact .refl _
  | cons head rest ih =>
    obtain ⟨key, b⟩ := head
    simp only [names, List.map_cons, List.mem_cons, not_or] at fresh
    by_cases lt : name < key
    · simp [insert, Ne.symm fresh.1, lt, names]
    · simp only [insert, Ne.symm fresh.1, lt, if_false]
      exact ((ih fresh.2).cons key).trans (.swap name key _)

theorem names_insertAll {entries : List (Text × α)} {table : Table α}
    (distinct : (entries.map (·.1) ++ names table).Nodup) :
    (names (insertAll entries table)).Perm (entries.map (·.1) ++ names table) := by
  induction entries generalizing table with
  | nil => exact .refl _
  | cons entry rest ih =>
    obtain ⟨name, a⟩ := entry
    simp only [List.map_cons, List.cons_append, List.nodup_cons, List.mem_append, not_or]
      at distinct
    have step := names_insert (a := a) distinct.1.2
    have moved : (rest.map (·.1) ++ names (insert name a table)).Perm
        (name :: (rest.map (·.1) ++ names table)) :=
      (step.append_left _).trans List.perm_middle
    have nodup := moved.nodup_iff.mpr
      (List.nodup_cons.mpr ⟨by simpa using distinct.1, distinct.2⟩)
    exact (ih nodup).trans moved

theorem names_ofList {entries : List (Text × α)} (distinct : (entries.map (·.1)).Nodup) :
    (names (ofList entries)).Perm (entries.map (·.1)) := by
  simpa [names, ofList] using @names_insertAll α entries [] (by simpa [names] using distinct)

/-! ## The order of the entries -/

/-- The names are in strictly increasing order, so that no name occurs twice. -/
def Sorted (table : Table α) : Prop := table.Pairwise fun a b => a.1 < b.1

theorem mem_insert {name : Text} {a : α} {table : Table α} {entry : Text × α}
    (h : entry ∈ insert name a table) : entry = (name, a) ∨ entry ∈ table := by
  induction table with
  | nil => exact .inl (List.mem_singleton.mp h)
  | cons head rest ih =>
    obtain ⟨key, b⟩ := head
    by_cases same : key = name
    · simp only [insert, same, if_true, List.mem_cons] at h
      exact h.imp_right (List.mem_cons_of_mem _)
    · by_cases lt : name < key
      · simpa [insert, same, lt] using h
      · simp only [insert, same, lt, if_false, List.mem_cons] at h
        rcases h with h | h
        · exact .inr (List.mem_cons.mpr (.inl h))
        · exact (ih h).imp_right (List.mem_cons_of_mem _)

theorem sorted_insert {name : Text} {a : α} {table : Table α} (sorted : Sorted table) :
    Sorted (insert name a table) := by
  induction table with
  | nil => exact List.pairwise_singleton _ _
  | cons head rest ih =>
    obtain ⟨key, b⟩ := head
    obtain ⟨first, tail⟩ := List.pairwise_cons.mp sorted
    by_cases same : key = name
    · subst same
      simpa [insert, Sorted] using sorted
    · by_cases lt : name < key
      · simp only [insert, same, lt, if_true, if_false]
        refine List.pairwise_cons.mpr ⟨fun entry h => ?_, sorted⟩
        rcases List.mem_cons.mp h with rfl | h
        · exact lt
        · exact List.lt_trans lt (first entry h)
      · simp only [insert, same, lt, if_false]
        refine List.pairwise_cons.mpr ⟨fun entry h => ?_, ih tail⟩
        rcases mem_insert h with rfl | h
        · exact Classical.byContradiction fun not =>
            same (List.le_antisymm (List.not_lt.mp lt) (List.not_lt.mp not))
        · exact first entry h

theorem sorted_insertAll {table : Table α} (sorted : Sorted table) (entries : List (Text × α)) :
    Sorted (insertAll entries table) := by
  induction entries generalizing table with
  | nil => exact sorted
  | cons entry rest ih => exact ih (sorted_insert sorted)

theorem sorted_ofList (entries : List (Text × α)) : Sorted (ofList entries) :=
  sorted_insertAll .nil entries

end Table

end ComputedFields
