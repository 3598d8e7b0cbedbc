import NamedData.Bytes
/-!
# A durable table

Rows of an id, a name and data, all names different. A new row gets an id above all that were
ever given, even to rows since removed; a refused row uses up none. Rows stand in the order of
their ids, and lookups by name go through `byName`, which orders the names as byte strings.
-/

namespace NamedData.Store

/-- One row. -/
structure Row where
  id : Int
  name : Bytes
  data : Bytes
deriving DecidableEq, Repr

/-- Rows in the order of their ids, and the last id given. -/
structure Table where
  rows : List Row
  lastId : Int
  lastId_nonneg : 0 ≤ lastId
  ids_increasing : rows.Pairwise fun a b => a.id < b.id
  ids_given : ∀ row ∈ rows, 0 < row.id ∧ row.id ≤ lastId
  names_distinct : rows.Pairwise fun a b => a.name ≠ b.name
deriving DecidableEq

namespace Table

/-- A table without rows. -/
def empty : Table := ⟨[], 0, Int.le_refl 0, .nil, by simp, .nil⟩

/-! ## Lookups -/

def rowOfId? (table : Table) (id : Int) : Option Row := table.rows.find? fun row => row.id = id

def rowOfName? (table : Table) (name : Bytes) : Option Row :=
  table.rows.find? fun row => row.name = name

/-- Rows in the byte order of their names. -/
def byName (rows : List Row) : List Row :=
  rows.mergeSort fun a b => (compare a.name b.name).isLE

/-- The rows whose names lie from `low` on and below `high`, in the order of names. -/
def range (table : Table) (low high : Bytes) : List Row :=
  byName (table.rows.filter fun row =>
    (compare low row.name).isLE && (compare row.name high).isLT)

/-! ## Changes -/

/-- Adds a row under the next id, unless its name is taken. -/
def insert? (table : Table) (name data : Bytes) : Option (Int × Table) :=
  if taken : ∃ row ∈ table.rows, row.name = name then none
  else
    let id := table.lastId + 1
    some (id,
      { rows := table.rows ++ [⟨id, name, data⟩]
        lastId := id
        lastId_nonneg := by have := table.lastId_nonneg; omega
        ids_increasing := by
          refine List.pairwise_append.2 ⟨table.ids_increasing, by simp, fun a ha b hb => ?_⟩
          have := table.ids_given a ha
          rw [List.mem_singleton.1 hb]
          show a.id < table.lastId + 1
          omega
        ids_given := by
          intro row h
          rcases List.mem_append.1 h with h | h
          · have := table.ids_given row h
            omega
          · have := table.lastId_nonneg
            rw [List.mem_singleton.1 h]
            show 0 < table.lastId + 1 ∧ table.lastId + 1 ≤ table.lastId + 1
            omega
        names_distinct := by
          refine List.pairwise_append.2 ⟨table.names_distinct, by simp, fun a ha b hb => ?_⟩
          rw [List.mem_singleton.1 hb]
          exact fun same => taken ⟨a, ha, same⟩ })

/-- Keeps the rows that pass a test. -/
def keep (table : Table) (test : Row → Bool) : Table where
  rows := table.rows.filter test
  lastId := table.lastId
  lastId_nonneg := table.lastId_nonneg
  ids_increasing := table.ids_increasing.sublist List.filter_sublist
  ids_given row h := table.ids_given row (List.mem_filter.1 h).1
  names_distinct := table.names_distinct.sublist List.filter_sublist

/-- Removes the row of a name, and gives how many rows went. -/
def eraseName (table : Table) (name : Bytes) : Nat × Table :=
  let kept := table.keep fun row => row.name ≠ name
  (table.rows.length - kept.rows.length, kept)

/-- Removes the row of an id. -/
def eraseId (table : Table) (id : Int) : Table := table.keep fun row => row.id ≠ id

/-- Puts other data into the row of a name, and gives how many rows changed. -/
def replaceData (table : Table) (name data : Bytes) : Nat × Table :=
  (table.rows.countP fun row => row.name = name,
   { rows := table.rows.map fun row => if row.name = name then { row with data } else row
     lastId := table.lastId
     lastId_nonneg := table.lastId_nonneg
     ids_increasing := by
       refine List.pairwise_map.2 (table.ids_increasing.imp fun {a b} h => ?_)
       split <;> split <;> exact h
     ids_given := by
       intro row h
       obtain ⟨before, hBefore, rfl⟩ := List.mem_map.1 h
       have := table.ids_given before hBefore
       split <;> exact this
     names_distinct := by
       refine List.pairwise_map.2 (table.names_distinct.imp fun {a b} h => ?_)
       split <;> split <;> exact h })

end Table

end NamedData.Store
