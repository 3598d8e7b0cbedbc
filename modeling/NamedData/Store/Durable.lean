import NamedData.Store.Backend
import NamedData.Store.Index
import NamedData.Store.Table
/-!
# A durable store

Each packet is a row: the encoding of its full name, and its bytes. An index in memory answers
whether a full name is stored; it is built from the rows that can be read when the table is
opened (`load`) and kept up by every change made through the store. Lookups by name go to the
table and skip rows that cannot be read. A lack of room is noticed before a name already stored.
-/

namespace NamedData.Store

open Tlv

/-- A table and the index of its names. -/
structure DurableStore where
  table : Table
  index : Index
deriving DecidableEq

namespace DurableStore

/-! ## Opening -/

/-- The entry of a row that can be read, name and packet both. -/
def entryOfRow? (row : Row) : Option Entry :=
  match Name.decodeValue row.name, Data.decode row.data with
  | .ok name, .ok data => some ⟨name, row.id, data.fingerprint?⟩
  | _, _ => none

/-- Adds the entries of rows to an index, in the order of the rows. -/
def indexRows (index : Index) : List Row → Except IndexError Index
  | [] => .ok index
  | row :: rest =>
    match entryOfRow? row with
    | none => indexRows index rest
    | some entry =>
      match index.insert entry with
      | .error cause => .error cause
      | .ok (_, index) => indexRows index rest

/-- The store of a table, with its index built anew. -/
def load (table : Table) (capacity : Nat) : Except Error DurableStore :=
  match indexRows (.empty capacity) table.rows with
  | .ok index => .ok ⟨table, index⟩
  | .error cause => .error (.index cause)

/-! ## Lookups -/

/-- The rows under a name that can be read as names, in order, with their names. The empty name
is under no bound. -/
def rowsUnder (table : Table) (name : Name) : List (Row × Name) :=
  let candidates :=
    if name.isEmpty then Table.byName table.rows
    else table.range name.encodeValue name.successor.encodeValue
  candidates.filterMap fun row =>
    match Name.decodeValue row.name with
    | .ok found => if name.isPrefixOf found then some (row, found) else none
    | .error _ => none

/-- The first packet under a name whose bytes can be read. -/
def read (store : DurableStore) (name : Name) : Option Data :=
  (rowsUnder store.table name).findSome? fun (row, _) => (Data.decode row.data).toOption

def find (store : DurableStore) (name : Name) (mode : Match) : Option Found :=
  match mode with
  | .exactly => (store.table.rowOfName? name.encodeValue).map fun row => ⟨row.id, name⟩
  | .extending => (rowsUnder store.table name).head?.map fun (row, found) => ⟨row.id, found⟩

/-- The packet of an id, if its bytes can be read. -/
def readById (store : DurableStore) (id : Int) : Option Data := do
  let row ← store.table.rowOfId? id
  (Data.decode row.data).toOption

/-! ## Changes -/

def insert (store : DurableStore) (data : Data) : Except Error Int × DurableStore :=
  if data.name.isEmpty then (.error .emptyName, store)
  else if store.index.isFull then (.error (.index (.full store.index.capacity)), store)
  else
    match store.table.insert? data.fullName.encodeValue data.wire with
    | none => (.error (.duplicateName data.fullName), store)
    | some (id, table) =>
      match store.index.insert (Index.entryOf data id) with
      | .error cause => (.error (.index cause), { store with table })
      | .ok (_, index) => (.ok id, ⟨table, index⟩)

/-- Removes the row whose name is the encoding of this one. The index forgets the name anyway. -/
def erase (store : DurableStore) (fullName : Name) : Except Error Bool × DurableStore :=
  let (changed, table) := store.table.eraseName fullName.encodeValue
  (.ok (0 < changed), ⟨table, (store.index.erase fullName).2⟩)

/-- Removes a row by its id. A name that cannot be read leaves the index alone. -/
def eraseById (store : DurableStore) (id : Int) : Bool × DurableStore :=
  match store.table.rowOfId? id with
  | none => (false, store)
  | some row =>
    let index := match Name.decodeValue row.name with
      | .ok fullName => (store.index.erase fullName).2
      | .error _ => store.index
    (true, ⟨store.table.eraseId id, index⟩)

instance : Backend DurableStore where
  insert := insert
  erase := erase
  read store name := .ok (store.read name)
  has store fullName := .ok (store.index.contains fullName)
  find store name mode := .ok (store.find name mode)
  size store := .ok store.table.rows.length
  count store := store.table.rows.length
  count_erase := by
    intro store name erased
    have shorter : 0 < (store.table.eraseName name.encodeValue).1 := by
      simpa [erase] using erased
    show (store.table.eraseName name.encodeValue).2.rows.length < store.table.rows.length
    unfold Table.eraseName at shorter ⊢
    simp only at shorter ⊢
    omega

end DurableStore

end NamedData.Store
