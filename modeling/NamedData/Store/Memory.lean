import NamedData.Store.Backend
import NamedData.Store.Index
/-!
# A store in memory

The bytes of the packets stand under their ids, and the index leads from full names to ids. A
name that is already stored is noticed before a lack of room.
-/

namespace NamedData.Store

/-- Packets by id, an index of their names, and the id of the next packet. -/
structure MemoryStore where
  index : Index
  rows : List (Int × Bytes)
  nextId : Int
deriving DecidableEq

namespace MemoryStore

/-- A store without packets. -/
def empty (capacity : Nat) : MemoryStore := ⟨.empty capacity, [], 1⟩

def insert (store : MemoryStore) (data : Data) : Except Error Int × MemoryStore :=
  if data.name.isEmpty then (.error .emptyName, store)
  else if store.index.contains data.fullName then (.error (.duplicateName data.fullName), store)
  else if store.index.isFull then (.error (.index (.full store.index.capacity)), store)
  else
    match store.index.insert (Index.entryOf data store.nextId) with
    | .error cause => (.error (.index cause), store)
    | .ok (_, index) =>
      (.ok store.nextId,
       { index, rows := store.rows ++ [(store.nextId, data.wire)], nextId := store.nextId + 1 })

def erase (store : MemoryStore) (fullName : Name) : Except Error Bool × MemoryStore :=
  match store.index.get? fullName with
  | none => (.ok false, store)
  | some id =>
    let kept := store.rows.filter fun row => row.1 ≠ id
    (.ok (kept.length < store.rows.length),
     { store with index := (store.index.erase fullName).2, rows := kept })

/-- The packet of an id. -/
def load (store : MemoryStore) (id : Int) : Except Error (Option Data) :=
  match store.rows.lookup id with
  | none => .ok none
  | some wire =>
    match Data.decode wire with
    | .ok data => .ok (some data)
    | .error cause => .error (.decode cause)

/-- The packet of the least full name that extends a name. -/
def read (store : MemoryStore) (name : Name) : Except Error (Option Data) :=
  match store.index.find? name with
  | none => .ok none
  | some entry => store.load entry.id

def find (store : MemoryStore) (name : Name) (mode : Match) : Option Found :=
  match mode with
  | .exactly => (store.index.get? name).map fun id => ⟨id, name⟩
  | .extending => (store.index.find? name).map fun entry => ⟨entry.id, entry.name⟩

instance : Backend MemoryStore where
  insert := insert
  erase := erase
  read := read
  has store fullName := .ok (store.index.contains fullName)
  find store name mode := .ok (store.find name mode)
  size store := .ok store.rows.length
  count store := store.rows.length
  count_erase := by
    intro store name erased
    unfold erase at erased ⊢
    split <;> simp_all

end MemoryStore

end NamedData.Store
