import NamedData.Store.Durable
import NamedData.Store.Memory
/-!
# Either kind of store

`Storage` is a store of one of the two kinds. A `Handle` is a store that can be closed and opened
again: one in memory starts empty every time, a durable one comes back from its table, provided
that the index has room for it.
-/

namespace NamedData.Store

/-- The kinds of store. -/
inductive Kind where
  | durable
  | memory
deriving DecidableEq, Repr

/-- A store of either kind. -/
inductive Storage where
  | memory (store : MemoryStore)
  | durable (store : DurableStore)
deriving DecidableEq

namespace Storage

/-- A store of a kind without packets. -/
def empty (kind : Kind) (capacity : Nat) : Storage :=
  match kind with
  | .memory => .memory (.empty capacity)
  | .durable => .durable ⟨.empty, .empty capacity⟩

/-- The index of the store. -/
def index : Storage → Index
  | memory store => store.index
  | durable store => store.index

def insert (storage : Storage) (data : Data) : Except Error Int × Storage :=
  match storage with
  | memory store => (store.insert data).map id .memory
  | durable store => (store.insert data).map id .durable

def erase (storage : Storage) (fullName : Name) : Except Error Bool × Storage :=
  match storage with
  | memory store => (store.erase fullName).map id .memory
  | durable store => (store.erase fullName).map id .durable

instance : Backend Storage where
  insert := insert
  erase := erase
  read
    | .memory store, name => Backend.read store name
    | .durable store, name => Backend.read store name
  has
    | .memory store, fullName => Backend.has store fullName
    | .durable store, fullName => Backend.has store fullName
  find
    | .memory store, name, mode => Backend.find store name mode
    | .durable store, name, mode => Backend.find store name mode
  size
    | .memory store => Backend.size store
    | .durable store => Backend.size store
  count
    | .memory store => Backend.count store
    | .durable store => Backend.count store
  count_erase storage fullName erased := by
    cases storage with
    | memory store => exact Backend.count_erase store fullName erased
    | durable store => exact Backend.count_erase store fullName erased

end Storage

/-- A store that is open, or a table that could not be opened. -/
inductive Handle where
  | opened (storage : Storage)
  | closed (table : Table)
deriving DecidableEq

namespace Handle

/-- The store, while it is open. -/
def storage? : Handle → Option Storage
  | opened storage => some storage
  | closed _ => none

/-- Opens a table at a capacity. -/
def ofTable (table : Table) (capacity : Nat) : Except Error Unit × Handle :=
  match DurableStore.load table capacity with
  | .ok store => (.ok (), .opened (.durable store))
  | .error cause => (.error cause, .closed table)

/-- Closes the store and opens it at a capacity. -/
def reopen (handle : Handle) (capacity : Nat) : Except Error Unit × Handle :=
  match handle with
  | opened (.memory _) => (.ok (), .opened (.memory (.empty capacity)))
  | opened (.durable store) => ofTable store.table capacity
  | closed table => ofTable table capacity

/-- Changes the table behind the back of the store, if there is a table. -/
def editTable? (handle : Handle) (edit : Table → α × Table) : Option (α × Handle) :=
  match handle with
  | opened (.memory _) => none
  | opened (.durable store) =>
    let (result, table) := edit store.table
    some (result, .opened (.durable { store with table }))
  | closed table =>
    let (result, table) := edit table
    some (result, .closed table)

end Handle

end NamedData.Store
