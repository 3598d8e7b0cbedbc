import NamedData.Name.Order
import NamedData.Packet.Data
import NamedData.Packet.Interest
import NamedData.Store.Error
/-!
# The index of full names

An `Index` maps full names to row ids. Its entries stand in the order of names, so the least
entry that extends a name is the first one not below that name, or there is none.

    (place e es) holds e and what es holds                       (mem_place)
    es sorted, e.name not in es → place e es sorted              (pairwise_place)
-/

namespace NamedData.Store

/-- A full name, the row it leads to, and the fingerprint of the key of the packet. -/
structure Entry where
  name : Name
  id : Int
  fingerprint : Option Digest
deriving DecidableEq

/-- Entries in the order of their names, no two of one name. -/
structure Index where
  capacity : Nat
  entries : List Entry
  sorted : entries.Pairwise fun a b => a.name < b.name
deriving DecidableEq

namespace Index

/-! ## Looking up -/

/-- An index without entries. -/
def empty (capacity : Nat) : Index := ⟨capacity, [], .nil⟩

def size (index : Index) : Nat := index.entries.length

def isFull (index : Index) : Bool := index.capacity ≤ index.size

/-- The entry of exactly this name. -/
def entry? (index : Index) (fullName : Name) : Option Entry :=
  index.entries.find? fun e => e.name = fullName

/-- The id under exactly this name. -/
def get? (index : Index) (fullName : Name) : Option Int := (index.entry? fullName).map Entry.id

def contains (index : Index) (fullName : Name) : Bool := (index.entry? fullName).isSome

/-- The entries not below a name, in order. -/
def notBelow (index : Index) (name : Name) : List Entry :=
  index.entries.dropWhile fun e => e.name < name

/-- The least entry that extends a name. -/
def find? (index : Index) (name : Name) : Option Entry :=
  (index.notBelow name).head?.filter fun e => name.isPrefixOf e.name

/-- The least entry that answers a request: under its name and, if the request asks for one
publisher, by that publisher. -/
def findInterest? (index : Index) (interest : Interest) : Option Entry :=
  match interest.publisher with
  | none => index.find? interest.name
  | some publisher =>
    ((index.notBelow interest.name).takeWhile fun e => interest.name.isPrefixOf e.name).find?
      fun e => e.fingerprint = some publisher

/-! ## Changing -/

/-- Puts an entry where its name belongs; an entry of the same name stays as it is. -/
def place (new : Entry) : List Entry → List Entry
  | [] => [new]
  | e :: rest =>
    match compare new.name e.name with
    | .lt => new :: e :: rest
    | .eq => e :: rest
    | .gt => e :: place new rest

theorem mem_place {new e : Entry} {entries : List Entry} (h : e ∈ place new entries) :
    e = new ∨ e ∈ entries := by
  induction entries with
  | nil => simpa [place] using h
  | cons x rest ih =>
    unfold place at h
    split at h
    · simpa using h
    · exact Or.inr h
    · rcases List.mem_cons.1 h with rfl | h
      · exact Or.inr List.mem_cons_self
      · rcases ih h with h | h
        · exact Or.inl h
        · exact Or.inr (List.mem_cons_of_mem _ h)

theorem pairwise_place (new : Entry) {entries : List Entry}
    (sorted : entries.Pairwise fun a b => a.name < b.name) :
    (place new entries).Pairwise fun a b => a.name < b.name := by
  induction entries with
  | nil => simp [place]
  | cons x rest ih =>
    obtain ⟨below, sorted'⟩ := List.pairwise_cons.1 sorted
    unfold place
    split
    · rename_i before
      refine List.pairwise_cons.2 ⟨fun e he => ?_, sorted⟩
      rcases List.mem_cons.1 he with rfl | he
      · exact before
      · exact Std.TransCmp.lt_trans before (below e he)
    · exact sorted
    · rename_i after
      refine List.pairwise_cons.2 ⟨fun e he => ?_, ih sorted'⟩
      rcases mem_place he with rfl | he
      · exact Std.OrientedCmp.gt_iff_lt.1 after
      · exact below e he

/-- Adds an entry. A bad id comes before a name already there, which is no error but adds
nothing, and that before a lack of room. -/
def insert (index : Index) (new : Entry) : Except IndexError (Bool × Index) :=
  if new.id ≤ 0 then .error (.invalidId new.id)
  else if index.contains new.name then .ok (false, index)
  else if index.isFull then .error (.full index.capacity)
  else .ok (true, { index with
    entries := place new index.entries, sorted := pairwise_place new index.sorted })

/-- The entry of a packet under its full name. -/
def entryOf (data : Data) (id : Int) : Entry := ⟨data.fullName, id, data.fingerprint?⟩

/-- Removes the entry of a name, and tells whether there was one. -/
def erase (index : Index) (fullName : Name) : Bool × Index :=
  (index.contains fullName, { index with
    entries := index.entries.filter fun e => e.name ≠ fullName
    sorted := index.sorted.sublist List.filter_sublist })

end Index

end NamedData.Store
