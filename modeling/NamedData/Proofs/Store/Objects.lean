import Mathlib.Data.List.Sort
import NamedData.Proofs.Store.Interchange
import NamedData.Store.Storage
/-!
# The objects of a store

What a store of either kind holds is a list of objects: full names in their order, each with an id
and the bytes of the packet. Every operation on a store can be said as one on this list.

    Backend.find store q .extending = the first of store.under q               (find_eq)
    (store.erase n).objects = store.objects without that of n                  (erase_eq)
    (store.insert data).objects ~ the object of data and store.objects         (insert_cases)
    Reachable store → Sound store                                              (sound_of_reachable)
-/

namespace NamedData.Store

/-- Lists sorted by a key that have the same members are the same. -/
theorem eq_of_sorted_of_mem_iff {α κ : Type} [Ord κ] [Std.TransOrd κ] (key : α → κ)
    {as bs : List α} (ha : as.Pairwise fun a b => compare (key a) (key b) = .lt)
    (hb : bs.Pairwise fun a b => compare (key a) (key b) = .lt) (h : ∀ a, a ∈ as ↔ a ∈ bs) :
    as = bs := by
  have hirrefl : Std.Irrefl fun a b => compare (key a) (key b) = .lt := by
    constructor
    intro a hlt
    rw [Std.ReflOrd.compare_self] at hlt
    cases hlt
  have hantisymm : Std.Antisymm fun a b => compare (key a) (key b) = .lt := by
    constructor
    intro a b hab hba
    exact absurd (Std.TransCmp.lt_trans hab hba) (hirrefl.irrefl a)
  exact ha.eq_of_mem_iff hb h

/-! ## Objects -/

/-- What is stored under one full name. -/
structure Object where
  id : Int
  fullName : Name
  wire : Bytes
deriving DecidableEq, Repr

/-- What a lookup tells of an object. -/
def Object.found (object : Object) : Found := ⟨object.id, object.fullName⟩

/-- The objects to which the index of a store leads, in the order of their names. -/
def MemoryStore.objects (store : MemoryStore) : List Object :=
  store.index.entries.filterMap fun entry =>
    (store.rows.lookup entry.id).map fun wire => ⟨entry.id, entry.name, wire⟩

/-- The rows of a table whose names can be read, in the order of their names. -/
def DurableStore.objects (store : DurableStore) : List Object :=
  (rowsUnder store.table .empty).map fun (row, name) => ⟨row.id, name, row.data⟩

/-- The objects of a store of either kind. -/
def Storage.objects : Storage → List Object
  | memory store => store.objects
  | durable store => store.objects

/-- The objects whose full names extend a name. -/
def Storage.under (storage : Storage) (q : Name) : List Object :=
  storage.objects.filter fun object => q.isPrefixOf object.fullName

/-! ## A durable store -/

namespace DurableStore

/-- The rows under a name, picked from all rows. -/
theorem rowsUnder_eq_filter {table : Table} (canonical : table.Canonical) (q : Name) :
    rowsUnder table q = (rowsUnder table .empty).filter fun found => q.isPrefixOf found.2 := by
  apply eq_of_sorted_of_mem_iff Prod.snd (pairwise_rowsUnder canonical.legible q)
    ((pairwise_rowsUnder canonical.legible .empty).filter _)
  intro found
  have hall : Name.empty.isPrefixOf found.2 := rfl
  rw [List.mem_filter, mem_rowsUnder_iff canonical.legible, mem_rowsUnder_iff canonical.legible]
  tauto

namespace Faithful

variable {store : DurableStore}

theorem mem_objects_iff (h : store.Faithful) {object : Object} :
    object ∈ store.objects ↔ ∃ row ∈ store.table.rows, ∃ entry, row.Holds entry ∧
      object = ⟨entry.id, entry.name, row.data⟩ := by
  rw [objects, List.mem_map]
  constructor
  · rintro ⟨⟨row, name⟩, hfound, rfl⟩
    obtain ⟨hrow, named, _⟩ := (mem_rowsUnder_iff h.canonical.legible .empty).1 hfound
    obtain ⟨entry, hheld⟩ := h.held row hrow
    obtain rfl := hheld.named.eq named
    exact ⟨row, hrow, entry, hheld, by rw [hheld.id]⟩
  · rintro ⟨row, hrow, entry, hheld, rfl⟩
    refine ⟨(row, entry.name), ?_, by rw [hheld.id]⟩
    exact (mem_rowsUnder_iff h.canonical.legible .empty).2 ⟨hrow, hheld.named, rfl⟩

theorem pairwise_objects (h : store.Faithful) :
    store.objects.Pairwise fun a b => compare a.fullName b.fullName = .lt :=
  List.pairwise_map.2 (pairwise_rowsUnder h.canonical.legible .empty)

theorem nodup_objects (h : store.Faithful) : store.objects.Nodup :=
  List.Nodup.of_map Object.fullName
    (List.pairwise_map.2 (h.pairwise_objects.imp Name.ne_of_lt))

/-- No two objects have one id. -/
theorem nodup_ids (h : store.Faithful) : (store.objects.map Object.id).Nodup := by
  refine h.nodup_objects.map_on ?_
  intro a ha b hb hid
  obtain ⟨row, hrow, entry, hheld, rfl⟩ := h.mem_objects_iff.1 ha
  obtain ⟨row', hrow', entry', hheld', rfl⟩ := h.mem_objects_iff.1 hb
  obtain rfl := Table.eq_of_id_eq hrow hrow' (hheld.id.symm.trans (hid.trans hheld'.id))
  obtain rfl := Option.some.inj (hheld.entryOfRow?.symm.trans hheld'.entryOfRow?)
  rfl

/-- In memory the same objects are held. -/
theorem objects_inMemory (h : store.Faithful) : store.inMemory.objects = store.objects := by
  refine eq_of_sorted_of_mem_iff Object.fullName ?_ h.pairwise_objects fun object => ?_
  · rw [MemoryStore.objects, List.pairwise_filterMap]
    refine store.index.sorted.imp fun {a b} hlt first hfirst second hsecond => ?_
    obtain ⟨_, _, rfl⟩ := Option.map_eq_some_iff.1 hfirst
    obtain ⟨_, _, rfl⟩ := Option.map_eq_some_iff.1 hsecond
    exact hlt
  · have hlookup : ∀ {row : Row} {entry : Entry}, row ∈ store.table.rows → row.Holds entry →
        store.inMemory.rows.lookup entry.id = some row.data := by
      intro row entry hrow hheld
      rw [inMemory, lookup_map_rows, hheld.id]
      exact congrArg (Option.map Row.data) (Table.rowOfId?_eq_some hrow)
    rw [MemoryStore.objects, List.mem_filterMap, h.mem_objects_iff]
    constructor
    · rintro ⟨entry, hentry, hobject⟩
      obtain ⟨row, hrow, hheld⟩ := h.mem_entries_iff.1 hentry
      rw [hlookup hrow hheld] at hobject
      exact ⟨row, hrow, entry, hheld, (Option.some.inj hobject).symm⟩
    · rintro ⟨row, hrow, entry, hheld, rfl⟩
      refine ⟨entry, h.mem_entries_iff.2 ⟨row, hrow, hheld⟩, ?_⟩
      rw [hlookup hrow hheld]
      rfl

theorem find_extending_eq (h : store.Faithful) (q : Name) :
    store.find q .extending =
      (store.objects.filter fun object => q.isPrefixOf object.fullName).head?.map
        Object.found := by
  rw [find, rowsUnder_eq_filter h.canonical, objects, List.filter_map, List.head?_map,
    Option.map_map]
  rfl

/-- The names of the objects are those that are indexed. -/
theorem names_objects (h : store.Faithful) :
    store.objects.map Object.fullName = store.index.entries.map Entry.name := by
  apply eq_of_sorted_of_mem_iff id (List.pairwise_map.2 h.pairwise_objects)
    (List.pairwise_map.2 store.index.sorted)
  intro name
  rw [List.mem_map, List.mem_map]
  constructor
  · rintro ⟨object, hobject, rfl⟩
    obtain ⟨row, hrow, entry, hheld, rfl⟩ := h.mem_objects_iff.1 hobject
    exact ⟨entry, h.mem_entries_iff.2 ⟨row, hrow, hheld⟩, rfl⟩
  · rintro ⟨entry, hentry, rfl⟩
    obtain ⟨row, hrow, hheld⟩ := h.mem_entries_iff.1 hentry
    exact ⟨_, h.mem_objects_iff.2 ⟨row, hrow, entry, hheld, rfl⟩, rfl⟩

theorem length_objects (h : store.Faithful) : store.objects.length = store.table.rows.length := by
  have hlength := congrArg List.length h.names_objects
  rw [List.length_map, List.length_map] at hlength
  rw [hlength, h.length_rows, Index.size]

theorem contains_iff_mem (h : store.Faithful) {name : Name} :
    store.index.contains name = true ↔ name ∈ store.objects.map Object.fullName := by
  rw [h.names_objects, Index.contains_eq_true_iff, List.mem_map]

/-- The bytes of an object are a packet with the full name under which they are stored. -/
theorem packet_of_mem (h : store.Faithful) {object : Object} (hobject : object ∈ store.objects) :
    ∃ data, Data.decode object.wire = .ok data ∧ data.fullName = object.fullName := by
  obtain ⟨row, _, entry, hheld, rfl⟩ := h.mem_objects_iff.1 hobject
  obtain ⟨data, hdata, hname, _⟩ := hheld.data
  exact ⟨data, hdata, hname⟩

theorem objects_erase (h : store.Faithful) (name : Name) :
    (store.erase name).2.objects = store.objects.filter fun object => object.fullName ≠ name := by
  apply eq_of_sorted_of_mem_iff Object.fullName (h.erase name).pairwise_objects
    (h.pairwise_objects.filter _)
  intro object
  have hrows : ∀ row, row ∈ (store.erase name).2.table.rows ↔
      row ∈ store.table.rows ∧ decide (row.name ≠ name.encodeValue) := fun row => List.mem_filter
  -- the table is searched by encoded names, and those tell names apart
  have hname : ∀ {row : Row} {entry : Entry}, row.Holds entry →
      (row.name = name.encodeValue ↔ entry.name = name) := by
    intro row entry hheld
    rw [hheld.encoded, Name.encodeValue_inj hheld.fits]
  rw [(h.erase name).mem_objects_iff, List.mem_filter, h.mem_objects_iff]
  constructor
  · rintro ⟨row, hrow, entry, hheld, rfl⟩
    obtain ⟨hin, hkept⟩ := (hrows row).1 hrow
    refine ⟨⟨row, hin, entry, hheld, rfl⟩, decide_eq_true fun hsame => ?_⟩
    exact of_decide_eq_true hkept ((hname hheld).2 hsame)
  · rintro ⟨⟨row, hin, entry, hheld, rfl⟩, hkept⟩
    refine ⟨row, (hrows row).2 ⟨hin, decide_eq_true fun hsame => ?_⟩, entry, hheld, rfl⟩
    exact of_decide_eq_true hkept ((hname hheld).1 hsame)

/-- Erasing tells whether there was an object of that name. -/
theorem erase_fst_eq (h : store.Faithful) {object : Object} (hobject : object ∈ store.objects) :
    (store.erase object.fullName).1 = .ok true := by
  obtain ⟨row, hrow, entry, hheld, rfl⟩ := h.mem_objects_iff.1 hobject
  have hfewer : (store.table.rows.filter fun row => row.name ≠ entry.name.encodeValue).length <
      store.table.rows.length := by
    apply List.length_filter_lt_length_iff_exists.2
    exact ⟨row, hrow, by simpa using hheld.encoded⟩
  exact congrArg Except.ok (decide_eq_true (Nat.sub_pos_of_lt hfewer))

/-- A packet is stored as a new object, or it is refused and nothing changes; it is refused as a
duplicate only if it is there. -/
theorem insert_cases (h : store.Faithful) {data : Data} (readable : data.Readable) :
    (∃ newId after, store.insert data = (.ok newId, after) ∧ after.Faithful ∧
      store.index.contains data.fullName = false ∧
      after.objects.Perm (⟨newId, data.fullName, data.wire⟩ :: store.objects)) ∨
    ∃ cause, store.insert data = (.error cause, store) ∧
      ∀ name, cause = .duplicateName name → store.index.contains data.fullName = true := by
  rw [DurableStore.insert]
  cases data.name.isEmpty with
  | true => exact Or.inr ⟨_, rfl, by rintro _ ⟨⟩⟩
  | false =>
    cases hfull : store.index.isFull with
    | true => exact Or.inr ⟨_, rfl, by rintro _ ⟨⟩⟩
    | false =>
      cases hcontains : store.index.contains data.fullName with
      | true =>
        rw [Table.insert?, dif_pos (h.contains_iff.1 hcontains)]
        exact Or.inr ⟨_, rfl, fun _ _ => rfl⟩
      | false =>
        obtain ⟨table, index, htable, hrows, _, hindex, hafter⟩ :=
          h.grow readable hfull hcontains
        refine Or.inl
          ⟨store.table.lastId + 1, ⟨table, index⟩, by simp [htable, hindex], hafter, rfl, ?_⟩
        have hheld := Row.holds_of_readable readable (store.table.lastId + 1)
        have hnew : data.fullName ∉ store.objects.map Object.fullName := by
          rw [← h.contains_iff_mem, hcontains]
          exact Bool.false_ne_true
        rw [List.perm_ext_iff_of_nodup hafter.nodup_objects (List.nodup_cons.2
          ⟨fun hmem => hnew (List.mem_map_of_mem hmem), h.nodup_objects⟩)]
        intro object
        rw [hafter.mem_objects_iff, List.mem_cons, h.mem_objects_iff]
        simp only [hrows, List.mem_append, List.mem_singleton]
        constructor
        · rintro ⟨row, hrow | rfl, entry, hentry, rfl⟩
          · exact Or.inr ⟨row, hrow, entry, hentry, rfl⟩
          · rw [hentry.named.eq hheld.named, hentry.id]
            exact Or.inl rfl
        · rintro (rfl | ⟨row, hrow, entry, hentry, rfl⟩)
          · exact ⟨_, Or.inr rfl, _, hheld, rfl⟩
          · exact ⟨row, Or.inl hrow, entry, hentry, rfl⟩

end Faithful

end DurableStore

/-! ## A store of either kind -/

namespace Storage

/-- Whether a store holds, in a table or in memory, what a durable store holds whose index is in
step with its table. -/
inductive Sound : Storage → Prop where
  | memory {held : DurableStore} : held.Faithful → Sound (.memory held.inMemory)
  | durable {held : DurableStore} : held.Faithful → Sound (.durable held)

/-- One change to a store, whether it succeeds or not. -/
inductive Step (storage : Storage) : Storage → Prop where
  | insert (data : Data) : data.Readable → Step storage (storage.insert data).2
  | erase (name : Name) : Step storage (storage.erase name).2

/-- Whether a store comes about from one without packets. -/
def Reachable (storage : Storage) : Prop :=
  ∃ kind capacity, Relation.ReflTransGen Step (.empty kind capacity) storage

namespace Sound

variable {storage : Storage}

theorem pairwise_objects (h : storage.Sound) :
    storage.objects.Pairwise fun a b => compare a.fullName b.fullName = .lt := by
  cases h with
  | memory h =>
    rw [objects, h.objects_inMemory]
    exact h.pairwise_objects
  | durable h => exact h.pairwise_objects

theorem nodup_names (h : storage.Sound) : (storage.objects.map Object.fullName).Nodup :=
  List.pairwise_map.2 (h.pairwise_objects.imp Name.ne_of_lt)

theorem nodup_objects (h : storage.Sound) : storage.objects.Nodup :=
  List.Nodup.of_map Object.fullName h.nodup_names

theorem nodup_ids (h : storage.Sound) : (storage.objects.map Object.id).Nodup := by
  cases h with
  | memory h =>
    rw [objects, h.objects_inMemory]
    exact h.nodup_ids
  | durable h => exact h.nodup_ids

/-- No two objects have one full name. -/
theorem eq_of_fullName_eq (h : storage.Sound) {a b : Object} (ha : a ∈ storage.objects)
    (hb : b ∈ storage.objects) (hname : a.fullName = b.fullName) : a = b :=
  List.inj_on_of_nodup_map h.nodup_names ha hb hname

theorem packet_of_mem (h : storage.Sound) {object : Object} (hobject : object ∈ storage.objects) :
    ∃ data, Data.decode object.wire = .ok data ∧ data.fullName = object.fullName := by
  cases h with
  | memory h =>
    rw [objects, h.objects_inMemory] at hobject
    exact h.packet_of_mem hobject
  | durable h => exact h.packet_of_mem hobject

theorem size_eq (h : storage.Sound) : Backend.size storage = .ok storage.objects.length := by
  cases h with
  | @memory held h =>
    rw [objects, h.objects_inMemory, h.length_objects]
    exact congrArg (fun n : Nat => Except.ok (n : Int)) (List.length_map _)
  | durable h =>
    rw [objects, h.length_objects]
    rfl

theorem has_eq (h : storage.Sound) (name : Name) :
    Backend.has storage name = .ok (decide (name ∈ storage.objects.map Object.fullName)) := by
  cases h with
  | @memory held h =>
    rw [objects, h.objects_inMemory]
    exact congrArg Except.ok (Bool.eq_iff_iff.2 (h.contains_iff_mem.trans decide_eq_true_iff.symm))
  | @durable held h =>
    exact congrArg Except.ok (Bool.eq_iff_iff.2 (h.contains_iff_mem.trans decide_eq_true_iff.symm))

/-- A lookup finds the first object that extends the name. -/
theorem find_eq (h : storage.Sound) (q : Name) :
    Backend.find storage q .extending = .ok ((storage.under q).head?.map Object.found) := by
  cases h with
  | memory h =>
    rw [under, objects, h.objects_inMemory, ← h.find_extending_eq]
    exact congrArg Except.ok (h.inMemory_find q .extending)
  | durable h =>
    rw [under, objects, ← h.find_extending_eq]
    rfl

theorem erase (h : storage.Sound) (name : Name) : Sound (storage.erase name).2 := by
  cases h with
  | memory h =>
    rw [Storage.erase, h.inMemory_erase]
    exact .memory (h.erase name)
  | durable h => exact .durable (h.erase name)

/-- An object is erased, and the others stay as they are. -/
theorem erase_eq (h : storage.Sound) {object : Object} (hobject : object ∈ storage.objects) :
    ∃ after, Backend.erase storage object.fullName = (.ok true, after) ∧ after.Sound ∧
      after.objects =
        storage.objects.filter fun other => other.fullName ≠ object.fullName := by
  cases h with
  | @memory held h =>
    rw [objects, h.objects_inMemory] at hobject ⊢
    refine ⟨.memory (held.erase object.fullName).2.inMemory, ?_, .memory (h.erase _), ?_⟩
    · show Storage.erase _ _ = _
      rw [Storage.erase, h.inMemory_erase, Prod.map_map]
      exact Prod.ext (h.erase_fst_eq hobject) rfl
    · rw [objects, (h.erase _).objects_inMemory, h.objects_erase]
  | @durable held h =>
    refine ⟨.durable (held.erase object.fullName).2, ?_, .durable (h.erase _), h.objects_erase _⟩
    exact Prod.ext (h.erase_fst_eq hobject) rfl

/-- A packet is stored as a new object, or it is refused and nothing changes; it is refused as a
duplicate only if it is there. -/
theorem insert_cases (h : storage.Sound) {data : Data} (readable : data.Readable) :
    (∃ newId after, Backend.insert storage data = (.ok newId, after) ∧ after.Sound ∧
      data.fullName ∉ storage.objects.map Object.fullName ∧
      after.objects.Perm (⟨newId, data.fullName, data.wire⟩ :: storage.objects)) ∨
    ∃ cause, Backend.insert storage data = (.error cause, storage) ∧
      ∀ name, cause = .duplicateName name →
        data.fullName ∈ storage.objects.map Object.fullName := by
  cases h with
  | @memory held h =>
    rw [objects, h.objects_inMemory, ← h.contains_iff_mem]
    cases hcontains : held.index.contains data.fullName with
    | true =>
      have hthere : held.inMemory.index.contains data.fullName = true := hcontains
      have hrefused : ∃ cause, held.inMemory.insert data = (.error cause, held.inMemory) := by
        rw [MemoryStore.insert, hthere]
        cases data.name.isEmpty <;> exact ⟨_, rfl⟩
      obtain ⟨cause, hrefused⟩ := hrefused
      exact Or.inr ⟨cause, congrArg (Prod.map id Storage.memory) hrefused, fun _ _ => rfl⟩
    | false =>
      have hsame := h.inMemory_insert readable hcontains
      rcases h.insert_cases readable with
        ⟨newId, after, hdone, hafter, _, hperm⟩ | ⟨cause, hrefused, hduplicate⟩
      · rw [hdone] at hsame
        refine Or.inl ⟨newId, .memory after.inMemory, ?_, .memory hafter, Bool.false_ne_true, ?_⟩
        · exact congrArg (Prod.map id Storage.memory) hsame
        · rw [objects, hafter.objects_inMemory]
          exact hperm
      · rw [hrefused] at hsame
        rw [hcontains] at hduplicate
        exact Or.inr ⟨cause, congrArg (Prod.map id Storage.memory) hsame, hduplicate⟩
  | @durable held h =>
    rw [objects, ← h.contains_iff_mem]
    rcases h.insert_cases readable with
      ⟨newId, after, hdone, hafter, hnew, hperm⟩ | ⟨cause, hrefused, hduplicate⟩
    · rw [hnew]
      refine Or.inl ⟨newId, .durable after, ?_, .durable hafter, Bool.false_ne_true, hperm⟩
      exact congrArg (Prod.map id Storage.durable) hdone
    · exact Or.inr ⟨cause, congrArg (Prod.map id Storage.durable) hrefused, hduplicate⟩

theorem insert (h : storage.Sound) {data : Data} (readable : data.Readable) :
    Sound (storage.insert data).2 := by
  rcases h.insert_cases readable with ⟨newId, after, hdone, hafter, _⟩ | ⟨cause, hrefused, _⟩
  · exact congrArg Prod.snd hdone ▸ hafter
  · exact congrArg Prod.snd hrefused ▸ h

end Sound

theorem sound_empty (kind : Kind) (capacity : Nat) : Sound (.empty kind capacity) := by
  cases kind with
  | memory => exact .memory (.empty capacity)
  | durable => exact .durable (.empty capacity)

theorem objects_empty (kind : Kind) (capacity : Nat) : (empty kind capacity).objects = [] := by
  cases kind with
  | memory => rfl
  | durable =>
    have hempty := DurableStore.Faithful.empty capacity
    exact List.eq_nil_of_length_eq_zero hempty.length_objects

theorem sound_of_step {storage after : Storage} (h : storage.Sound) (step : Step storage after) :
    after.Sound := by
  cases step with
  | insert data readable => exact h.insert readable
  | erase name => exact h.erase name

theorem sound_of_reachable {storage : Storage} (h : Reachable storage) : storage.Sound := by
  obtain ⟨kind, capacity, run⟩ := h
  induction run with
  | refl => exact sound_empty kind capacity
  | tail _ step ih => exact sound_of_step ih step

end Storage

end NamedData.Store
