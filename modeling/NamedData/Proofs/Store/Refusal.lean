import NamedData.Proofs.Store.Objects
import NamedData.Proofs.Store.Presence
/-!
# What a refusal leaves behind

A store that refuses a packet is afterwards what it was. For one in memory that is plain, as it puts
the bytes down last. A durable one writes the row before its index takes the entry, so there the
index must never refuse: the room was looked at before, the id of a row is positive, and an index in
step with its table has no name that the table has not.

    load store.table c = .ok after → store.table.rows.length ≤ c         (length_rows_le_of_load)
    a row was written → the index takes its entry                               (index_takes_row)
    storage.InUse → Sound storage                                                   (InUse.sound)
-/

namespace NamedData.Store

/-! ## In memory -/

/-- A store in memory that refuses a packet has not changed. -/
theorem MemoryStore.insert_of_error {store : MemoryStore} {data : Data} {cause : Error}
    (refused : (store.insert data).1 = .error cause) : (store.insert data).2 = store := by
  revert refused
  unfold MemoryStore.insert
  split
  · exact fun _ => rfl
  split
  · exact fun _ => rfl
  split
  · exact fun _ => rfl
  split
  · exact fun _ => rfl
  · exact nofun

/-! ## In a table -/

/-- A row that is written has a name that was free, and a positive id. -/
theorem Table.of_insert? {table after : Table} {name data : Bytes} {id : Int}
    (written : table.insert? name data = some (id, after)) :
    (¬∃ row ∈ table.rows, row.name = name) ∧ 0 < id := by
  by_cases taken : ∃ row ∈ table.rows, row.name = name
  · rw [insert?, dif_pos taken] at written
    cases written
  · obtain ⟨next, hnext, _⟩ := insert?_eq_some data taken
    rw [hnext] at written
    cases written
    have := table.lastId_nonneg
    exact ⟨taken, by omega⟩

namespace DurableStore.Faithful

variable {store : DurableStore}

/-- Once the row of a packet is written, the index has room for its entry, takes its id, and does
not have its name. -/
theorem index_takes_row (h : store.Faithful) {data : Data} {id : Int} {table : Table}
    (vacant : store.index.isFull = false)
    (written : store.table.insert? data.fullName.encodeValue data.wire = some (id, table)) :
    0 < id ∧ store.index.contains data.fullName = false ∧
      ∃ index, store.index.insert (Index.entryOf data id) = .ok (true, index) := by
  obtain ⟨free, positive⟩ := Table.of_insert? written
  have absent : store.index.contains data.fullName = false := by
    rw [Bool.eq_false_iff, ne_eq, h.contains_iff]
    exact free
  have hid : 0 < (Index.entryOf data id).id := positive
  obtain ⟨index, taken, _⟩ := Index.insert_of_vacant hid absent vacant
  exact ⟨positive, absent, index, taken⟩

/-- With the row written, a packet is stored. -/
theorem insert_of_row (h : store.Faithful) {data : Data} {id : Int} {table : Table}
    (nonempty : data.name.isEmpty = false) (vacant : store.index.isFull = false)
    (written : store.table.insert? data.fullName.encodeValue data.wire = some (id, table)) :
    ∃ index, store.index.insert (Index.entryOf data id) = .ok (true, index) ∧
      store.insert data = (.ok id, ⟨table, index⟩) := by
  obtain ⟨_, _, index, taken⟩ := h.index_takes_row vacant written
  refine ⟨index, taken, ?_⟩
  unfold DurableStore.insert
  simp [nonempty, vacant, written, taken]

/-- A durable store that refuses a packet has not changed. -/
theorem insert_of_error (h : store.Faithful) {data : Data} {cause : Error}
    (refused : (store.insert data).1 = .error cause) : (store.insert data).2 = store := by
  cases nonempty : data.name.isEmpty with
  | true => simp [DurableStore.insert, nonempty]
  | false =>
    cases vacant : store.index.isFull with
    | true => simp [DurableStore.insert, nonempty, vacant]
    | false =>
      cases written : store.table.insert? data.fullName.encodeValue data.wire with
      | none => simp [DurableStore.insert, nonempty, vacant, written]
      | some row =>
        -- nothing can be refused any more
        obtain ⟨id, table⟩ := row
        obtain ⟨index, _, stored⟩ := h.insert_of_row nonempty vacant written
        rw [stored] at refused
        cases refused

/-- A table is opened only if there is room for all its rows. -/
theorem length_rows_le_of_load (h : store.Faithful) {capacity : Nat} {after : DurableStore}
    (done : load store.table capacity = .ok after) : store.table.rows.length ≤ capacity := by
  unfold load at done
  split at done
  · next index hindex =>
    obtain ⟨hcapacity, hroom, hnames⟩ := names_of_indexRows hindex (Nat.zero_le _)
    -- the names that are indexed are all read from rows, so none of them is missing
    have hkept : store.index.names ⊆ index.names := by
      intro name hname
      obtain ⟨entry, hentry, rfl⟩ := List.mem_map.1 hname
      obtain ⟨row, hrow, hheld⟩ := h.mem_entries_iff.1 hentry
      exact (hnames _).2 (Or.inr ⟨row, hrow, entry, hheld.entryOfRow?, rfl⟩)
    have hlength : store.index.names.length ≤ index.names.length :=
      (List.subperm_of_subset store.index.nodup_names hkept).length_le
    have hrows : store.table.rows.length = store.index.names.length := by
      rw [h.length_rows, Index.size, Index.names, List.length_map]
    have hempty : (Index.empty capacity).capacity = capacity := rfl
    omega
  · cases done

/-- A table that is opened again is in step with its new index. -/
theorem load (h : store.Faithful) {capacity : Nat} {after : DurableStore}
    (done : load store.table capacity = .ok after) : after.Faithful :=
  faithful_of_step h (.reopen capacity after (h.length_rows_le_of_load done) done)

end DurableStore.Faithful

/-! ## A store of either kind -/

namespace Storage

/-- Whether a store comes about from one without packets when packets that can be read are given to
it, names are erased, and, of a table, rows are erased by their ids and the table is opened again.
To look something up changes no store. -/
inductive InUse : Storage → Prop where
  | empty (kind : Kind) (capacity : Nat) : InUse (.empty kind capacity)
  | insert {storage : Storage} {data : Data} : InUse storage → data.Readable →
    InUse (storage.insert data).2
  | erase {storage : Storage} (name : Name) : InUse storage → InUse (storage.erase name).2
  | eraseById {store : DurableStore} (id : Int) : InUse (.durable store) →
    InUse (.durable (store.eraseById id).2)
  | reopen {store after : DurableStore} {capacity : Nat} : InUse (.durable store) →
    DurableStore.load store.table capacity = .ok after → InUse (.durable after)

variable {storage : Storage}

theorem Sound.faithful {store : DurableStore} (h : Sound (.durable store)) : store.Faithful := by
  cases h with
  | durable held => exact held

theorem InUse.sound (h : storage.InUse) : storage.Sound := by
  induction h with
  | empty kind capacity => exact sound_empty kind capacity
  | insert _ readable ih => exact ih.insert readable
  | erase name _ ih => exact ih.erase name
  | eraseById id _ ih => exact .durable (ih.faithful.eraseById id)
  | reopen _ done ih => exact .durable (ih.faithful.load done)

/-- There is room for all that is held. -/
theorem Sound.room (h : storage.Sound) : storage.index.size ≤ storage.index.capacity := by
  cases h with
  | memory held => exact held.room
  | durable held => exact held.room

/-- A store that refuses a packet, whichever it is, has not changed. -/
theorem Sound.insert_of_error (h : storage.Sound) {data : Data} {cause : Error}
    (refused : (storage.insert data).1 = .error cause) : (storage.insert data).2 = storage := by
  cases h with
  | memory _ => exact congrArg Storage.memory (MemoryStore.insert_of_error refused)
  | durable held => exact congrArg Storage.durable (held.insert_of_error refused)

/-- The index of a store never holds more than its capacity, and a store that refuses a packet has
not changed: neither its rows nor its index nor the id that it gives next. A durable store that has
written the row of a packet has stored the packet: the id is positive, and the index takes the
entry, having room for it and not yet its name. -/
theorem refusals_change_nothing (h : storage.InUse) :
    storage.index.size ≤ storage.index.capacity ∧
      (∀ data cause, (storage.insert data).1 = .error cause →
        (storage.insert data).2 = storage) ∧
      ∀ store data id table, storage = .durable store → data.name.isEmpty = false →
        store.index.isFull = false →
        store.table.insert? data.fullName.encodeValue data.wire = some (id, table) →
        0 < id ∧ store.index.contains data.fullName = false ∧
          ∃ index, store.index.insert (Index.entryOf data id) = .ok (true, index) ∧
            store.insert data = (.ok id, ⟨table, index⟩) := by
  refine ⟨h.sound.room, fun data cause => h.sound.insert_of_error, ?_⟩
  rintro store data id table rfl nonempty vacant written
  have held := h.sound.faithful
  obtain ⟨positive, absent, _⟩ := held.index_takes_row vacant written
  exact ⟨positive, absent, held.insert_of_row nonempty vacant written⟩

/-- A store with room for one packet, opened again with that packet in it, refuses a second and is
the same; with the first erased by its id it stores the second under a new id. -/
theorem refusals_change_nothing_of_full :
    let first := (DurableStore.insert ⟨.empty, .empty 1⟩ .blank).2
    let second : Data := .bare (Name.empty.pushNumber 1)
    let emptied := (first.eraseById 1).2
    DurableStore.load first.table 1 = .ok first ∧
      (Storage.durable first).insert second = (.error (.index (.full 1)), .durable first) ∧
      emptied.index.size ≤ emptied.index.capacity ∧
      ∃ table index, emptied.insert second = (.ok 2, ⟨table, index⟩) := by
  intro first second emptied
  have hfirst : (Storage.durable first).InUse := .insert (.empty .durable 1) Data.readable_blank
  have hload : DurableStore.load first.table 1 = .ok first := by decide +kernel
  have hreopened : (Storage.durable first).InUse := .reopen hfirst hload
  have hemptied : (Storage.durable emptied).InUse := .eraseById 1 hreopened
  have hrefused : ((Storage.durable first).insert second).1 = .error (.index (.full 1)) := by
    decide +kernel
  obtain ⟨_, hsame, _⟩ := refusals_change_nothing hreopened
  obtain ⟨hroom, _, hstored⟩ := refusals_change_nothing hemptied
  have hfree : ¬∃ row ∈ emptied.table.rows, row.name = second.fullName.encodeValue := by
    decide +kernel
  obtain ⟨table, hwritten, _⟩ := Table.insert?_eq_some second.wire hfree
  obtain ⟨_, _, index, _, hdone⟩ :=
    hstored emptied second 2 table rfl (by decide) (by decide +kernel) hwritten
  exact ⟨hload, Prod.ext hrefused (hsame second _ hrefused), hroom, table, index, hdone⟩

end Storage

end NamedData.Store
