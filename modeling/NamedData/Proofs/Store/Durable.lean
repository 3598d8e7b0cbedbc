import Mathlib.Logic.Relation
import NamedData.Proofs.Packet.Wire
import NamedData.Proofs.Store.Index
import NamedData.Proofs.Store.Scan
/-!
# The index of a durable store

Every change keeps the index of a durable store in step with its table: the entries of the index
are those of the rows, in another order. An index is determined by what it holds, so the one that
is built when the table is opened again is the one that was there.

    faithful store → faithful (store after a step)                         (faithful_of_step)
    faithful store → load store.table c = store with capacity c            (load_eq)
-/

namespace NamedData.Store

/-! ## Rows and entries -/

/-- Whether an entry is the one a row ought to have: under the name that is read from the row,
with its id, and with the fingerprint of the key of the packet whose full name it is. -/
structure Row.Describes (row : Row) (entry : Entry) : Prop where
  id : entry.id = row.id
  name : Name.decodeValue row.name = .ok entry.name
  data : ∃ data, Data.decode row.data = .ok data ∧ data.fullName = entry.name ∧
    data.fingerprint? = entry.fingerprint

/-- Whether an entry is the one a row ought to have, and the name of the row is its encoding. -/
structure Row.Holds (row : Row) (entry : Entry) : Prop extends row.Describes entry where
  encoded : row.name = entry.name.encodeValue
  fits : entry.name.Fits

namespace Row

theorem Describes.entryOfRow? {row : Row} {entry : Entry} (h : row.Describes entry) :
    DurableStore.entryOfRow? row = some entry := by
  obtain ⟨data, hdata, _, hfingerprint⟩ := h.data
  simp only [DurableStore.entryOfRow?, h.name, hdata, hfingerprint, ← h.id]

/-- The row of a packet that can be read. -/
theorem holds_of_readable {data : Data} (readable : data.Readable) (id : Int) :
    Row.Holds ⟨id, data.fullName.encodeValue, data.wire⟩ (Index.entryOf data id) := by
  obtain ⟨found, hfound, hwire, hname, hinfo, hsound, hfits⟩ := readable.decode_wire
  have hfull := Data.fits_fullName hfits
  refine ⟨⟨rfl, ?_, found, hfound, ?_, ?_⟩, rfl, hfull⟩
  · exact Name.decodeValue_encodeValue hfull.writable (Data.sound_fullName hsound)
  · rw [Data.fullName, Data.digest, hwire, hname]
    rfl
  · rw [Data.fingerprint?, hinfo]
    rfl

end Row

namespace Table

/-- Rows of one id are the same. -/
theorem eq_of_id_eq {table : Table} {a b : Row} (ha : a ∈ table.rows) (hb : b ∈ table.rows)
    (h : a.id = b.id) : a = b := by
  have hnodup : (table.rows.map Row.id).Nodup :=
    List.pairwise_map.2 (table.ids_increasing.imp fun hlt => Int.ne_of_lt hlt)
  exact List.inj_on_of_nodup_map hnodup ha hb h

/-- What is found by id is a row of that id. -/
theorem mem_of_rowOfId? {table : Table} {id : Int} {row : Row}
    (h : table.rowOfId? id = some row) : row ∈ table.rows ∧ row.id = id := by
  unfold rowOfId? at h
  exact ⟨List.mem_of_find?_eq_some h, by simpa using List.find?_some h⟩

theorem rowOfId?_eq_some {table : Table} {row : Row} (h : row ∈ table.rows) :
    table.rowOfId? row.id = some row := by
  cases hfound : table.rowOfId? row.id with
  | none => exact absurd (decide_eq_true rfl) (List.find?_eq_none.1 hfound row h)
  | some other =>
    obtain ⟨hother, hid⟩ := mem_of_rowOfId? hfound
    rw [eq_of_id_eq hother h hid]

/-- A name that is not taken is added under the next id. -/
theorem insert?_eq_some {table : Table} {name : Bytes} (data : Bytes)
    (fresh : ¬∃ row ∈ table.rows, row.name = name) :
    ∃ after, table.insert? name data = some (table.lastId + 1, after) ∧
      after.rows = table.rows ++ [⟨table.lastId + 1, name, data⟩] ∧
      after.lastId = table.lastId + 1 := by
  rw [insert?, dif_neg fresh]
  exact ⟨_, rfl, rfl, rfl⟩

end Table

namespace DurableStore

/-! ## The invariant -/

/-- Whether the index is in step with the table: every row has its entry, and these are the
entries of the index. -/
structure Faithful (store : DurableStore) : Prop where
  held : ∀ row ∈ store.table.rows, ∃ entry, row.Holds entry
  indexed : store.index.entries.Perm (store.table.rows.filterMap entryOfRow?)
  room : store.index.size ≤ store.index.capacity

section Rows

variable {rows : List Row} (held : ∀ row ∈ rows, ∃ entry, row.Holds entry)
include held

/-- Row by row, the entries of the rows. -/
theorem forall₂_entries : List.Forall₂ Row.Holds rows (rows.filterMap entryOfRow?) := by
  induction rows with
  | nil => exact .nil
  | cons row rows ih =>
    obtain ⟨entry, hentry⟩ := held row List.mem_cons_self
    rw [List.filterMap_cons_some hentry.entryOfRow?]
    exact .cons hentry (ih fun r hr => held r (List.mem_cons_of_mem row hr))

theorem length_entries : (rows.filterMap entryOfRow?).length = rows.length :=
  (forall₂_entries held).length_eq.symm

/-- A test of rows and a test of entries that agree on a row and its entry pick the same. -/
theorem filter_entries {p : Row → Bool} {q : Entry → Bool}
    (agree : ∀ row ∈ rows, ∀ entry, row.Holds entry → p row = q entry) :
    (rows.filterMap entryOfRow?).filter q = (rows.filter p).filterMap entryOfRow? := by
  induction rows with
  | nil => rfl
  | cons row rows ih =>
    obtain ⟨entry, hentry⟩ := held row List.mem_cons_self
    have hrest := ih (fun r hr => held r (List.mem_cons_of_mem row hr))
      fun r hr => agree r (List.mem_cons_of_mem row hr)
    rw [List.filterMap_cons_some hentry.entryOfRow?, List.filter_cons, List.filter_cons,
      agree row List.mem_cons_self entry hentry, hrest]
    cases q entry with
    | false => rfl
    | true => exact (List.filterMap_cons_some hentry.entryOfRow?).symm

end Rows

namespace Faithful

variable {store : DurableStore}

theorem mem_entries_iff (h : store.Faithful) {entry : Entry} :
    entry ∈ store.index.entries ↔ ∃ row ∈ store.table.rows, row.Holds entry := by
  rw [h.indexed.mem_iff, List.mem_filterMap]
  constructor
  · rintro ⟨row, hrow, hentry⟩
    obtain ⟨held, hheld⟩ := h.held row hrow
    cases hentry.symm.trans hheld.entryOfRow?
    exact ⟨row, hrow, hheld⟩
  · rintro ⟨row, hrow, hentry⟩
    exact ⟨row, hrow, hentry.entryOfRow?⟩

/-- The index knows the names that are taken in the table. -/
theorem contains_iff (h : store.Faithful) {name : Name} :
    store.index.contains name = true ↔ ∃ row ∈ store.table.rows, row.name = name.encodeValue := by
  rw [Index.contains_eq_true_iff]
  constructor
  · rintro ⟨entry, hentry, rfl⟩
    obtain ⟨row, hrow, hheld⟩ := h.mem_entries_iff.1 hentry
    exact ⟨row, hrow, hheld.encoded⟩
  · rintro ⟨row, hrow, hname⟩
    obtain ⟨entry, hheld⟩ := h.held row hrow
    have hsame := hheld.encoded.symm.trans hname
    exact ⟨entry, h.mem_entries_iff.2 ⟨row, hrow, hheld⟩,
      (Name.encodeValue_inj hheld.fits).1 hsame⟩

theorem empty (capacity : Nat) : Faithful ⟨.empty, .empty capacity⟩ :=
  ⟨nofun, .refl _, Nat.zero_le _⟩

/-! ## Changes -/

/-- A packet whose full name is new is stored when there is room. -/
theorem grow (h : store.Faithful) {data : Data} (readable : data.Readable)
    (notFull : store.index.isFull = false) (absent : store.index.contains data.fullName = false) :
    ∃ table index,
      store.table.insert? data.fullName.encodeValue data.wire =
        some (store.table.lastId + 1, table) ∧
      table.rows = store.table.rows ++
        [⟨store.table.lastId + 1, data.fullName.encodeValue, data.wire⟩] ∧
      table.lastId = store.table.lastId + 1 ∧
      store.index.insert (Index.entryOf data (store.table.lastId + 1)) = .ok (true, index) ∧
      Faithful ⟨table, index⟩ := by
  have hheld := Row.holds_of_readable readable (store.table.lastId + 1)
  have hfresh : ¬∃ row ∈ store.table.rows, row.name = data.fullName.encodeValue := by
    rw [← h.contains_iff, absent]
    nofun
  have hpositive : 0 < (Index.entryOf data (store.table.lastId + 1)).id := by
    have := store.table.lastId_nonneg
    show 0 < store.table.lastId + 1
    omega
  obtain ⟨table, htable, hrows, hlast⟩ := Table.insert?_eq_some data.wire hfresh
  obtain ⟨index, hindex, hcapacity, hentries⟩ :=
    Index.insert_of_vacant hpositive absent notFull
  refine ⟨table, index, htable, hrows, hlast, hindex, ?_, ?_, ?_⟩
  · intro row hrow
    rw [hrows] at hrow
    rcases List.mem_append.1 hrow with hrow | hrow
    · exact h.held row hrow
    · rw [List.mem_singleton.1 hrow]
      exact ⟨_, hheld⟩
  · rw [hrows, List.filterMap_append, List.filterMap_cons_some hheld.entryOfRow?]
    exact hentries.trans ((h.indexed.cons _).trans (List.perm_append_singleton _ _).symm)
  · have hroom : store.index.size < store.index.capacity := by
      simpa [Index.isFull] using notFull
    rw [Index.size, hentries.length_eq, hcapacity]
    exact hroom

/-- Keeping rows and keeping entries by tests that agree keeps the two in step. -/
theorem keep (h : store.Faithful) {p : Row → Bool} {name : Name}
    (agree : ∀ row ∈ store.table.rows, ∀ entry, row.Holds entry →
      p row = decide (entry.name ≠ name)) :
    Faithful ⟨store.table.keep p, (store.index.erase name).2⟩ := by
  refine ⟨fun row hrow => h.held row (List.mem_filter.1 hrow).1, ?_, ?_⟩
  · have hkept := h.indexed.filter fun e => decide (e.name ≠ name)
    rw [filter_entries h.held agree] at hkept
    exact hkept
  · exact Nat.le_trans (List.length_filter_le _ _) h.room

theorem insert (h : store.Faithful) {data : Data} (readable : data.Readable) :
    Faithful (store.insert data).2 := by
  rw [DurableStore.insert]
  split
  · exact h
  split
  · exact h
  next notFull =>
    cases hcontains : store.index.contains data.fullName with
    | true =>
      rw [Table.insert?, dif_pos (h.contains_iff.1 hcontains)]
      exact h
    | false =>
      obtain ⟨table, index, htable, _, _, hindex, hafter⟩ :=
        h.grow readable (Bool.eq_false_iff.2 notFull) hcontains
      rw [htable]
      simp only
      rw [hindex]
      exact hafter

theorem erase (h : store.Faithful) (name : Name) : Faithful (store.erase name).2 := by
  refine h.keep fun row _ entry hheld => decide_eq_decide.2 (not_congr ?_)
  rw [hheld.encoded, Name.encodeValue_inj hheld.fits]

theorem eraseById (h : store.Faithful) (id : Int) : Faithful (store.eraseById id).2 := by
  rw [DurableStore.eraseById]
  cases hrow : store.table.rowOfId? id with
  | none => exact h
  | some row =>
    obtain ⟨hmem, hid⟩ := Table.mem_of_rowOfId? hrow
    obtain ⟨entry, hheld⟩ := h.held row hmem
    simp only [hheld.name]
    refine h.keep fun other hother held hholds => decide_eq_decide.2 (not_congr ?_)
    constructor
    · intro hsame
      obtain rfl := Table.eq_of_id_eq hother hmem (hsame.trans hid.symm)
      exact Except.ok.inj (hholds.name.symm.trans hheld.name)
    · intro hsame
      have hname : other.name = row.name := by
        rw [hholds.encoded, hheld.encoded, hsame]
      rw [Table.eq_of_name_eq hother hmem hname, hid]

end Faithful

/-! ## Opening again -/

/-- Rows with entries of different names are all indexed where there is room. -/
theorem indexRows_eq_ok {rows : List Row} {index : Index}
    (held : ∀ row ∈ rows, ∃ entry, row.Holds entry) (positive : ∀ row ∈ rows, 0 < row.id)
    (distinct : ((index.entries ++ rows.filterMap entryOfRow?).map Entry.name).Nodup)
    (room : index.size + rows.length ≤ index.capacity) :
    ∃ after, indexRows index rows = .ok after ∧ after.capacity = index.capacity ∧
      after.entries.Perm (index.entries ++ rows.filterMap entryOfRow?) := by
  induction rows generalizing index with
  | nil => exact ⟨index, rfl, rfl, by rw [List.filterMap_nil, List.append_nil]⟩
  | cons row rows ih =>
    obtain ⟨entry, hheld⟩ := held row List.mem_cons_self
    have hentry := hheld.entryOfRow?
    rw [List.filterMap_cons_some hentry] at distinct ⊢
    have hfresh : ∀ e ∈ index.entries, e.name ≠ entry.name := by
      intro e he
      rw [List.map_append, List.nodup_append] at distinct
      exact distinct.2.2 e.name (List.mem_map_of_mem he) entry.name List.mem_cons_self
    have hpositive : 0 < entry.id := hheld.id ▸ positive row List.mem_cons_self
    rw [List.length_cons] at room
    obtain ⟨next, hnext, hcapacity, hentries⟩ := Index.insert_eq_ok hpositive hfresh (by omega)
    have hmoved : (next.entries ++ rows.filterMap entryOfRow?).Perm
        (index.entries ++ entry :: rows.filterMap entryOfRow?) :=
      (hentries.append_right _).trans List.perm_middle.symm
    have hsize : next.size = index.size + 1 := hentries.length_eq
    have hroom : next.size + rows.length ≤ next.capacity := by omega
    obtain ⟨after, hafter, hsame, hperm⟩ :=
      ih (fun r hr => held r (List.mem_cons_of_mem row hr))
        (fun r hr => positive r (List.mem_cons_of_mem row hr))
        ((hmoved.map Entry.name).nodup_iff.2 distinct) hroom
    refine ⟨after, ?_, hsame.trans hcapacity, hperm.trans hmoved⟩
    simp only [indexRows, hentry, hnext]
    exact hafter

/-- Opened again with room for all rows, a store is what it was, but for its capacity. -/
theorem Faithful.load_eq {store : DurableStore} (h : store.Faithful) {capacity : Nat}
    (room : store.table.rows.length ≤ capacity) :
    load store.table capacity = .ok ⟨store.table, { store.index with capacity }⟩ := by
  have hdistinct : (((Index.empty capacity).entries ++
      store.table.rows.filterMap entryOfRow?).map Entry.name).Nodup :=
    (h.indexed.map Entry.name).nodup_iff.1 store.index.nodup_names
  have hroom : (Index.empty capacity).size + store.table.rows.length ≤ capacity :=
    (Nat.zero_add _).symm ▸ room
  obtain ⟨after, hafter, hcapacity, hentries⟩ :=
    indexRows_eq_ok h.held (fun row hrow => (store.table.ids_given row hrow).1) hdistinct hroom
  have hsame : after = { store.index with capacity } :=
    Index.eq_of_perm hcapacity (hentries.trans h.indexed.symm)
  rw [load, hafter, hsame]

theorem Faithful.length_rows {store : DurableStore} (h : store.Faithful) :
    store.table.rows.length = store.index.size := by
  rw [← length_entries h.held, Index.size, h.indexed.length_eq]

/-! ## Runs -/

/-- One thing that is done with a durable store: a change through the store, whether it succeeds
or not, or closing it and opening it again with room for all rows. -/
inductive Step (store : DurableStore) : DurableStore → Prop where
  | insert (data : Data) : data.Readable → Step store (store.insert data).2
  | erase (name : Name) : Step store (store.erase name).2
  | eraseById (id : Int) : Step store (store.eraseById id).2
  | reopen (capacity : Nat) (after : DurableStore) : store.table.rows.length ≤ capacity →
    load store.table capacity = .ok after → Step store after

/-- Whether a store comes about from one without packets. -/
def Reachable (store : DurableStore) : Prop :=
  ∃ capacity, Relation.ReflTransGen Step ⟨.empty, .empty capacity⟩ store

/-- No step brings the index out of step with the table. -/
theorem faithful_of_step {store after : DurableStore} (h : store.Faithful)
    (step : Step store after) : after.Faithful := by
  cases step with
  | insert data readable => exact h.insert readable
  | erase name => exact h.erase name
  | eraseById id => exact h.eraseById id
  | reopen capacity _ room done =>
    rw [h.load_eq room] at done
    cases done
    exact ⟨h.held, h.indexed, h.length_rows ▸ room⟩

theorem faithful_of_reachable {store : DurableStore} (h : Reachable store) : store.Faithful := by
  obtain ⟨capacity, run⟩ := h
  induction run with
  | refl => exact .empty capacity
  | tail _ step ih => exact faithful_of_step ih step

/-- At every point of every run there is exactly one entry for each row, and opening the table
again, at the same capacity or at another that has room, gives the same entries. -/
theorem index_matches_table {store : DurableStore} (h : Reachable store) :
    (∃ entries, entries.Perm store.index.entries ∧
      List.Forall₂ Row.Describes store.table.rows entries) ∧
    load store.table store.index.capacity = .ok store ∧
    ∀ capacity, store.table.rows.length ≤ capacity →
      load store.table capacity = .ok ⟨store.table, { store.index with capacity }⟩ := by
  have hfaithful := faithful_of_reachable h
  refine ⟨⟨_, hfaithful.indexed.symm, ?_⟩, ?_, fun capacity room => hfaithful.load_eq room⟩
  · exact (forall₂_entries hfaithful.held).imp fun _ _ hheld => hheld.toDescribes
  · exact hfaithful.load_eq (hfaithful.length_rows ▸ hfaithful.room)

/-- A store with one packet in it is such a point. -/
theorem index_matches_table_of_one :
    let store := (insert ⟨.empty, .empty 1⟩ .blank).2
    store.table.rows.length = 1 ∧ store.index.size = 1 ∧
      load store.table store.index.capacity = .ok store := by
  have hstep : Step ⟨.empty, .empty 1⟩ (insert ⟨.empty, .empty 1⟩ .blank).2 :=
    .insert .blank Data.readable_blank
  exact ⟨rfl, rfl, (index_matches_table ⟨1, .single hstep⟩).2.1⟩

end DurableStore

end NamedData.Store
