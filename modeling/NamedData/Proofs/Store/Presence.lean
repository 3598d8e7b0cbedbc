import NamedData.Proofs.Store.Interchange
import NamedData.Store.Storage
/-!
# Which names a store holds

A store answers from its index whether a full name is there. The index stays in step with what is
stored whatever packets come, also such as cannot be read from their own bytes; these are held and
told apart by their full names like all others. Only a lookup in a table passes them over, and so
does the index of a table that is opened again. Then the row blocks its name: that is not there, but
a packet under it is not written either.

    a new name with room → the name is added, and no other                    (insert_of_takes)
    a name that is there or blocked, or no room → nothing changes         (insert_of_not_takes)
    storage.InStep → erasing a name takes it away, and no other                      (erase_eq)
    rows with full names → an opened table is in step, whatever the data       (inStep_of_load)
    storage.InStep → what blocks a name cannot be read                   (unreadable_of_blocks)
    a packet was taken → its name is there ↔ it was not blocked             (mem_of_insert_iff)
    storage.InStep → deleting `q` takes away what a lookup of `q` finds         (delete_alters)
-/

namespace NamedData

/-- Whether the name of a packet is no longer than a byte string in memory can be. -/
def Data.InMemory (data : Data) : Prop := data.name.encodeValue.length < 2 ^ 63

theorem Data.length_fullName (data : Data) :
    data.fullName.components.length = data.name.components.length + 1 :=
  List.length_append

namespace Store

/-! ## Names of an index -/

namespace Index

/-- The full names in an index. -/
def names (index : Index) : List Name := index.entries.map Entry.name

/-- Whether an index has room for all it holds, and a full name in it is more than a digest. -/
structure Proper (index : Index) : Prop where
  room : index.names.length ≤ index.capacity
  long : ∀ name ∈ index.names, 1 < name.components.length

variable {index : Index}

theorem contains_eq_decide (index : Index) (name : Name) :
    index.contains name = decide (name ∈ index.names) := by
  rw [Bool.eq_iff_iff, contains_eq_true_iff, decide_eq_true_iff, names, List.mem_map]

theorem isFull_eq_decide (index : Index) :
    index.isFull = decide (index.capacity ≤ index.names.length) := by
  rw [isFull, size, names, List.length_map]

theorem proper_empty (capacity : Nat) : (empty capacity).Proper := ⟨Nat.zero_le _, nofun⟩

/-- An entry under a new name is added if there is room. -/
theorem Proper.insert (h : index.Proper) (new : Entry) (positive : 0 < new.id)
    (long : 1 < new.name.components.length) (absent : new.name ∉ index.names)
    (room : index.names.length < index.capacity) :
    ∃ after, index.insert new = .ok (true, after) ∧ after.Proper ∧
      after.capacity = index.capacity ∧ after.entries.Perm (new :: index.entries) := by
  have hfresh : ∀ entry ∈ index.entries, entry.name ≠ new.name := by
    intro entry hentry hname
    exact absent (hname ▸ List.mem_map_of_mem hentry)
  have hroom : index.size < index.capacity := by rwa [names, List.length_map] at room
  obtain ⟨after, hinsert, hcapacity, hperm⟩ := insert_eq_ok positive hfresh hroom
  have hnames : after.names.Perm (new.name :: index.names) := hperm.map Entry.name
  refine ⟨after, hinsert, ⟨?_, ?_⟩, hcapacity, hperm⟩
  · rw [hnames.length_eq, hcapacity]
    exact room
  · intro name hname
    rcases List.mem_cons.1 (hnames.mem_iff.1 hname) with rfl | hold
    · exact long
    · exact h.long name hold

/-- What an index that takes an entry holds afterwards. -/
theorem names_of_insert {new : Entry} {added : Bool} {after : Index}
    (done : index.insert new = .ok (added, after)) :
    after.capacity = index.capacity ∧
      (index.names.length ≤ index.capacity → after.names.length ≤ after.capacity) ∧
      ∀ name, name ∈ after.names ↔ name = new.name ∨ name ∈ index.names := by
  simp only [insert, contains_eq_decide, isFull_eq_decide] at done
  split at done
  · cases done
  · split at done
    · next present =>
      cases done
      refine ⟨rfl, id, fun name => ⟨Or.inr, ?_⟩⟩
      rintro (rfl | hname)
      · exact of_decide_eq_true present
      · exact hname
    · next absent =>
      split at done
      · cases done
      · next vacant =>
        cases done
        rw [decide_eq_true_iff] at absent vacant
        have hperm : (place new index.entries).Perm (new :: index.entries) :=
          perm_place fun entry hentry hname => absent (hname ▸ List.mem_map_of_mem hentry)
        have hnames := hperm.map Entry.name
        refine ⟨rfl, fun _ => ?_, fun name => hnames.mem_iff.trans List.mem_cons⟩
        exact Nat.le_trans (Nat.le_of_eq hnames.length_eq) (Nat.lt_of_not_le vacant)

theorem mem_names_erase {name other : Name} :
    other ∈ (index.erase name).2.names ↔ other ∈ index.names ∧ other ≠ name := by
  have hnames : (index.erase name).2.names = index.names.filter fun n => n ≠ name := by
    rw [names, names, List.filter_map]
    rfl
  rw [hnames, List.mem_filter, decide_eq_true_iff]

theorem Proper.erase (h : index.Proper) (name : Name) : (index.erase name).2.Proper := by
  refine ⟨Nat.le_trans ?_ h.room, fun other hother => h.long other (mem_names_erase.1 hother).1⟩
  rw [names, names, List.length_map, List.length_map]
  exact List.length_filter_le _ _

end Index

/-! ## In memory -/

namespace MemoryStore

/-- Whether every entry of the index has a row of its own, and the next id is new. -/
structure InStep (store : MemoryStore) : Prop where
  proper : store.index.Proper
  positive : 0 < store.nextId
  rowed : ∀ entry ∈ store.index.entries, ∃ wire, (entry.id, wire) ∈ store.rows
  distinct : ∀ a ∈ store.index.entries, ∀ b ∈ store.index.entries, a.id = b.id → a = b
  given : ∀ row ∈ store.rows, row.1 < store.nextId

variable {store : MemoryStore}

theorem InStep.lt_nextId (h : store.InStep) {entry : Entry} (hentry : entry ∈ store.index.entries) :
    entry.id < store.nextId := by
  obtain ⟨wire, hrow⟩ := h.rowed entry hentry
  exact h.given _ hrow

/-- The store with one packet more. -/
theorem InStep.insert (h : store.InStep) {data : Data} (nonempty : data.name.isEmpty = false)
    (long : 1 < data.fullName.components.length) (absent : data.fullName ∉ store.index.names)
    (room : store.index.names.length < store.index.capacity) :
    ∃ index, store.insert data = (.ok store.nextId,
        ⟨index, store.rows ++ [(store.nextId, data.wire)], store.nextId + 1⟩) ∧
      index.capacity = store.index.capacity ∧
      index.entries.Perm (Index.entryOf data store.nextId :: store.index.entries) ∧
      InStep ⟨index, store.rows ++ [(store.nextId, data.wire)], store.nextId + 1⟩ := by
  have hcontains : store.index.contains data.fullName = false := by
    rw [Index.contains_eq_decide, decide_eq_false absent]
  have hfull : store.index.isFull = false := by
    rw [Index.isFull_eq_decide, decide_eq_false (Nat.not_le.2 room)]
  obtain ⟨index, hinsert, hproper, hcapacity, hperm⟩ :=
    h.proper.insert (Index.entryOf data store.nextId) h.positive long absent room
  refine ⟨index, ?_, hcapacity, hperm, hproper, ?_, ?_, ?_, ?_⟩
  · rw [MemoryStore.insert, nonempty, hcontains, hfull]
    simp only [Bool.false_eq_true, if_false, hinsert]
  · have := h.positive
    show 0 < store.nextId + 1
    omega
  · intro entry hentry
    rcases List.mem_cons.1 (hperm.mem_iff.1 hentry) with rfl | hold
    · exact ⟨data.wire, List.mem_append_right _ List.mem_cons_self⟩
    · obtain ⟨wire, hrow⟩ := h.rowed entry hold
      exact ⟨wire, List.mem_append_left _ hrow⟩
  · intro a ha b hb hid
    rcases List.mem_cons.1 (hperm.mem_iff.1 ha) with rfl | ha <;>
      rcases List.mem_cons.1 (hperm.mem_iff.1 hb) with rfl | hb
    · rfl
    · exact absurd hid.symm (Int.ne_of_lt (h.lt_nextId hb))
    · exact absurd hid (Int.ne_of_lt (h.lt_nextId ha))
    · exact h.distinct a ha b hb hid
  · intro row hrow
    rcases List.mem_append.1 hrow with hold | hnew
    · exact Int.lt_add_one_of_le (Int.le_of_lt (h.given row hold))
    · rw [List.mem_singleton.1 hnew]
      exact Int.lt_succ _

/-- What rows with one packet more have for the entries is what they had, and the packet: the new
entry has an id that no row had. -/
theorem InStep.exists_row_insert (h : store.InStep) {data : Data} {entries : List Entry}
    (perm : entries.Perm (Index.entryOf data store.nextId :: store.index.entries))
    {name : Name} {wire : Bytes} :
    (∃ entry ∈ entries, entry.name = name ∧
        (entry.id, wire) ∈ store.rows ++ [(store.nextId, data.wire)]) ↔
      (∃ entry ∈ store.index.entries, entry.name = name ∧ (entry.id, wire) ∈ store.rows) ∨
        name = data.fullName ∧ wire = data.wire := by
  constructor
  · rintro ⟨entry, hentry, hname, hrow⟩
    rcases List.mem_append.1 hrow with hold | hnew
    · rcases List.mem_cons.1 (perm.mem_iff.1 hentry) with rfl | hentry
      · exact absurd (h.given _ hold) (Int.lt_irrefl _)
      · exact Or.inl ⟨entry, hentry, hname, hold⟩
    · obtain ⟨hid, rfl⟩ := Prod.mk.inj (List.mem_singleton.1 hnew)
      rcases List.mem_cons.1 (perm.mem_iff.1 hentry) with rfl | hentry
      · exact Or.inr ⟨hname.symm, rfl⟩
      · exact absurd hid (Int.ne_of_lt (h.lt_nextId hentry))
  · rintro (⟨entry, hentry, hname, hrow⟩ | ⟨rfl, rfl⟩)
    · exact ⟨entry, perm.mem_iff.2 (List.mem_cons_of_mem _ hentry), hname,
        List.mem_append_left _ hrow⟩
    · exact ⟨_, perm.mem_iff.2 List.mem_cons_self, rfl, List.mem_append_right _ List.mem_cons_self⟩

theorem InStep.erase (h : store.InStep) (name : Name) :
    (store.erase name).1 = .ok (decide (name ∈ store.index.names)) ∧
      (store.erase name).2.index = (store.index.erase name).2 ∧ InStep (store.erase name).2 := by
  cases hentry : store.index.entry? name with
  | none =>
    have hcontains : store.index.contains name = false := by rw [Index.contains, hentry]; rfl
    have hnone : store.index.get? name = none := by rw [Index.get?, hentry]; rfl
    rw [← Index.contains_eq_decide, hcontains, MemoryStore.erase, hnone,
      Index.erase_eq_of_not_contains hcontains]
    exact ⟨rfl, rfl, h⟩
  | some entry =>
    have hcontains : store.index.contains name = true := by rw [Index.contains, hentry]; rfl
    have hsome : store.index.get? name = some entry.id := by rw [Index.get?, hentry]; rfl
    obtain ⟨hmem, rfl⟩ := Index.entry?_eq_some_iff.1 hentry
    rw [← Index.contains_eq_decide, hcontains, MemoryStore.erase, hsome]
    refine ⟨?_, rfl, h.proper.erase entry.name, h.positive, ?_, ?_, ?_⟩
    · obtain ⟨wire, hrow⟩ := h.rowed entry hmem
      refine congrArg Except.ok (decide_eq_true (List.length_filter_lt_length_iff_exists.2 ?_))
      exact ⟨_, hrow, by simp⟩
    · -- the row that goes is that of the one entry that goes
      intro other hother
      obtain ⟨hold, hne⟩ := List.mem_filter.1 hother
      obtain ⟨wire, hrow⟩ := h.rowed other hold
      refine ⟨wire, List.mem_filter.2 ⟨hrow, decide_eq_true fun hid => ?_⟩⟩
      exact of_decide_eq_true hne (congrArg Entry.name (h.distinct other hold entry hmem hid))
    · intro a ha b hb hid
      exact h.distinct a (List.mem_filter.1 ha).1 b (List.mem_filter.1 hb).1 hid
    · intro row hrow
      exact h.given row (List.mem_filter.1 hrow).1

/-! ### What an insertion tells -/

theorem of_insert_eq_ok {after : MemoryStore} {data : Data} {id : Int}
    (done : store.insert data = (.ok id, after)) : data.fullName ∈ after.index.names := by
  unfold insert at done
  split at done
  · cases done
  split at done
  · cases done
  split at done
  · cases done
  split at done
  · cases done
  · next hindex =>
    cases done
    exact ((Index.names_of_insert hindex).2.2 _).2 (Or.inl rfl)

theorem of_insert_eq_duplicate {after : MemoryStore} {data : Data} {name : Name}
    (refused : store.insert data = (.error (.duplicateName name), after)) :
    data.fullName ∈ store.index.names ∧ after = store := by
  unfold insert at refused
  split at refused
  · cases refused
  split at refused
  · next present =>
    cases refused
    rw [Index.contains_eq_decide, decide_eq_true_iff] at present
    exact ⟨present, rfl⟩
  split at refused
  · cases refused
  · split at refused <;> cases refused

end MemoryStore

/-! ## In a table -/

/-- Whether a row is named by the encoding of a full name, which fits into a byte string in memory.
The name need not be one that can be read again. -/
structure Row.Bears (row : Row) (name : Name) : Prop where
  encoded : row.name = name.encodeValue
  fits : name.Fits
  long : 1 < name.components.length

theorem Row.Bears.eq {row : Row} {name other : Name} (h : row.Bears name)
    (encoded : row.name = other.encodeValue) : name = other :=
  (Name.encodeValue_inj h.fits).1 (h.encoded.symm.trans encoded)

/-- Whether a row has the encoding of a name. -/
def Table.Taken (table : Table) (name : Name) : Prop :=
  ∃ row ∈ table.rows, row.name = name.encodeValue

instance (table : Table) (name : Name) : Decidable (table.Taken name) :=
  inferInstanceAs (Decidable (∃ row ∈ table.rows, row.name = name.encodeValue))

/-- What rows with one row more have under a name. -/
theorem Table.exists_row_of_rows_eq {table after : Table} {id : Int} {full : Name} {wire : Bytes}
    (rows : after.rows = table.rows ++ [⟨id, full.encodeValue, wire⟩]) (fits : full.Fits)
    {name : Name} {p : Bytes → Prop} :
    (∃ row ∈ after.rows, row.name = name.encodeValue ∧ p row.data) ↔
      (∃ row ∈ table.rows, row.name = name.encodeValue ∧ p row.data) ∨ name = full ∧ p wire := by
  simp only [rows, List.mem_append, List.mem_singleton, or_and_right, exists_or, exists_eq_left,
    Name.encodeValue_inj fits, eq_comm]

theorem Table.taken_of_rows_eq {table after : Table} {id : Int} {full : Name} {wire : Bytes}
    (rows : after.rows = table.rows ++ [⟨id, full.encodeValue, wire⟩]) (fits : full.Fits)
    {name : Name} : after.Taken name ↔ table.Taken name ∨ name = full := by
  simpa [Taken] using exists_row_of_rows_eq rows fits (p := fun _ => True)

/-- A name that is taken is not written again. -/
theorem Table.insert?_of_taken {table : Table} {name : Name} (taken : table.Taken name)
    (data : Bytes) : table.insert? name.encodeValue data = none :=
  dif_pos taken

namespace DurableStore

/-- Whether the names in the index are those of rows, and every row has a full name, which is in the
index unless the row cannot be read. -/
structure InStep (store : DurableStore) : Prop where
  proper : store.index.Proper
  rowed : ∀ name ∈ store.index.names, store.table.Taken name
  named : ∀ row ∈ store.table.rows, ∃ name, row.Bears name ∧
    (name ∈ store.index.names ∨ entryOfRow? row = none)

variable {store : DurableStore}

/-- The row of a name that is taken. -/
theorem InStep.bears_of_taken (h : store.InStep) {name : Name} (taken : store.table.Taken name) :
    ∃ row ∈ store.table.rows, row.Bears name ∧
      (name ∈ store.index.names ∨ entryOfRow? row = none) := by
  obtain ⟨row, hrow, hencoded⟩ := taken
  obtain ⟨held, hbears, hread⟩ := h.named row hrow
  obtain rfl := hbears.eq hencoded
  exact ⟨row, hrow, hbears, hread⟩

theorem InStep.fits (h : store.InStep) {name : Name} (taken : store.table.Taken name) :
    name.Fits := by
  obtain ⟨_, _, hbears, _⟩ := h.bears_of_taken taken
  exact hbears.fits

/-- The store with one packet more. -/
theorem InStep.insert (h : store.InStep) {data : Data} (nonempty : data.name.isEmpty = false)
    (long : 1 < data.fullName.components.length) (fits : data.fullName.Fits)
    (free : ¬store.table.Taken data.fullName)
    (room : store.index.names.length < store.index.capacity) :
    ∃ newId table index, store.insert data = (.ok newId, ⟨table, index⟩) ∧
      table.rows = store.table.rows ++ [⟨newId, data.fullName.encodeValue, data.wire⟩] ∧
      index.capacity = store.index.capacity ∧
      index.entries.Perm (Index.entryOf data newId :: store.index.entries) ∧
      InStep ⟨table, index⟩ := by
  have hfull : store.index.isFull = false := by
    rw [Index.isFull_eq_decide, decide_eq_false (Nat.not_le.2 room)]
  have habsent : data.fullName ∉ store.index.names := fun present => free (h.rowed _ present)
  obtain ⟨table, htable, hrows, _⟩ := Table.insert?_eq_some data.wire free
  have hpositive : 0 < store.table.lastId + 1 := by
    have := store.table.lastId_nonneg
    omega
  obtain ⟨index, hinsert, hproper, hcapacity, hperm⟩ :=
    h.proper.insert (Index.entryOf data (store.table.lastId + 1)) hpositive long habsent room
  have hnames : index.names.Perm (data.fullName :: store.index.names) := hperm.map Entry.name
  refine ⟨_, table, index, ?_, hrows, hcapacity, hperm, hproper, ?_, ?_⟩
  · rw [DurableStore.insert, nonempty, hfull]
    simp only [Bool.false_eq_true, if_false, htable, hinsert]
  · intro name hname
    refine (Table.taken_of_rows_eq hrows fits).2 ?_
    exact (List.mem_cons.1 (hnames.mem_iff.1 hname)).symm.imp_left (h.rowed name)
  · intro row hrow
    rw [hrows] at hrow
    rcases List.mem_append.1 hrow with hold | hnew
    · obtain ⟨name, hbears, hread⟩ := h.named row hold
      exact ⟨name, hbears,
        hread.imp_left fun hname => hnames.mem_iff.2 (List.mem_cons_of_mem _ hname)⟩
    · obtain rfl := List.mem_singleton.1 hnew
      exact ⟨_, ⟨rfl, fits, long⟩, Or.inl (hnames.mem_iff.2 List.mem_cons_self)⟩

theorem InStep.taken_erase (h : store.InStep) (name : Name) {other : Name} :
    (store.erase name).2.table.Taken other ↔ store.table.Taken other ∧ other ≠ name := by
  constructor
  · rintro ⟨row, hrow, hencoded⟩
    obtain ⟨hold, hkept⟩ := List.mem_filter.1 hrow
    refine ⟨⟨row, hold, hencoded⟩, ?_⟩
    rintro rfl
    exact of_decide_eq_true hkept hencoded
  · rintro ⟨taken, hne⟩
    obtain ⟨row, hrow, hbears, _⟩ := h.bears_of_taken taken
    refine ⟨row, List.mem_filter.2 ⟨hrow, decide_eq_true fun hgone => ?_⟩, hbears.encoded⟩
    exact hne (hbears.eq hgone)

theorem InStep.erase (h : store.InStep) (name : Name) :
    (store.erase name).1 = .ok (decide (store.table.Taken name)) ∧
      (store.erase name).2.index = (store.index.erase name).2 ∧ InStep (store.erase name).2 := by
  refine ⟨?_, rfl, h.proper.erase name, ?_, ?_⟩
  · refine congrArg Except.ok (decide_eq_decide.2 ?_)
    refine Nat.sub_pos_iff_lt.trans (List.length_filter_lt_length_iff_exists.trans ?_)
    simp [Table.Taken]
  · intro other hother
    obtain ⟨hold, hne⟩ := Index.mem_names_erase.1 hother
    exact (h.taken_erase name).2 ⟨h.rowed other hold, hne⟩
  · intro row hrow
    obtain ⟨hold, hkept⟩ := List.mem_filter.1 hrow
    obtain ⟨other, hbears, hread⟩ := h.named row hold
    refine ⟨other, hbears, hread.imp_left fun hother => ?_⟩
    refine Index.mem_names_erase.2 ⟨hother, fun hgone => ?_⟩
    exact of_decide_eq_true hkept (hgone ▸ hbears.encoded)

/-- What a lookup in the table finds is the name of a row that can be read, and extends `q`. -/
theorem InStep.of_mem_rowsUnder (h : store.InStep) {q : Name} {found : Row × Name}
    (hfound : found ∈ rowsUnder store.table q) :
    store.table.Taken found.2 ∧ q.isPrefixOf found.2 ∧ found.2.Sound := by
  obtain ⟨p, hrows, _⟩ := rowsUnder_eq store.table q
  rw [hrows] at hfound
  obtain ⟨row, hrow, hread⟩ := List.mem_filterMap.1 hfound
  obtain ⟨rfl, hdecoded, hunder⟩ := readUnder_eq_some_iff.1 hread
  have hheld := (List.mem_filter.1 (Table.mem_byName.1 hrow)).1
  obtain ⟨name, hbears, _⟩ := h.named _ hheld
  rw [hbears.encoded, Name.decodeValue_encodeValue_eq_ok_iff hbears.fits.writable] at hdecoded
  obtain ⟨hsound, rfl⟩ := hdecoded
  exact ⟨⟨_, hheld, hbears.encoded⟩, hunder, hsound⟩

theorem InStep.exists_mem_rowsUnder (h : store.InStep) {q name : Name}
    (taken : store.table.Taken name) (hunder : q.isPrefixOf name) (sound : name.Sound) :
    ∃ row, (row, name) ∈ rowsUnder store.table q := by
  obtain ⟨row, hrow, hbears, _⟩ := h.bears_of_taken taken
  have hdecoded : Name.decodeValue row.name = .ok name :=
    hbears.encoded ▸ Name.decodeValue_encodeValue hbears.fits.writable sound
  obtain ⟨p, hrows, hp⟩ := rowsUnder_eq store.table q
  rw [hrows]
  refine ⟨row, List.mem_filterMap.2 ⟨row, Table.mem_byName.2 (List.mem_filter.2 ⟨hrow, ?_⟩), ?_⟩⟩
  · exact hp row name ⟨hdecoded, hbears.encoded, hbears.fits⟩ hunder
  · exact readUnder_eq_some_iff.2 ⟨rfl, hdecoded, hunder⟩

/-! ### What an insertion tells -/

/-- A packet that is stored has a new row, and its name is in the index. -/
theorem of_insert_eq_ok {after : DurableStore} {data : Data} {id : Int}
    (done : store.insert data = (.ok id, after)) :
    ¬store.table.Taken data.fullName ∧
      ⟨id, data.fullName.encodeValue, data.wire⟩ ∈ after.table.rows ∧
      data.fullName ∈ after.index.names := by
  unfold insert at done
  split at done
  · cases done
  split at done
  · cases done
  split at done
  · cases done
  next written table hwritten =>
    split at done
    · cases done
    next added index hindex =>
      cases done
      by_cases taken : store.table.Taken data.fullName
      · cases hwritten.symm.trans (Table.insert?_of_taken taken data.wire)
      · obtain ⟨next, hnext, hrows, _⟩ := Table.insert?_eq_some data.wire taken
        obtain ⟨_, _, hnames⟩ := Index.names_of_insert hindex
        rw [hnext] at hwritten
        cases hwritten
        refine ⟨taken, ?_, (hnames _).2 (Or.inl rfl)⟩
        rw [hrows]
        exact List.mem_append_right _ List.mem_cons_self

/-- A packet is turned away as a duplicate if its name is taken in the table, and then nothing
changes. -/
theorem of_insert_eq_duplicate {after : DurableStore} {data : Data} {name : Name}
    (refused : store.insert data = (.error (.duplicateName name), after)) :
    store.table.Taken data.fullName ∧ after = store := by
  unfold insert at refused
  split at refused
  · cases refused
  split at refused
  · cases refused
  split at refused
  · next hnone =>
    cases refused
    refine ⟨?_, rfl⟩
    by_contra free
    obtain ⟨next, hnext, _⟩ := Table.insert?_eq_some data.wire free
    rw [hnext] at hnone
    cases hnone
  · split at refused <;> cases refused

/-! ### Opening again -/

theorem entryOfRow?_eq_some {row : Row} {entry : Entry} (h : entryOfRow? row = some entry) :
    Name.decodeValue row.name = .ok entry.name := by
  unfold entryOfRow? at h
  split at h
  · next name data hname hdata =>
    cases h
    exact hname
  · cases h

/-- An index that rows were added to holds the names of the rows that can be read. -/
theorem names_of_indexRows {rows : List Row} {index after : Index}
    (done : indexRows index rows = .ok after) (room : index.names.length ≤ index.capacity) :
    after.capacity = index.capacity ∧ after.names.length ≤ after.capacity ∧
      ∀ name, name ∈ after.names ↔ name ∈ index.names ∨
        ∃ row ∈ rows, ∃ entry, entryOfRow? row = some entry ∧ entry.name = name := by
  induction rows generalizing index with
  | nil =>
    cases done
    exact ⟨rfl, room, fun name => by simp⟩
  | cons row rest ih =>
    cases hentry : entryOfRow? row with
    | none =>
      simp only [indexRows, hentry] at done
      obtain ⟨hcapacity, hroom, hnames⟩ := ih done room
      refine ⟨hcapacity, hroom, fun name => ?_⟩
      have hfirst : ¬∃ entry, entryOfRow? row = some entry ∧ entry.name = name := by
        rw [hentry]
        rintro ⟨_, ⟨⟩, _⟩
      rw [hnames, List.exists_mem_cons_iff, or_iff_right hfirst]
    | some entry =>
      simp only [indexRows, hentry] at done
      split at done
      · cases done
      · next added next hinsert =>
        obtain ⟨hcapacity, hroom, hnames⟩ := Index.names_of_insert hinsert
        obtain ⟨hcapacity', hroom', hnames'⟩ := ih done (hroom room)
        refine ⟨hcapacity'.trans hcapacity, hroom', fun name => ?_⟩
        have hfirst : (∃ read, entryOfRow? row = some read ∧ read.name = name) ↔
            name = entry.name := by
          rw [hentry]
          constructor
          · rintro ⟨_, ⟨⟩, hname⟩
            exact hname.symm
          · exact fun hname => ⟨entry, rfl, hname.symm⟩
        rw [hnames', hnames, List.exists_mem_cons_iff, hfirst, or_assoc, or_left_comm]

/-- A table whose rows have full names is in step with the index that it is opened with, whatever
the data of the rows. -/
theorem inStep_of_load {table : Table} (named : ∀ row ∈ table.rows, ∃ name, row.Bears name)
    {capacity : Nat} {after : DurableStore} (done : load table capacity = .ok after) :
    after.InStep := by
  unfold DurableStore.load at done
  split at done
  · next index hindex =>
    cases done
    obtain ⟨_, hroom, hnames⟩ := names_of_indexRows hindex (Nat.zero_le _)
    have hread : ∀ row ∈ table.rows, ∀ entry, entryOfRow? row = some entry →
        row.Bears entry.name := by
      intro row hrow entry hentry
      obtain ⟨name, hbears⟩ := named row hrow
      have hdecoded := entryOfRow?_eq_some hentry
      rw [hbears.encoded, Name.decodeValue_encodeValue_eq_ok_iff hbears.fits.writable] at hdecoded
      exact hdecoded.2 ▸ hbears
    have hindexed : ∀ name ∈ index.names, ∃ row ∈ table.rows, row.Bears name := by
      intro name hname
      obtain ⟨row, hrow, entry, hentry, rfl⟩ := ((hnames name).1 hname).resolve_left nofun
      exact ⟨row, hrow, hread row hrow entry hentry⟩
    refine ⟨⟨hroom, ?_⟩, ?_, ?_⟩
    · intro name hname
      obtain ⟨_, _, hbears⟩ := hindexed name hname
      exact hbears.long
    · intro name hname
      obtain ⟨row, hrow, hbears⟩ := hindexed name hname
      exact ⟨row, hrow, hbears.encoded⟩
    · intro row hrow
      cases hentry : entryOfRow? row with
      | none =>
        obtain ⟨name, hbears⟩ := named row hrow
        exact ⟨name, hbears, Or.inr rfl⟩
      | some entry =>
        exact ⟨entry.name, hread row hrow entry hentry,
          Or.inl ((hnames _).2 (Or.inr ⟨row, hrow, entry, hentry, rfl⟩))⟩
  · cases done

/-- A table that is opened again is in step with its index, whatever has become of the data. -/
theorem InStep.load (h : store.InStep) {table : Table}
    (same : table.rows.map Row.name = store.table.rows.map Row.name) {capacity : Nat}
    {after : DurableStore} (done : load table capacity = .ok after) : after.InStep := by
  refine inStep_of_load (fun row hrow => ?_) done
  have hname : row.name ∈ store.table.rows.map Row.name := same ▸ List.mem_map_of_mem hrow
  obtain ⟨held, hheld, hsame⟩ := List.mem_map.1 hname
  obtain ⟨name, hbears, _⟩ := h.named held hheld
  exact ⟨name, hsame ▸ hbears.encoded, hbears.fits, hbears.long⟩

end DurableStore

/-! ## A store of either kind -/

/-- Whether a lookup of names that extend `q` finds a name: one in a table only if it can be read
there. -/
def Kind.Finds (kind : Kind) (q name : Name) : Prop :=
  q.isPrefixOf name ∧ (kind = .durable → name.Sound)

namespace Storage

/-- The full names in a store. -/
def names (storage : Storage) : List Name := storage.index.names

/-- The kind of a store. -/
def kind : Storage → Kind
  | memory _ => .memory
  | durable _ => .durable

/-- Whether some bytes are stored under a full name. -/
def Holds (storage : Storage) (fullName : Name) (wire : Bytes) : Prop :=
  match storage with
  | memory store =>
    ∃ entry ∈ store.index.entries, entry.name = fullName ∧ (entry.id, wire) ∈ store.rows
  | durable store =>
    ∃ row ∈ store.table.rows, row.name = fullName.encodeValue ∧ row.data = wire

/-- Whether a store has room for a packet, and the packet has a name. -/
def Takes (storage : Storage) (data : Data) : Prop :=
  data.name.isEmpty = false ∧ storage.names.length < storage.index.capacity

/-- Whether a name that is not in the index of a store is taken in its table. -/
def Blocks (storage : Storage) (name : Name) : Prop :=
  match storage with
  | memory _ => False
  | durable store => name ∉ store.index.names ∧ store.table.Taken name

/-- Whether a name is in the index of a store, or else taken in its table. -/
def Taken (storage : Storage) (name : Name) : Prop := name ∈ storage.names ∨ storage.Blocks name

/-- Whether the index of a store is in step with its rows. -/
inductive InStep : Storage → Prop where
  | memory {store : MemoryStore} : store.InStep → InStep (.memory store)
  | durable {store : DurableStore} : store.InStep → InStep (.durable store)

/-- Whether a store comes about from one without packets when packets are stored and removed, and
when a table is opened again, whatever has become of the data in its rows. -/
inductive Arises : Storage → Prop where
  | empty (kind : Kind) (capacity : Nat) : Arises (.empty kind capacity)
  | insert {storage : Storage} {data : Data} : Arises storage → data.InMemory →
    Arises (storage.insert data).2
  | erase {storage : Storage} (name : Name) : Arises storage → Arises (storage.erase name).2
  | reopen {store after : DurableStore} {table : Table} {capacity : Nat} :
    Arises (.durable store) → table.rows.map Row.name = store.table.rows.map Row.name →
    DurableStore.load table capacity = .ok after → Arises (.durable after)

/-- Whether a store becomes one of the same kind and capacity that has just some names, and that
blocks just some names. -/
structure Alters (before : Storage) (named blocked : Name → Prop) (after : Storage) : Prop where
  inStep : after.InStep
  kind : after.kind = before.kind
  capacity : after.index.capacity = before.index.capacity
  names : ∀ name, name ∈ after.names ↔ named name
  blocks : ∀ name, after.Blocks name ↔ blocked name

variable {storage : Storage}

theorem has_eq (storage : Storage) (name : Name) :
    Backend.has storage name = .ok (decide (name ∈ storage.names)) := by
  rw [names, ← Index.contains_eq_decide]
  cases storage <;> rfl

theorem Blocks.not_mem {name : Name} (h : storage.Blocks name) : name ∉ storage.names := by
  cases storage with
  | memory store => exact h.elim
  | durable store => exact h.1

theorem Takes.isFull_eq_false {data : Data} (h : storage.Takes data) :
    storage.index.isFull = false := by
  rw [Index.isFull_eq_decide]
  exact decide_eq_false (Nat.not_le.2 h.2)

theorem taken_memory_iff {store : MemoryStore} {name : Name} :
    (memory store).Taken name ↔ name ∈ store.index.names :=
  or_iff_left id

theorem Alters.of_erase {after : Storage} {name : Name} (inStep : after.InStep)
    (kind : after.kind = storage.kind) (index : after.index = (storage.index.erase name).2)
    (blocks : ∀ other, after.Blocks other ↔ storage.Blocks other ∧ other ≠ name) :
    storage.Alters (fun other => other ∈ storage.names ∧ other ≠ name)
      (fun other => storage.Blocks other ∧ other ≠ name) after := by
  refine ⟨inStep, kind, ?_, fun other => ?_, blocks⟩
  · rw [index]
    rfl
  · rw [Storage.names, index]
    exact Index.mem_names_erase

theorem insert_durable (store : DurableStore) (data : Data) :
    Backend.insert (durable store) data = (store.insert data).map id durable :=
  rfl

theorem insert_memory (store : MemoryStore) (data : Data) :
    Backend.insert (memory store) data = (store.insert data).map id memory :=
  rfl

/-- What is stored is there, and its name was not blocked. -/
theorem of_insert_eq_ok {after : Storage} {data : Data} {newId : Int}
    (done : Backend.insert storage data = (.ok newId, after)) :
    data.fullName ∈ after.names ∧ ¬storage.Blocks data.fullName := by
  cases storage with
  | memory store =>
    rw [insert_memory] at done
    obtain ⟨hresult, rfl⟩ := Prod.mk.inj done
    exact ⟨MemoryStore.of_insert_eq_ok (Prod.ext hresult rfl), id⟩
  | durable store =>
    rw [insert_durable] at done
    obtain ⟨hresult, rfl⟩ := Prod.mk.inj done
    obtain ⟨hfree, _, hadded⟩ := DurableStore.of_insert_eq_ok (Prod.ext hresult rfl)
    exact ⟨hadded, fun blocked => hfree blocked.2⟩

/-- What is turned away as a duplicate has a name that is taken. -/
theorem of_insert_eq_duplicate {after : Storage} {data : Data} {name : Name}
    (refused : Backend.insert storage data = (.error (.duplicateName name), after)) :
    storage.Taken data.fullName ∧ after = storage := by
  cases storage with
  | memory store =>
    rw [insert_memory] at refused
    obtain ⟨hresult, rfl⟩ := Prod.mk.inj refused
    obtain ⟨hpresent, hsame⟩ := MemoryStore.of_insert_eq_duplicate (Prod.ext hresult rfl)
    exact ⟨Or.inl hpresent, congrArg memory hsame⟩
  | durable store =>
    rw [insert_durable] at refused
    obtain ⟨hresult, rfl⟩ := Prod.mk.inj refused
    obtain ⟨htaken, hsame⟩ := DurableStore.of_insert_eq_duplicate (Prod.ext hresult rfl)
    by_cases present : data.fullName ∈ store.index.names
    · exact ⟨Or.inl present, congrArg durable hsame⟩
    · exact ⟨Or.inr ⟨present, htaken⟩, congrArg durable hsame⟩

theorem nodup_names (storage : Storage) : storage.names.Nodup := storage.index.nodup_names

namespace InStep

theorem proper (h : storage.InStep) : storage.index.Proper := by
  cases h with
  | memory h => exact h.proper
  | durable h => exact h.proper

/-- A name is taken in a table or it is not, whether it is in the index or not. -/
theorem taken_durable_iff {store : DurableStore} (h : (Storage.durable store).InStep)
    {name : Name} : (Storage.durable store).Taken name ↔ store.table.Taken name := by
  cases h with
  | durable h =>
    constructor
    · rintro (present | ⟨_, taken⟩)
      · exact h.rowed name present
      · exact taken
    · intro taken
      by_cases present : name ∈ store.index.names
      · exact Or.inl present
      · exact Or.inr ⟨present, taken⟩

/-- What blocks a name is a row that cannot be read. -/
theorem unreadable_of_blocks (h : storage.InStep) {name : Name} (blocked : storage.Blocks name) :
    ∃ store, storage = .durable store ∧ ∃ row ∈ store.table.rows, row.name = name.encodeValue ∧
      DurableStore.entryOfRow? row = none := by
  cases h with
  | memory h => exact blocked.elim
  | @durable store h =>
    obtain ⟨row, hrow, hbears, hread⟩ := h.bears_of_taken blocked.2
    exact ⟨store, rfl, row, hrow, hbears.encoded, hread.resolve_left blocked.1⟩

/-- What is there under a name has bytes. -/
theorem exists_holds (h : storage.InStep) {name : Name} (hname : name ∈ storage.names) :
    ∃ wire, storage.Holds name wire := by
  cases h with
  | memory h =>
    obtain ⟨entry, hentry, hsame⟩ := List.mem_map.1 hname
    obtain ⟨wire, hrow⟩ := h.rowed entry hentry
    exact ⟨wire, entry, hentry, hsame, hrow⟩
  | durable h =>
    obtain ⟨row, hrow, hencoded⟩ := h.rowed name hname
    exact ⟨row.data, row, hrow, hencoded, rfl⟩

/-! ### Storing -/

/-- A packet under a new name is stored if there is room for it. -/
theorem insert_of_takes (h : storage.InStep) {data : Data} (small : data.InMemory)
    (free : ¬storage.Taken data.fullName) (takes : storage.Takes data) :
    ∃ newId after, Backend.insert storage data = (.ok newId, after) ∧
      storage.Alters (fun name => name = data.fullName ∨ name ∈ storage.names) storage.Blocks
        after ∧
      ∀ name wire, after.Holds name wire ↔
        storage.Holds name wire ∨ name = data.fullName ∧ wire = data.wire := by
  obtain ⟨nonempty, room⟩ := takes
  have long : 1 < data.fullName.components.length := by
    rw [data.length_fullName]
    have := List.length_pos_iff.2 (List.isEmpty_eq_false_iff.1 nonempty)
    omega
  cases h with
  | @memory store h =>
    have absent : data.fullName ∉ store.index.names := mt taken_memory_iff.2 free
    obtain ⟨index, hinsert, hcapacity, hperm, hafter⟩ := h.insert nonempty long absent room
    have hnames : index.names.Perm (data.fullName :: store.index.names) := hperm.map Entry.name
    refine ⟨_, .memory _, congrArg (Prod.map id Storage.memory) hinsert, ⟨.memory hafter, rfl,
      hcapacity, fun name => hnames.mem_iff.trans List.mem_cons, fun name => Iff.rfl⟩, ?_⟩
    exact fun name wire => h.exists_row_insert hperm
  | @durable store h =>
    have fits := Data.fits_fullName small
    have hfree : ¬store.table.Taken data.fullName := mt (taken_durable_iff (.durable h)).2 free
    obtain ⟨newId, table, index, hinsert, hrows, hcapacity, hperm, hafter⟩ :=
      h.insert nonempty long fits hfree room
    have hnames : index.names.Perm (data.fullName :: store.index.names) := hperm.map Entry.name
    refine ⟨newId, .durable _, congrArg (Prod.map id Storage.durable) hinsert, ⟨.durable hafter,
      rfl, hcapacity, fun name => hnames.mem_iff.trans List.mem_cons, fun name => ?_⟩, ?_⟩
    · show name ∉ index.names ∧ table.Taken name ↔
        name ∉ store.index.names ∧ store.table.Taken name
      rw [hnames.mem_iff, List.mem_cons, not_or, Table.taken_of_rows_eq hrows fits]
      constructor
      · rintro ⟨⟨hne, habsent⟩, taken⟩
        exact ⟨habsent, taken.resolve_right hne⟩
      · rintro ⟨habsent, taken⟩
        refine ⟨⟨?_, habsent⟩, Or.inl taken⟩
        rintro rfl
        exact hfree taken
    · intro name wire
      refine (Table.exists_row_of_rows_eq hrows fits (p := (· = wire))).trans ?_
      exact or_congr_right (and_congr_right fun _ => eq_comm)

/-- Else it is refused, and nothing changes; as a duplicate only if its name is there, or there is
room. -/
theorem insert_of_not_takes (h : storage.InStep) {data : Data}
    (refused : storage.Taken data.fullName ∨ ¬storage.Takes data) :
    ∃ cause, Backend.insert storage data = (.error cause, storage) ∧
      ∀ name, cause = .duplicateName name →
        data.fullName ∈ storage.names ∨ storage.Takes data := by
  have hfull : ¬storage.Takes data → data.name.isEmpty = false →
      storage.index.isFull = true := by
    intro hnot nonempty
    rw [Index.isFull_eq_decide, decide_eq_true_iff]
    exact Nat.le_of_not_lt fun room => hnot ⟨nonempty, room⟩
  cases h with
  | @memory store h =>
    have hcontains : store.index.contains data.fullName = _ := Index.contains_eq_decide _ _
    rw [insert_memory, MemoryStore.insert, hcontains]
    cases hempty : data.name.isEmpty with
    | true => exact ⟨_, rfl, by rintro _ ⟨⟩⟩
    | false =>
      by_cases present : data.fullName ∈ store.index.names
      · rw [decide_eq_true present]
        exact ⟨_, rfl, fun _ _ => Or.inl present⟩
      · have hnot := refused.resolve_left (mt taken_memory_iff.1 present)
        rw [decide_eq_false present, show store.index.isFull = true from hfull hnot hempty]
        exact ⟨_, rfl, by rintro _ ⟨⟩⟩
  | @durable store h =>
    rw [insert_durable, DurableStore.insert]
    cases hempty : data.name.isEmpty with
    | true => exact ⟨_, rfl, by rintro _ ⟨⟩⟩
    | false =>
      by_cases takes : (Storage.durable store).Takes data
      · have htaken : store.table.Taken data.fullName :=
          (taken_durable_iff (.durable h)).1 (refused.resolve_right (not_not.2 takes))
        rw [show store.index.isFull = false from takes.isFull_eq_false,
          Table.insert?_of_taken htaken]
        exact ⟨_, rfl, fun _ _ => Or.inr takes⟩
      · rw [show store.index.isFull = true from hfull takes hempty]
        exact ⟨_, rfl, by rintro _ ⟨⟩⟩

/-- What is held after a packet was given was held before, or it is the packet under a new name. -/
theorem holds_of_insert (h : storage.InStep) {data : Data} (small : data.InMemory) :
    (storage.insert data).2.InStep ∧
      (∀ name, (storage.insert data).2.Blocks name ↔ storage.Blocks name) ∧
      ∀ name wire, (storage.insert data).2.Holds name wire →
        storage.Holds name wire ∨
          data.fullName ∉ storage.names ∧ name = data.fullName ∧ wire = data.wire := by
  show (Backend.insert storage data).2.InStep ∧
    (∀ name, (Backend.insert storage data).2.Blocks name ↔ _) ∧ ∀ name wire,
      (Backend.insert storage data).2.Holds name wire → _
  by_cases refused : storage.Taken data.fullName ∨ ¬storage.Takes data
  · obtain ⟨cause, hrefused, _⟩ := h.insert_of_not_takes refused
    rw [hrefused]
    exact ⟨h, fun _ => Iff.rfl, fun _ _ => Or.inl⟩
  · obtain ⟨free, takes⟩ := not_or.1 refused
    obtain ⟨newId, after, hdone, halters, hholds⟩ :=
      h.insert_of_takes small free (not_not.1 takes)
    have absent : data.fullName ∉ storage.names := fun present => free (Or.inl present)
    rw [hdone]
    exact ⟨halters.inStep, halters.blocks, fun name wire there =>
      ((hholds name wire).1 there).imp_right fun hnew => ⟨absent, hnew⟩⟩

/-! ### Erasing -/

/-- A name is erased if it is taken. -/
theorem erase_eq (h : storage.InStep) (name : Name) :
    ∃ erased after, Backend.erase storage name = (.ok erased, after) ∧
      (erased = true ↔ storage.Taken name) ∧
      storage.Alters (fun other => other ∈ storage.names ∧ other ≠ name)
        (fun other => storage.Blocks other ∧ other ≠ name) after := by
  cases h with
  | @memory store h =>
    obtain ⟨hresult, hindex, hafter⟩ := h.erase name
    exact ⟨_, .memory (store.erase name).2, Prod.ext hresult rfl,
      decide_eq_true_iff.trans taken_memory_iff.symm,
      .of_erase (.memory hafter) rfl hindex fun _ => iff_of_false id And.left⟩
  | @durable store h =>
    obtain ⟨hresult, hindex, hafter⟩ := h.erase name
    refine ⟨_, .durable (store.erase name).2, Prod.ext hresult rfl,
      decide_eq_true_iff.trans (taken_durable_iff (.durable h)).symm,
      .of_erase (.durable hafter) rfl hindex fun other => ?_⟩
    show other ∉ (store.erase name).2.index.names ∧ (store.erase name).2.table.Taken other ↔
      (other ∉ store.index.names ∧ store.table.Taken other) ∧ other ≠ name
    rw [hindex, Index.mem_names_erase, h.taken_erase name]
    tauto

theorem erase (h : storage.InStep) (name : Name) : (storage.erase name).2.InStep ∧
    ∀ other, (storage.erase name).2.Blocks other → storage.Blocks other := by
  obtain ⟨_, after, hdone, _, halters⟩ := h.erase_eq name
  show (Backend.erase storage name).2.InStep ∧
    ∀ other, (Backend.erase storage name).2.Blocks other → _
  rw [hdone]
  exact ⟨halters.inStep, fun other blocked => ((halters.blocks other).1 blocked).1⟩

/-- A lookup finds one of the names that there are to be found, if there are any. -/
theorem find_cases (h : storage.InStep) (q : Name) :
    (Backend.find storage q .extending = .ok none ∧
      ∀ name, storage.Taken name → ¬storage.kind.Finds q name) ∨
    ∃ found, Backend.find storage q .extending = .ok (some found) ∧
      storage.Taken found.name ∧ storage.kind.Finds q found.name := by
  cases h with
  | @memory store h =>
    have hfind : Backend.find (Storage.memory store) q .extending =
        .ok ((store.index.find? q).map fun entry => ⟨entry.id, entry.name⟩) := rfl
    rw [hfind]
    cases hfound : store.index.find? q with
    | none =>
      refine Or.inl ⟨rfl, ?_⟩
      intro name taken finds
      obtain ⟨entry, hentry, rfl⟩ := List.mem_map.1 (taken_memory_iff.1 taken)
      exact Index.find?_eq_none_iff.1 hfound entry hentry finds.1
    | some entry =>
      obtain ⟨hentry, hunder⟩ := Index.mem_of_find? hfound
      exact Or.inr ⟨_, rfl, Or.inl (List.mem_map_of_mem hentry), hunder, nofun⟩
  | @durable store h =>
    have htaken := fun name => @taken_durable_iff store (.durable h) name
    have hfind : Backend.find (Storage.durable store) q .extending =
        .ok ((DurableStore.rowsUnder store.table q).head?.map
          fun found => ⟨found.1.id, found.2⟩) := rfl
    rw [hfind]
    cases hrows : DurableStore.rowsUnder store.table q with
    | nil =>
      refine Or.inl ⟨rfl, ?_⟩
      intro name taken finds
      obtain ⟨row, hrow⟩ :=
        h.exists_mem_rowsUnder ((htaken name).1 taken) finds.1 (finds.2 rfl)
      rw [hrows] at hrow
      cases hrow
    | cons found rest =>
      obtain ⟨hname, hunder, hsound⟩ := h.of_mem_rowsUnder (hrows ▸ List.mem_cons_self)
      exact Or.inr ⟨_, rfl, (htaken _).2 hname, hunder, fun _ => hsound⟩

end InStep

/-! ### Stores that come about -/

theorem inStep_empty (kind : Kind) (capacity : Nat) : (empty kind capacity).InStep := by
  cases kind with
  | memory => exact .memory ⟨Index.proper_empty capacity, Int.one_pos, nofun, nofun, nofun⟩
  | durable => exact .durable ⟨Index.proper_empty capacity, nofun, nofun⟩

/-- A store without packets blocks no name. -/
theorem not_blocks_empty (kind : Kind) (capacity : Nat) (name : Name) :
    ¬(empty kind capacity).Blocks name := by
  cases kind with
  | memory => exact id
  | durable => exact fun blocked => absurd blocked.2.choose_spec.1 List.not_mem_nil

theorem Arises.inStep (h : storage.Arises) : storage.InStep := by
  induction h with
  | empty kind capacity => exact inStep_empty kind capacity
  | insert _ small ih => exact (ih.holds_of_insert small).1
  | erase name _ ih => exact (ih.erase name).1
  | reopen _ same done ih =>
    cases ih with
    | durable h => exact .durable (h.load same done)

end Storage

end Store

/-! ## Repositories -/

namespace Repo

open Store

variable {repo : Repo Storage}

theorem has_eq (repo : Repo Storage) (name : Name) :
    repo.has name = .ok (decide (name ∈ repo.backend.names)) := by
  rw [has, Storage.has_eq]
  rfl

/-- A packet is taken for stored if its name is there. -/
theorem insert_of_mem {data : Data} (present : data.fullName ∈ repo.backend.names) :
    repo.insert data = (.ok .alreadyPresent, repo) := by
  rw [insert, Storage.has_eq, decide_eq_true present]

/-- It is taken for stored also if its name is blocked, as long as there is room for it. -/
theorem insert_of_blocks {data : Data} (blocked : repo.backend.Blocks data.fullName)
    (takes : repo.backend.Takes data) : repo.insert data = (.ok .alreadyPresent, repo) := by
  obtain ⟨storage, sent⟩ := repo
  have hinsert : Backend.insert storage data =
      (.error (.duplicateName data.fullName), storage) := by
    cases storage with
    | memory store => exact blocked.elim
    | durable store =>
      have hvacant : store.index.isFull = false := takes.isFull_eq_false
      rw [Storage.insert_durable, DurableStore.insert, takes.1, hvacant,
        Table.insert?_of_taken blocked.2]
      rfl
  rw [insert, Storage.has_eq, decide_eq_false blocked.not_mem]
  simp only [hinsert]

/-- A packet under a new name is stored if there is room for it. -/
theorem insert_of_takes (h : repo.backend.InStep) {data : Data} (small : data.InMemory)
    (free : ¬repo.backend.Taken data.fullName) (takes : repo.backend.Takes data) :
    ∃ newId after, repo.insert data = (.ok (.inserted newId), after) ∧
      repo.backend.Alters (fun name => name = data.fullName ∨ name ∈ repo.backend.names)
        repo.backend.Blocks after.backend ∧
      ∀ name wire, after.backend.Holds name wire ↔
        repo.backend.Holds name wire ∨ name = data.fullName ∧ wire = data.wire := by
  obtain ⟨newId, after, hdone, halters, hholds⟩ := h.insert_of_takes small free takes
  refine ⟨newId, ⟨after, repo.sent ++ [.inserted data.name]⟩, ?_, halters, hholds⟩
  rw [insert, Storage.has_eq, decide_eq_false fun present => free (Or.inl present)]
  simp only [hdone]

/-- Else it is refused, and nothing changes. -/
theorem insert_of_not_takes (h : repo.backend.InStep) {data : Data}
    (absent : data.fullName ∉ repo.backend.names) (refused : ¬repo.backend.Takes data) :
    ∃ cause, repo.insert data = (.error cause, repo) := by
  obtain ⟨cause, hdone, hduplicate⟩ := h.insert_of_not_takes (Or.inr refused)
  rw [insert, Storage.has_eq, decide_eq_false absent]
  simp only [hdone]
  cases cause with
  | duplicateName name => exact absurd (hduplicate name rfl) (not_or.2 ⟨absent, refused⟩)
  | _ => exact ⟨_, rfl⟩

/-- What is there after a packet was given is what was there and, if its name is new, the packet. -/
theorem holds_of_insert (h : repo.backend.InStep) {data : Data} (small : data.InMemory) :
    (repo.insert data).2.backend.InStep ∧
      ∀ name wire, (repo.insert data).2.backend.Holds name wire →
        repo.backend.Holds name wire ∨
          data.fullName ∉ repo.backend.names ∧ name = data.fullName ∧ wire = data.wire := by
  by_cases present : data.fullName ∈ repo.backend.names
  · rw [insert_of_mem present]
    exact ⟨h, fun _ _ => Or.inl⟩
  · have hbackend : (repo.insert data).2.backend = (repo.backend.insert data).2 := by
      show _ = (Backend.insert repo.backend data).2
      rw [insert, Storage.has_eq, decide_eq_false present]
      rcases Backend.insert repo.backend data with ⟨cause | newId, after⟩
      · cases cause <;> rfl
      · rfl
    rw [hbackend]
    obtain ⟨hinStep, _, hholds⟩ := h.holds_of_insert small
    exact ⟨hinStep, hholds⟩

/-- A packet that was not refused, by any store, is there unless its name was blocked. -/
theorem mem_of_insert_iff {data : Data} {outcome : InsertOutcome} {after : Repo Storage}
    (done : repo.insert data = (.ok outcome, after)) :
    data.fullName ∈ after.backend.names ↔ ¬repo.backend.Blocks data.fullName := by
  by_cases present : data.fullName ∈ repo.backend.names
  · rw [insert_of_mem present] at done
    cases done
    exact iff_of_true present fun blocked => blocked.not_mem present
  · rw [insert, Storage.has_eq, decide_eq_false present] at done
    simp only at done
    split at done
    · next hinsert =>
      cases done
      obtain ⟨hadded, hfree⟩ := Storage.of_insert_eq_ok hinsert
      exact iff_of_true hadded hfree
    · next hinsert =>
      cases done
      obtain ⟨htaken, rfl⟩ := Storage.of_insert_eq_duplicate hinsert
      exact iff_of_false present (not_not.2 (htaken.resolve_left present))
    · cases done

/-- Deleting a name takes away the names that a lookup of it finds. -/
theorem delete_alters (h : repo.backend.InStep) (q : Name) :
    repo.backend.Alters
      (fun name => name ∈ repo.backend.names ∧ ¬repo.backend.kind.Finds q name)
      (fun name => repo.backend.Blocks name ∧ ¬repo.backend.kind.Finds q name)
      (repo.delete q).2.backend := by
  rw [delete]
  generalize 0 = n
  fun_induction repo.deleteFrom q n with
  | case1 repo n cause hfound =>
    rcases h.find_cases q with ⟨hnone, _⟩ | ⟨_, hsome, _⟩
    · rw [hfound] at hnone
      cases hnone
    · rw [hfound] at hsome
      cases hsome
  | case2 repo n hfound =>
    rcases h.find_cases q with ⟨_, hnone⟩ | ⟨_, hsome, _⟩
    · exact ⟨h, rfl, rfl,
        fun name => ⟨fun hname => ⟨hname, hnone name (Or.inl hname)⟩, And.left⟩,
        fun name => ⟨fun blocked => ⟨blocked, hnone name (Or.inr blocked)⟩, And.left⟩⟩
    · rw [hfound] at hsome
      cases hsome
  | case3 repo n found hfound backend hgone ih =>
    obtain ⟨_, after, herased, _, hafter, hkind, hcapacity, hnames, hblocks⟩ :=
      h.erase_eq found.name
    rcases h.find_cases q with ⟨hnone, _⟩ | ⟨_, hsome, _, hfinds⟩
    · rw [hfound] at hnone
      cases hnone
    · cases hfound.symm.trans hsome
      obtain rfl := congrArg Prod.snd (hgone.symm.trans herased)
      obtain ⟨hlast, hlastKind, hlastCapacity, hlastNames, hlastBlocks⟩ := ih hafter
      -- what is not found in the end is not what was found first
      have hrest : ∀ {p : Prop} {name : Name},
          (p ∧ name ≠ found.name) ∧ ¬repo.backend.kind.Finds q name ↔
            p ∧ ¬repo.backend.kind.Finds q name := by
        intro p name
        rw [and_assoc, and_congr_right_iff]
        intro _
        refine and_iff_right_of_imp ?_
        rintro hnot rfl
        exact hnot hfinds
      refine ⟨hlast, hlastKind.trans hkind, hlastCapacity.trans hcapacity, fun name => ?_,
        fun name => ?_⟩
      · rw [hlastNames, hnames, hkind, hrest]
      · rw [hlastBlocks, hblocks, hkind, hrest]
  | case4 repo n found hfound result backend hkept hgone =>
    obtain ⟨_, after, herased, hiff, _⟩ := h.erase_eq found.name
    rcases h.find_cases q with ⟨hnone, _⟩ | ⟨_, hsome, htaken, _⟩
    · rw [hfound] at hnone
      cases hnone
    · cases hfound.symm.trans hsome
      rw [hiff.2 htaken] at herased
      cases hgone.symm.trans herased
      exact absurd rfl hkept

end Repo

end NamedData
