import NamedData.Proofs.Store.Presence
/-!
# Entries that lead to no row

A store erases a row by its id, and then looks for the entry of the row under the name that it reads
from the row. A name with a digest component of a wrong length can be written and not be read again:
the entry of such a row stays, with the id of a row that is gone. It stays until its name is
erased; a packet of that name that comes in meanwhile gets a row under another id, and the entry
keeps the old one.

    store.Worked → store.Tracks                                                        (tracks)
    store.Tracks → a row is erased by its id with its entry, or its name cannot be read
                                                                               (eraseById_cases)
    store.Tracks → as many entries as rows and orphans                               (size_index)
-/

namespace NamedData.Store.DurableStore

/-! ## The invariant -/

/-- Whether a store comes about from one without packets when packets are given to it, and erased by
their names and by the ids of their rows. -/
inductive Worked : DurableStore → Prop where
  | empty (capacity : Nat) : Worked ⟨.empty, .empty capacity⟩
  | insert {store : DurableStore} {data : Data} : Worked store → data.InMemory →
    Worked (store.insert data).2
  | erase {store : DurableStore} (name : Name) : Worked store → Worked (store.erase name).2
  | eraseById {store : DurableStore} (id : Int) : Worked store → Worked (store.eraseById id).2

/-- Whether there is no row under the name of an entry. -/
def orphaned (store : DurableStore) (entry : Entry) : Bool :=
  (store.table.rowOfName? entry.name.encodeValue).isNone

/-- The entries without a row. -/
def orphans (store : DurableStore) : List Entry := store.index.entries.filter store.orphaned

theorem orphaned_eq_false_iff {store : DurableStore} {entry : Entry} :
    store.orphaned entry = false ↔
      ∃ row ∈ store.table.rows, row.name = entry.name.encodeValue := by
  simp [orphaned, Table.rowOfName?]

/-- Whether every row has an entry, every entry whose name can be read a row of its id, and no two
entries one id. -/
structure Tracks (store : DurableStore) : Prop where
  fits : ∀ entry ∈ store.index.entries, entry.name.Fits
  indexed : ∀ row ∈ store.table.rows,
    ∃ entry ∈ store.index.entries, row.name = entry.name.encodeValue
  rowed : ∀ entry ∈ store.index.entries, entry.name.Sound →
    ∃ row ∈ store.table.rows, row.name = entry.name.encodeValue ∧ row.id = entry.id
  given : ∀ entry ∈ store.index.entries, entry.id ≤ store.table.lastId
  distinct : ∀ a ∈ store.index.entries, ∀ b ∈ store.index.entries, a.id = b.id → a = b

namespace Tracks

variable {store : DurableStore}

theorem empty (capacity : Nat) : Tracks ⟨.empty, .empty capacity⟩ :=
  ⟨nofun, nofun, nofun, nofun, nofun⟩

/-! ### Storing -/

/-- A row under a name that the index has already, from an orphan, leaves the index as it is. -/
theorem add_row (h : store.Tracks) {table : Table} {row : Row} {entry : Entry}
    (hrows : table.rows = store.table.rows ++ [row]) (hlast : store.table.lastId ≤ table.lastId)
    (hentry : entry ∈ store.index.entries) (hname : row.name = entry.name.encodeValue) :
    Tracks ⟨table, store.index⟩ := by
  refine ⟨h.fits, ?_, ?_, fun e he => Int.le_trans (h.given e he) hlast, h.distinct⟩
  · intro r hr
    rw [hrows] at hr
    rcases List.mem_append.1 hr with hold | hnew
    · exact h.indexed r hold
    · rw [List.mem_singleton.1 hnew]
      exact ⟨entry, hentry, hname⟩
  · intro e he sound
    obtain ⟨r, hr, hfound⟩ := h.rowed e he sound
    exact ⟨r, hrows ▸ List.mem_append_left _ hr, hfound⟩

/-- A row and its entry are added. -/
theorem add (h : store.Tracks) {table : Table} {index : Index} {row : Row} {new : Entry}
    (hrows : table.rows = store.table.rows ++ [row])
    (hentries : index.entries.Perm (new :: store.index.entries))
    (hid : row.id = new.id) (hname : row.name = new.name.encodeValue) (fits : new.name.Fits)
    (hnew : store.table.lastId < new.id) (hlast : new.id ≤ table.lastId) :
    Tracks ⟨table, index⟩ := by
  have hmem : ∀ e, e ∈ index.entries ↔ e = new ∨ e ∈ store.index.entries :=
    fun e => hentries.mem_iff.trans List.mem_cons
  have hlt : ∀ e ∈ store.index.entries, e.id < new.id :=
    fun e he => Int.lt_of_le_of_lt (h.given e he) hnew
  refine ⟨?_, ?_, ?_, ?_, ?_⟩
  · intro e he
    rcases (hmem e).1 he with rfl | hold
    · exact fits
    · exact h.fits e hold
  · intro r hr
    rw [hrows] at hr
    rcases List.mem_append.1 hr with hold | hlast
    · obtain ⟨e, he, hfound⟩ := h.indexed r hold
      exact ⟨e, (hmem e).2 (Or.inr he), hfound⟩
    · rw [List.mem_singleton.1 hlast]
      exact ⟨new, (hmem new).2 (Or.inl rfl), hname⟩
  · intro e he sound
    rcases (hmem e).1 he with rfl | hold
    · exact ⟨row, hrows ▸ List.mem_append_right _ List.mem_cons_self, hname, hid⟩
    · obtain ⟨r, hr, hfound⟩ := h.rowed e hold sound
      exact ⟨r, hrows ▸ List.mem_append_left _ hr, hfound⟩
  · intro e he
    rcases (hmem e).1 he with rfl | hold
    · exact hlast
    · exact Int.le_of_lt (Int.lt_of_lt_of_le (hlt e hold) hlast)
  · intro a ha b hb same
    rcases (hmem a).1 ha with rfl | ha <;> rcases (hmem b).1 hb with rfl | hb
    · rfl
    · exact absurd same.symm (Int.ne_of_lt (hlt b hb))
    · exact absurd same (Int.ne_of_lt (hlt a ha))
    · exact h.distinct a ha b hb same

theorem insert (h : store.Tracks) {data : Data} (small : data.InMemory) :
    Tracks (store.insert data).2 := by
  unfold DurableStore.insert
  split
  · exact h
  split
  · exact h
  next vacant =>
    by_cases taken : ∃ row ∈ store.table.rows, row.name = data.fullName.encodeValue
    · rw [Table.insert?, dif_pos taken]
      exact h
    · obtain ⟨table, htable, hrows, hlast⟩ := Table.insert?_eq_some data.wire taken
      have hgrown : store.table.lastId < store.table.lastId + 1 := Int.lt_succ _
      have hpositive : 0 < (Index.entryOf data (store.table.lastId + 1)).id :=
        Int.lt_of_le_of_lt store.table.lastId_nonneg hgrown
      simp only [htable]
      cases present : store.index.contains data.fullName with
      | true =>
        obtain ⟨entry, hentry, hname⟩ := Index.contains_eq_true_iff.1 present
        rw [Index.insert_of_contains hpositive present]
        exact h.add_row hrows (hlast ▸ Int.le_of_lt hgrown) hentry (hname ▸ rfl)
      | false =>
        obtain ⟨index, hinsert, _, hentries⟩ :=
          Index.insert_of_vacant hpositive present (Bool.eq_false_iff.2 vacant)
        rw [hinsert]
        have hfits := Data.fits_fullName small
        exact h.add hrows hentries rfl rfl hfits hgrown (Int.le_of_eq hlast.symm)

/-! ### Erasing -/

/-- Rows and entries go together, but an entry whose name cannot be read may stay without its
row. -/
theorem keep (h : store.Tracks) {p : Row → Bool} {index : Index} {q : Entry → Bool}
    (hentries : index.entries = store.index.entries.filter q)
    (agree : ∀ row ∈ store.table.rows, ∀ entry ∈ store.index.entries,
      row.name = entry.name.encodeValue →
      (p row = true → q entry = true) ∧ (entry.name.Sound → q entry = true → p row = true)) :
    Tracks ⟨store.table.keep p, index⟩ := by
  have hmem : ∀ e, e ∈ index.entries ↔ e ∈ store.index.entries ∧ q e = true :=
    fun e => hentries ▸ List.mem_filter
  refine ⟨fun e he => h.fits e ((hmem e).1 he).1, ?_, ?_,
    fun e he => h.given e ((hmem e).1 he).1,
    fun a ha b hb => h.distinct a ((hmem a).1 ha).1 b ((hmem b).1 hb).1⟩
  · intro row hrow
    obtain ⟨hold, hkept⟩ := List.mem_filter.1 hrow
    obtain ⟨e, he, hname⟩ := h.indexed row hold
    exact ⟨e, (hmem e).2 ⟨he, (agree row hold e he hname).1 hkept⟩, hname⟩
  · intro e he sound
    obtain ⟨hold, hkept⟩ := (hmem e).1 he
    obtain ⟨row, hrow, hname, hid⟩ := h.rowed e hold sound
    exact ⟨row, List.mem_filter.2 ⟨hrow, (agree row hrow e hold hname).2 sound hkept⟩, hname, hid⟩

theorem erase (h : store.Tracks) (name : Name) : Tracks (store.erase name).2 := by
  refine h.keep rfl fun row _ entry hentry hname => ?_
  have hsame : row.name = name.encodeValue ↔ entry.name = name := by
    rw [hname, Name.encodeValue_inj (h.fits entry hentry)]
  rw [decide_eq_decide.2 (not_congr hsame)]
  exact ⟨id, fun _ => id⟩

/-- A row is erased by its id. Its name can be read, and the entry of that id goes with it, or it
cannot, and the index stays as it is. -/
theorem eraseById_cases (h : store.Tracks) {id : Int} (erased : (store.eraseById id).1 = true) :
    ∃ row ∈ store.table.rows, row.id = id ∧
      ∃ entry ∈ store.index.entries, row.name = entry.name.encodeValue ∧
        (entry.name.Sound ∧ entry.id = id ∧ (store.eraseById id).2 =
            ⟨store.table.eraseId id, (store.index.erase entry.name).2⟩ ∨
          ¬entry.name.Sound ∧ (store.eraseById id).2 = ⟨store.table.eraseId id, store.index⟩) := by
  cases hfound : store.table.rowOfId? id with
  | none =>
    rw [eraseById, hfound] at erased
    cases erased
  | some row =>
    obtain ⟨hrow, hid⟩ := Table.mem_of_rowOfId? hfound
    obtain ⟨entry, hentry, hname⟩ := h.indexed row hrow
    have hread : ∀ {name}, Name.decodeValue row.name = .ok name ↔
        entry.name.Sound ∧ entry.name = name := by
      rw [hname]
      exact Name.decodeValue_encodeValue_eq_ok_iff (h.fits entry hentry).writable
    refine ⟨row, hrow, hid, entry, hentry, hname, ?_⟩
    rw [eraseById, hfound]
    simp only
    cases hdecoded : Name.decodeValue row.name with
    | ok name =>
      obtain ⟨sound, rfl⟩ := hread.1 hdecoded
      obtain ⟨other, hother, hsame, hids⟩ := h.rowed entry hentry sound
      obtain rfl := Table.eq_of_name_eq hother hrow (hsame.trans hname.symm)
      exact Or.inl ⟨sound, hids.symm.trans hid, rfl⟩
    | error cause =>
      refine Or.inr ⟨fun sound => ?_, rfl⟩
      rw [hread.2 ⟨sound, rfl⟩] at hdecoded
      cases hdecoded

theorem eraseById (h : store.Tracks) (id : Int) : Tracks (store.eraseById id).2 := by
  cases erased : (store.eraseById id).1 with
  | false =>
    unfold DurableStore.eraseById at erased ⊢
    split at erased
    · exact h
    · cases erased
  | true =>
    obtain ⟨row, hrow, hid, entry, hentry, hname, hcases⟩ := h.eraseById_cases erased
    -- the row that goes is the one under the name of the entry
    have hgone : ∀ other ∈ store.table.rows, ∀ e ∈ store.index.entries,
        other.name = e.name.encodeValue → (other.id = id ↔ e.name = entry.name) := by
      intro other hother e he hsame
      rw [← hid]
      constructor
      · intro hids
        obtain rfl := Table.eq_of_id_eq hother hrow hids
        exact (Name.encodeValue_inj (h.fits e he)).1 (hsame.symm.trans hname)
      · intro hnames
        rw [Table.eq_of_name_eq hother hrow (hsame.trans (hnames ▸ hname.symm))]
    rcases hcases with ⟨_, _, hafter⟩ | ⟨unsound, hafter⟩
    · rw [hafter]
      refine h.keep rfl fun other hother e he hsame => ?_
      rw [decide_eq_decide.2 (not_congr (hgone other hother e he hsame))]
      exact ⟨fun kept => kept, fun _ kept => kept⟩
    · rw [hafter]
      have hall : store.index.entries = store.index.entries.filter fun _ => true :=
        (List.filter_eq_self.2 fun _ _ => rfl).symm
      refine h.keep hall fun other hother e he hsame => ⟨fun _ => rfl, fun sound _ => ?_⟩
      refine decide_eq_true fun hids => unsound ?_
      exact (hgone other hother e he hsame).1 hids ▸ sound

end Tracks

theorem Worked.tracks {store : DurableStore} (h : store.Worked) : store.Tracks := by
  induction h with
  | empty capacity => exact .empty capacity
  | insert _ small ih => exact ih.insert small
  | erase name _ ih => exact ih.erase name
  | eraseById id _ ih => exact ih.eraseById id

/-! ## Orphans -/

namespace Tracks

variable {store : DurableStore}

/-- The entries that have a row are as many as the rows. -/
theorem length_filter_not_orphaned (h : store.Tracks) :
    (store.index.entries.filter fun entry => !store.orphaned entry).length =
      store.table.rows.length := by
  have hmem : ∀ entry, (entry ∈ store.index.entries.filter fun entry => !store.orphaned entry) ↔
      entry ∈ store.index.entries ∧
        ∃ row ∈ store.table.rows, row.name = entry.name.encodeValue := by
    intro entry
    rw [List.mem_filter, Bool.not_eq_true', orphaned_eq_false_iff]
  have hentries : ((store.index.entries.filter fun entry => !store.orphaned entry).map
      fun entry => entry.name.encodeValue).Nodup := by
    refine List.Nodup.map_on ?_ (store.index.nodup_names.of_map.filter _)
    intro a ha b hb hsame
    have ha := (List.mem_filter.1 ha).1
    have hb := (List.mem_filter.1 hb).1
    exact Index.eq_of_name_eq ha hb ((Name.encodeValue_inj (h.fits a ha)).1 hsame)
  have hrows : (store.table.rows.map Row.name).Nodup :=
    List.pairwise_map.2 store.table.names_distinct
  have hperm : ((store.index.entries.filter fun entry => !store.orphaned entry).map
      fun entry => entry.name.encodeValue).Perm (store.table.rows.map Row.name) := by
    refine (List.perm_ext_iff_of_nodup hentries hrows).2 fun name => ?_
    rw [List.mem_map, List.mem_map]
    constructor
    · rintro ⟨entry, hentry, rfl⟩
      obtain ⟨_, row, hrow, hname⟩ := (hmem entry).1 hentry
      exact ⟨row, hrow, hname⟩
    · rintro ⟨row, hrow, rfl⟩
      obtain ⟨entry, hentry, hname⟩ := h.indexed row hrow
      exact ⟨entry, (hmem entry).2 ⟨hentry, row, hrow, hname⟩, hname.symm⟩
  simpa only [List.length_map] using hperm.length_eq

theorem size_index (h : store.Tracks) :
    store.index.size = store.table.rows.length + store.orphans.length := by
  rw [Index.size, List.length_eq_length_filter_add store.orphaned, h.length_filter_not_orphaned,
    Nat.add_comm]
  rfl

/-- An entry whose name can be read has its row. -/
theorem not_sound_of_mem_orphans (h : store.Tracks) {entry : Entry}
    (hentry : entry ∈ store.orphans) : ¬entry.name.Sound := by
  intro sound
  obtain ⟨hmem, horphaned⟩ := List.mem_filter.1 hentry
  obtain ⟨row, hrow, hname, _⟩ := h.rowed entry hmem sound
  rw [orphaned_eq_false_iff.2 ⟨row, hrow, hname⟩] at horphaned
  cases horphaned

/-- The entry of the id goes if its name can be read, and no other goes. -/
theorem mem_entries_eraseById_iff (h : store.Tracks) {id : Int}
    (erased : (store.eraseById id).1 = true) {entry : Entry} :
    entry ∈ (store.eraseById id).2.index.entries ↔
      entry ∈ store.index.entries ∧ (entry.id = id → ¬entry.name.Sound) := by
  obtain ⟨row, hrow, hid, gone, hgone, hname, ⟨sound, hsame, hafter⟩ | ⟨unsound, hafter⟩⟩ :=
    h.eraseById_cases erased
  · rw [hafter]
    refine List.mem_filter.trans (and_congr_right fun hentry => ?_)
    rw [decide_eq_true_iff]
    constructor
    · intro hne hids _
      exact hne (congrArg Entry.name (h.distinct entry hentry gone hgone (hids.trans hsame.symm)))
    · intro hunsound hnames
      obtain rfl := Index.eq_of_name_eq hentry hgone hnames
      exact hunsound hsame sound
  · rw [hafter]
    refine (and_iff_left_of_imp fun hentry hids hsound => unsound ?_).symm
    -- else the row that went would be under its name
    obtain ⟨other, hother, hsame, hown⟩ := h.rowed entry hentry hsound
    obtain rfl := Table.eq_of_id_eq hother hrow (hown.trans (hids.trans hid.symm))
    exact (Name.encodeValue_inj (h.fits entry hentry)).1 (hsame.symm.trans hname) ▸ hsound

end Tracks

/-- Of the entries the one with the id of a row that is erased by it goes, unless its name cannot be
read, and no other. Besides one entry for each row the index then holds the entries of rows that
went without theirs, and their names are such, too. -/
theorem entries_after_erasing_by_id {store : DurableStore} (h : store.Worked) {id : Int}
    (erased : (store.eraseById id).1 = true) :
    let after := (store.eraseById id).2
    (∀ entry, entry ∈ after.index.entries ↔
        entry ∈ store.index.entries ∧ (entry.id = id → ¬entry.name.Sound)) ∧
      after.index.size = after.table.rows.length + after.orphans.length ∧
      ∀ entry ∈ after.orphans, ¬entry.name.Sound := by
  have hafter : (store.eraseById id).2.Tracks := h.tracks.eraseById id
  exact ⟨fun _ => h.tracks.mem_entries_eraseById_iff erased, hafter.size_index,
    fun _ => hafter.not_sound_of_mem_orphans⟩

/-- A packet that can be read is erased by its id with its entry. -/
theorem entries_after_erasing_by_id_of_one :
    let store := (insert ⟨.empty, .empty 1⟩ .blank).2
    let after := (store.eraseById 1).2
    (store.eraseById 1).1 = true ∧ (∀ entry ∈ after.index.entries, entry.id ≠ 1) ∧
      after.index.size = after.table.rows.length + after.orphans.length := by
  intro store after
  have hworked : store.Worked := .insert (.empty 1) (by unfold Data.InMemory; decide)
  have herased : (store.eraseById 1).1 = true := rfl
  have hsound : Data.blank.fullName.Sound := Data.sound_fullName (Name.sound_singleton (by decide))
  obtain ⟨hentries, hsize, _⟩ := entries_after_erasing_by_id hworked herased
  refine ⟨herased, fun entry hentry hid => ?_, hsize⟩
  obtain ⟨hheld, hunsound⟩ := (hentries entry).1 hentry
  obtain rfl : entry = Index.entryOf .blank 1 := List.mem_singleton.1 hheld
  exact hunsound hid hsound

/-- The entry of a packet with a digest component of one byte outlives the row. -/
theorem entry_outlives_row :
    let store := (insert ⟨.empty, .empty 1⟩ (.bare ⟨[⟨Tlv.Code.digestComponent, [0]⟩]⟩)).2
    let after := (store.eraseById 1).2
    store.Worked ∧ (store.eraseById 1).1 = true ∧ (∃ entry ∈ after.index.entries, entry.id = 1) ∧
      after.index.size = 1 ∧ after.table.rows.length = 0 := by
  intro store after
  have hworked : store.Worked := .insert (.empty 1) (by unfold Data.InMemory; decide)
  refine ⟨hworked, rfl, ?_, by decide +kernel, by decide +kernel⟩
  decide +kernel

end NamedData.Store.DurableStore
