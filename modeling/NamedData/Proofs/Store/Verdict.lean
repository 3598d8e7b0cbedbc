import NamedData.Proofs.Store.Presence
/-!
# How an insertion is answered

A store refuses a packet without a name, then one that it has, then one that it has no room for, and
gives every other packet an id that it never gave before. One in memory asks in this order. One in a
table leaves it to the table to notice that a name is taken, and looks for room before that: when it
is full, a packet that it has is refused for lack of room.

    a store that blocks no name → storage.insert data is storage.verdict data     (insert_fst_eq)
    History given storage → it blocks no name                                            (inStep)
    History given storage → the ids given are below storage.nextId                    (lt_nextId)
-/

namespace NamedData.Store

/-! ## Ids -/

namespace Storage

/-- The id for the next packet. -/
def nextId : Storage → Int
  | memory store => store.nextId
  | durable store => store.table.lastId + 1

/-- Whether a store comes about from one without packets when packets are given to it and names are
erased, and which ids it gave on the way. -/
inductive History : List Int → Storage → Prop where
  | empty (kind : Kind) (capacity : Nat) : History [] (.empty kind capacity)
  | insert {given : List Int} {storage : Storage} {data : Data} : History given storage →
    data.InMemory →
    History (given ++ (storage.insert data).1.toOption.toList) (storage.insert data).2
  | erase {given : List Int} {storage : Storage} (name : Name) : History given storage →
    History given (storage.erase name).2

end Storage

/-- An insertion gives the next id or none, and no id comes again. -/
theorem MemoryStore.nextId_insert (store : MemoryStore) (data : Data) :
    store.nextId ≤ (store.insert data).2.nextId ∧
      ∀ id, (store.insert data).1 = .ok id →
        id = store.nextId ∧ (store.insert data).2.nextId = store.nextId + 1 := by
  unfold MemoryStore.insert
  split
  · exact ⟨Int.le_refl _, by rintro _ ⟨⟩⟩
  split
  · exact ⟨Int.le_refl _, by rintro _ ⟨⟩⟩
  split
  · exact ⟨Int.le_refl _, by rintro _ ⟨⟩⟩
  split
  · exact ⟨Int.le_refl _, by rintro _ ⟨⟩⟩
  · refine ⟨Int.le_of_lt (Int.lt_succ _), ?_⟩
    rintro id ⟨⟩
    exact ⟨rfl, rfl⟩

theorem DurableStore.lastId_insert (store : DurableStore) (data : Data) :
    store.table.lastId ≤ (store.insert data).2.table.lastId ∧
      ∀ id, (store.insert data).1 = .ok id →
        id = store.table.lastId + 1 ∧
          (store.insert data).2.table.lastId = store.table.lastId + 1 := by
  unfold DurableStore.insert
  split
  · exact ⟨Int.le_refl _, by rintro _ ⟨⟩⟩
  split
  · exact ⟨Int.le_refl _, by rintro _ ⟨⟩⟩
  by_cases taken : ∃ row ∈ store.table.rows, row.name = data.fullName.encodeValue
  · rw [Table.insert?, dif_pos taken]
    exact ⟨Int.le_refl _, by rintro _ ⟨⟩⟩
  · obtain ⟨table, htable, _, hlast⟩ := Table.insert?_eq_some data.wire taken
    have hle : store.table.lastId ≤ table.lastId := by omega
    rw [htable]
    simp only
    split
    · exact ⟨hle, by rintro _ ⟨⟩⟩
    · refine ⟨hle, ?_⟩
      rintro id ⟨⟩
      exact ⟨rfl, hlast⟩

namespace Storage

variable {given : List Int} {storage : Storage}

theorem nextId_insert (storage : Storage) (data : Data) :
    storage.nextId ≤ (storage.insert data).2.nextId ∧
      ∀ id, (storage.insert data).1 = .ok id →
        id = storage.nextId ∧ (storage.insert data).2.nextId = storage.nextId + 1 := by
  cases storage with
  | memory store => exact store.nextId_insert data
  | durable store =>
    obtain ⟨hle, hnew⟩ := store.lastId_insert data
    refine ⟨Int.add_le_add_right hle 1, fun id done => ?_⟩
    obtain ⟨hid, hlast⟩ := hnew id done
    exact ⟨hid, congrArg (· + 1) hlast⟩

theorem nextId_erase (storage : Storage) (name : Name) :
    (storage.erase name).2.nextId = storage.nextId := by
  cases storage with
  | memory store =>
    show (store.erase name).2.nextId = store.nextId
    unfold MemoryStore.erase
    split <;> rfl
  | durable store => rfl

namespace History

/-- A store that was not closed on the way is in step, and blocks no name. -/
theorem inStep (h : History given storage) :
    storage.InStep ∧ ∀ name, ¬storage.Blocks name := by
  induction h with
  | empty kind capacity => exact ⟨inStep_empty kind capacity, not_blocks_empty kind capacity⟩
  | insert _ small ih =>
    obtain ⟨hinStep, hblocks, _⟩ := ih.1.holds_of_insert small
    exact ⟨hinStep, fun name => mt (hblocks name).1 (ih.2 name)⟩
  | erase name _ ih =>
    obtain ⟨hinStep, hblocks⟩ := ih.1.erase name
    exact ⟨hinStep, fun other => mt (hblocks other) (ih.2 other)⟩

/-- Every id that was given is below the next. -/
theorem lt_nextId (h : History given storage) : ∀ id ∈ given, id < storage.nextId := by
  induction h with
  | empty kind capacity => nofun
  | @insert given storage data _ _ ih =>
    obtain ⟨hle, hnew⟩ := storage.nextId_insert data
    intro id hid
    rcases List.mem_append.1 hid with hold | hlast
    · exact Int.lt_of_lt_of_le (ih id hold) hle
    · have hdone : (storage.insert data).1 = .ok id :=
        toOption_eq_some_iff.1 (Option.mem_toList.1 hlast)
      obtain ⟨rfl, hnext⟩ := hnew id hdone
      rw [hnext]
      exact Int.lt_succ _
  | erase name _ ih =>
    rw [nextId_erase]
    exact ih

end History

/-! ## Answers -/

/-- Whether a packet is stored under a full name. -/
def Stores (storage : Storage) (fullName : Name) : Prop := ∃ wire, storage.Holds fullName wire

/-- What an insertion is answered. -/
def verdict (storage : Storage) (data : Data) : Except Error Int :=
  if data.name.isEmpty then .error .emptyName
  else if data.fullName ∈ storage.names ∧ ¬(storage.kind = .durable ∧ storage.index.isFull) then
    .error (.duplicateName data.fullName)
  else if storage.index.isFull then .error (.index (.full storage.index.capacity))
  else .ok storage.nextId

/-- The names of a store that blocks none are those under which it holds something. -/
theorem InStep.mem_names_iff (h : storage.InStep) (clear : ∀ name, ¬storage.Blocks name)
    {name : Name} : name ∈ storage.names ↔ storage.Stores name := by
  refine ⟨h.exists_holds, ?_⟩
  rintro ⟨wire, hholds⟩
  cases h with
  | memory _ =>
    obtain ⟨entry, hentry, rfl, _⟩ := hholds
    exact List.mem_map_of_mem hentry
  | durable _ =>
    obtain ⟨row, hrow, hencoded, _⟩ := hholds
    exact not_not.1 fun absent => clear name ⟨absent, row, hrow, hencoded⟩

end Storage

theorem MemoryStore.InStep.insert_fst_eq {store : MemoryStore} (h : store.InStep) (data : Data) :
    (store.insert data).1 = (Storage.memory store).verdict data := by
  unfold MemoryStore.insert Storage.verdict
  cases data.name.isEmpty with
  | true => rfl
  | false =>
    by_cases present : data.fullName ∈ store.index.names
    · rw [Index.contains_eq_decide, decide_eq_true present]
      exact (if_pos ⟨present, nofun⟩).symm
    · have hnames : data.fullName ∉ (Storage.memory store).names := present
      have absent : store.index.contains data.fullName = false := by
        rw [Index.contains_eq_decide, decide_eq_false present]
      rw [absent, if_neg (not_and_of_not_left _ hnames)]
      cases vacant : store.index.isFull with
      | true => simp [Storage.index, vacant]
      | false =>
        have hpositive : 0 < (Index.entryOf data store.nextId).id := h.positive
        obtain ⟨after, hinsert, _⟩ := Index.insert_of_vacant hpositive absent vacant
        simp [hinsert, Storage.index, vacant, Storage.nextId]

theorem DurableStore.InStep.insert_fst_eq {store : DurableStore} (h : store.InStep)
    (clear : ∀ name, ¬(Storage.durable store).Blocks name) (data : Data) :
    (store.insert data).1 = (Storage.durable store).verdict data := by
  unfold DurableStore.insert Storage.verdict
  cases data.name.isEmpty with
  | true => rfl
  | false =>
    cases vacant : store.index.isFull with
    | true => simp [Storage.index, Storage.kind, vacant]
    | false =>
      by_cases present : data.fullName ∈ store.index.names
      · have hnames : data.fullName ∈ (Storage.durable store).names := present
        rw [Table.insert?_of_taken (h.rowed _ present)]
        simp [Storage.index, vacant, hnames]
      · have hnames : data.fullName ∉ (Storage.durable store).names := present
        have hfresh : ¬store.table.Taken data.fullName := fun taken => clear _ ⟨present, taken⟩
        obtain ⟨table, htable, _, _⟩ := Table.insert?_eq_some data.wire hfresh
        have hpositive : 0 < (Index.entryOf data (store.table.lastId + 1)).id :=
          Int.lt_add_one_of_le store.table.lastId_nonneg
        have absent : store.index.contains data.fullName = false := by
          rw [Index.contains_eq_decide, decide_eq_false present]
        obtain ⟨after, hinsert, _⟩ := Index.insert_of_vacant hpositive absent vacant
        simp [htable, hinsert, Storage.index, vacant, hnames, Storage.nextId]

namespace Storage

variable {given : List Int} {storage : Storage}

theorem InStep.insert_fst_eq (h : storage.InStep) (clear : ∀ name, ¬storage.Blocks name)
    (data : Data) : (storage.insert data).1 = storage.verdict data := by
  cases h with
  | memory h => exact h.insert_fst_eq data
  | durable h => exact h.insert_fst_eq clear data

/-- A packet without a name is refused for that. One that is stored is refused as a duplicate,
unless a table is full. A store without room refuses for lack of it what it does not hold, and a
table all that has a name. Every other packet is stored, under an id that was never given before. -/
theorem insertion_is_answered (h : History given storage) (data : Data) :
    (data.name.isEmpty = true → (storage.insert data).1 = .error .emptyName) ∧
      (data.name.isEmpty = false →
        (storage.Stores data.fullName → (storage.kind = .durable → storage.index.isFull = false) →
          (storage.insert data).1 = .error (.duplicateName data.fullName)) ∧
        (storage.index.isFull = true → (storage.Stores data.fullName → storage.kind = .durable) →
          (storage.insert data).1 = .error (.index (.full storage.index.capacity))) ∧
        (¬storage.Stores data.fullName → storage.index.isFull = false →
          ∃ id, (storage.insert data).1 = .ok id ∧ id ∉ given)) := by
  obtain ⟨inStep, clear⟩ := h.inStep
  rw [inStep.insert_fst_eq clear data, ← inStep.mem_names_iff clear]
  refine ⟨fun noname => if_pos noname, fun named => ?_⟩
  have hnamed : ¬data.name.isEmpty = true := Bool.eq_false_iff.1 named
  rw [verdict, if_neg hnamed]
  refine ⟨?_, ?_, ?_⟩
  · intro present roomy
    refine if_pos ⟨present, ?_⟩
    rintro ⟨durable, full⟩
    exact Bool.eq_false_iff.1 (roomy durable) full
  · intro full durable
    rw [if_neg, if_pos full]
    rintro ⟨present, roomy⟩
    exact roomy ⟨durable present, full⟩
  · intro absent vacant
    rw [if_neg (not_and_of_not_left _ absent), if_neg (Bool.eq_false_iff.1 vacant)]
    exact ⟨storage.nextId, rfl, fun old => Int.lt_irrefl _ (h.lt_nextId _ old)⟩

/-- A store in memory with room for one packet refuses the one that it has as a duplicate. Once that
is erased it takes it again, under another id. -/
theorem insertion_is_answered_of_full :
    let full := ((empty .memory 1).insert .blank).2
    let emptied := (full.erase Data.blank.fullName).2
    full.index.isFull = true ∧ full.Stores Data.blank.fullName ∧
      (full.insert .blank).1 = .error (.duplicateName Data.blank.fullName) ∧
      ∃ id, (emptied.insert .blank).1 = .ok id ∧ id ∉ [(1 : Int)] := by
  intro full emptied
  have small : Data.blank.InMemory := by unfold Data.InMemory; decide
  have named : Data.blank.name.isEmpty = false := rfl
  have hfull : History [1] full := .insert (.empty .memory 1) small
  have hemptied : History [1] emptied := hfull.erase Data.blank.fullName
  have hstored : full.Stores Data.blank.fullName :=
    ⟨Data.blank.wire, Index.entryOf .blank 1, List.mem_singleton_self _, rfl,
      List.mem_singleton_self _⟩
  have hgone : Data.blank.fullName ∉ emptied.names := by decide +kernel
  obtain ⟨hduplicate, _⟩ := (insertion_is_answered hfull .blank).2 named
  obtain ⟨_, _, hagain⟩ := (insertion_is_answered hemptied .blank).2 named
  refine ⟨rfl, hstored, hduplicate hstored nofun, hagain ?_ (by decide +kernel)⟩
  rwa [← hemptied.inStep.1.mem_names_iff hemptied.inStep.2]

/-- A table that is full with a packet refuses that packet for lack of room and not as a
duplicate. -/
theorem duplicate_refused_for_lack_of_room :
    let full := ((empty .durable 1).insert .blank).2
    History [1] full ∧ Data.blank.name.isEmpty = false ∧ full.Stores Data.blank.fullName ∧
      (full.insert .blank).1 = .error (.index (.full 1)) ∧
      (full.insert .blank).1 ≠ .error (.duplicateName Data.blank.fullName) := by
  intro full
  have small : Data.blank.InMemory := by unfold Data.InMemory; decide
  have hstored : full.Stores Data.blank.fullName :=
    ⟨Data.blank.wire, ⟨1, Data.blank.fullName.encodeValue, Data.blank.wire⟩,
      List.mem_singleton_self _, rfl, rfl⟩
  have hrefused : (full.insert .blank).1 = .error (.index (.full 1)) := rfl
  refine ⟨.insert (.empty .durable 1) small, rfl, hstored, hrefused, ?_⟩
  rw [hrefused]
  nofun

end Storage

end NamedData.Store
