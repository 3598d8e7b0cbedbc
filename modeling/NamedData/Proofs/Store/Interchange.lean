import NamedData.Proofs.Store.Lookup
import NamedData.Repo.Basic
import NamedData.Store.Memory
/-!
# Either store behind a repository

What a durable store holds can as well stand in memory (`inMemory`). Whatever is asked of the two
they answer alike, and whatever is done to both they stay like each other, as long as nothing is
stored that is there already; and a repository asks before it stores. So nobody who has only the
repository can tell on which kind of store it is built.

    store.inMemory.find n mode = store.find n mode                          (inMemory_find)
    store.inMemory.erase n = (store.erase n) in memory                      (inMemory_erase)
    run (memory) calls and run (durable) calls give the same outcomes       (stores_interchangeable)
-/

namespace NamedData

open Store

namespace Store

/-! ## A durable store in memory -/

namespace DurableStore

/-- The store in memory that holds what a durable store holds. -/
def inMemory (store : DurableStore) : MemoryStore where
  index := store.index
  rows := store.table.rows.map fun row => (row.id, row.data)
  nextId := store.table.lastId + 1

/-- Data is found by id in memory where the table has a row of that id. -/
theorem lookup_map_rows (rows : List Row) (id : Int) :
    (rows.map fun row => (row.id, row.data)).lookup id =
      (rows.find? fun row => row.id = id).map Row.data := by
  induction rows with
  | nil => rfl
  | cons row rows ih =>
    rw [List.map_cons, List.lookup_cons, List.find?_cons, ih]
    by_cases h : row.id = id
    · simp [h]
    · rw [beq_false_of_ne (Ne.symm h), decide_eq_false h]

namespace Faithful

variable {store : DurableStore}

theorem inMemory_find (h : store.Faithful) (name : Name) (mode : Match) :
    store.inMemory.find name mode = store.find name mode := by
  rw [h.find_eq]
  cases mode <;> rfl

theorem inMemory_read (h : store.Faithful) (name : Name) :
    store.inMemory.read name = .ok (store.read name) := by
  rw [h.read_eq, MemoryStore.read]
  cases hfound : store.index.find? name with
  | none => rw [inMemory, hfound]; rfl
  | some entry =>
    obtain ⟨row, hrow, hheld⟩ := h.mem_entries_iff.1 (Index.mem_of_find? hfound).1
    obtain ⟨data, hdata, _⟩ := hheld.data
    have hid := Table.rowOfId?_eq_some hrow
    rw [← hheld.id] at hid
    have hload : store.inMemory.load entry.id = .ok (some data) := by
      have hlookup : store.inMemory.rows.lookup entry.id = some row.data :=
        (lookup_map_rows _ _).trans (congrArg (Option.map Row.data) hid)
      simp only [MemoryStore.load, hlookup, hdata]
    have hbyId : store.readById entry.id = some data := by
      rw [readById, hid]
      simp [hdata, Except.toOption]
    rw [show store.inMemory.index.find? name = some entry from hfound, Option.bind_some, hbyId]
    exact hload

/-- A packet that is not there yet is stored alike, or refused alike. -/
theorem inMemory_insert (h : store.Faithful) {data : Data} (readable : data.Readable)
    (absent : store.index.contains data.fullName = false) :
    store.inMemory.insert data = (store.insert data).map id inMemory := by
  rw [MemoryStore.insert, DurableStore.insert]
  cases hempty : data.name.isEmpty with
  | true => rfl
  | false =>
    cases hfull : store.index.isFull with
    | true => simp [inMemory, absent, hfull]
    | false =>
      obtain ⟨table, index, htable, hrows, hlast, hindex, _⟩ := h.grow readable hfull absent
      simp [inMemory, absent, hfull, htable, hindex, hrows, hlast]

/-- A full name is erased alike, and there was something to erase in both or in neither. -/
theorem inMemory_erase (h : store.Faithful) (name : Name) :
    store.inMemory.erase name = (store.erase name).map id inMemory := by
  cases hentry : store.index.entry? name with
  | none =>
    have hnone : store.index.get? name = none := by rw [Index.get?, hentry]; rfl
    have habsent : store.index.contains name = false := by rw [Index.contains, hentry]; rfl
    have hkept : (store.table.rows.filter fun row => row.name ≠ name.encodeValue) =
        store.table.rows := by
      apply List.filter_eq_self.2
      intro row hrow
      apply decide_eq_true
      intro hname
      rw [h.contains_iff.2 ⟨row, hrow, hname⟩] at habsent
      cases habsent
    rw [MemoryStore.erase, show store.inMemory.index.get? name = none from hnone,
      DurableStore.erase, Index.erase_eq_of_not_contains habsent]
    simp only [Table.eraseName, Table.keep, inMemory, hkept, Nat.sub_self, Nat.lt_irrefl,
      decide_false, Prod.map_apply, id_eq]
  | some entry =>
    have hsome : store.index.get? name = some entry.id := by rw [Index.get?, hentry]; rfl
    obtain ⟨hmem, rfl⟩ := Index.entry?_eq_some_iff.1 hentry
    obtain ⟨row, hrow, hheld⟩ := h.mem_entries_iff.1 hmem
    -- the row of the name is the row of the id
    have hkept : ((store.table.rows.map fun r => (r.id, r.data)).filter fun r => r.1 ≠ entry.id) =
        (store.table.rows.filter fun r => r.name ≠ entry.name.encodeValue).map
          fun r => (r.id, r.data) := by
      rw [List.filter_map]
      refine congrArg _ (List.filter_congr fun other hother => decide_eq_decide.2 (not_congr ?_))
      rw [hheld.id, ← hheld.encoded]
      constructor
      · exact fun hid => congrArg Row.name (Table.eq_of_id_eq hother hrow hid)
      · exact fun hname => congrArg Row.id (Table.eq_of_name_eq hother hrow hname)
    rw [MemoryStore.erase, show store.inMemory.index.get? entry.name = some entry.id from hsome,
      DurableStore.erase]
    simp only [Table.eraseName, Table.keep, inMemory, hkept, List.length_map, Nat.sub_pos_iff_lt,
      Prod.map_apply, id_eq]

end Faithful

end DurableStore

end Store

/-! ## Repositories -/

namespace Repo

/-- The same repository over the store in memory. -/
def inMemory (repo : Repo DurableStore) : Repo MemoryStore := ⟨repo.backend.inMemory, repo.sent⟩

theorem inMemory_insert {repo : Repo DurableStore} (h : repo.backend.Faithful) {data : Data}
    (readable : data.Readable) :
    repo.inMemory.insert data = (repo.insert data).map id inMemory ∧
      (repo.insert data).2.backend.Faithful := by
  have hhas : Backend.has repo.inMemory.backend data.fullName =
      Backend.has repo.backend data.fullName := rfl
  have hasked : Backend.has repo.backend data.fullName =
      .ok (repo.backend.index.contains data.fullName) := rfl
  rw [insert, insert, hhas, hasked]
  cases habsent : repo.backend.index.contains data.fullName with
  | true => exact ⟨rfl, h⟩
  | false =>
    have hsame : Backend.insert repo.inMemory.backend data =
        (Backend.insert repo.backend data).map id DurableStore.inMemory :=
      h.inMemory_insert readable habsent
    have hafter : (Backend.insert repo.backend data).2.Faithful := h.insert readable
    rw [hsame]
    rcases hdone : Backend.insert repo.backend data with ⟨result, backend⟩
    rw [hdone] at hafter
    cases result with
    | ok id => exact ⟨rfl, hafter⟩
    | error cause => cases cause <;> exact ⟨rfl, hafter⟩

theorem find_inMemory {repo : Repo DurableStore} (h : repo.backend.Faithful) (name : Name)
    (mode : Match) :
    Backend.find repo.inMemory.backend name mode = Backend.find repo.backend name mode :=
  congrArg Except.ok (h.inMemory_find name mode)

/-- What was found is erased alike. -/
theorem inMemory_erase_found {repo : Repo DurableStore} (h : repo.backend.Faithful)
    {found : Found} {result : Except Store.Error Bool} {backend : DurableStore}
    (hgone : Backend.erase repo.backend found.name = (result, backend)) :
    Backend.erase repo.inMemory.backend found.name = (result, backend.inMemory) ∧
      backend.Faithful := by
  have hafter : (Backend.erase repo.backend found.name).2.Faithful := h.erase found.name
  rw [hgone] at hafter
  exact ⟨(h.inMemory_erase found.name).trans (congrArg (Prod.map id DurableStore.inMemory) hgone),
    hafter⟩

/-- One turn of a deletion. -/
theorem deleteFrom_eq {σ : Type} [Backend σ] (repo : Repo σ) (name : Name) (erased : Nat) :
    repo.deleteFrom name erased =
      match Backend.find repo.backend name .extending with
      | .error _ => (.failed erased, repo)
      | .ok none => (.erased erased, repo)
      | .ok (some found) =>
        match Backend.erase repo.backend found.name with
        | (.ok true, backend) =>
          deleteFrom ⟨backend, repo.sent ++ [.deleted found.name.withoutDigest]⟩ name (erased + 1)
        | (_, backend) => (.failed erased, { repo with backend }) := by
  rw [deleteFrom]
  rcases Backend.find repo.backend name .extending with cause | (_ | found)
  · rfl
  · rfl
  · simp only
    rcases Backend.erase repo.backend found.name with ⟨cause | (_ | _), backend⟩
    · rfl
    · rfl
    · rfl

theorem inMemory_deleteFrom {repo : Repo DurableStore} (h : repo.backend.Faithful) (name : Name)
    (erased : Nat) :
    repo.inMemory.deleteFrom name erased = (repo.deleteFrom name erased).map id inMemory ∧
      (repo.deleteFrom name erased).2.backend.Faithful := by
  fun_induction repo.deleteFrom name erased with
  | case1 repo erased cause hfound => cases hfound
  | case2 repo erased hfound =>
    rw [deleteFrom_eq, find_inMemory h, hfound]
    exact ⟨rfl, h⟩
  | case3 repo erased found hfound backend hgone ih =>
    obtain ⟨herase, hafter⟩ := inMemory_erase_found h hgone
    rw [deleteFrom_eq, find_inMemory h, hfound]
    simp only [herase]
    exact ih hafter
  | case4 repo erased found hfound result backend hkept hgone =>
    obtain ⟨herase, hafter⟩ := inMemory_erase_found h hgone
    rw [deleteFrom_eq, find_inMemory h, hfound]
    simp only [herase]
    refine ⟨?_, hafter⟩
    cases result with
    | error cause => rfl
    | ok erased =>
      cases erased with
      | false => rfl
      | true => exact absurd rfl hkept

/-! ## Calls -/

/-- What can be asked of a repository to change it. -/
inductive Call where
  | insert (data : Data)
  | delete (name : Name)

/-- What comes of a call. -/
inductive Outcome where
  | inserted (result : Except Error InsertOutcome)
  | deleted (result : DeleteOutcome)
deriving DecidableEq

/-- Whether the packet of a call, if it has one, can be read from its own bytes. -/
def Call.Valid : Call → Prop
  | insert data => data.Readable
  | delete _ => True

section

variable {σ : Type} [Backend σ]

/-- Answers one call. -/
def answer (repo : Repo σ) : Call → Outcome × Repo σ
  | .insert data => (repo.insert data).map .inserted id
  | .delete name => (repo.delete name).map .deleted id

/-- Answers calls one after another. -/
def run (repo : Repo σ) : List Call → List Outcome × Repo σ
  | [] => ([], repo)
  | call :: rest =>
    let (outcome, repo) := repo.answer call
    (run repo rest).map (outcome :: ·) id

end

/-- Whether two repositories have sent the same and answer every question alike. -/
structure Alike {σ τ : Type} [Backend σ] [Backend τ] (a : Repo σ) (b : Repo τ) : Prop where
  sent : a.sent = b.sent
  size : a.size = b.size
  has : ∀ name, a.has name = b.has name
  find : ∀ name mode, Backend.find a.backend name mode = Backend.find b.backend name mode
  read : ∀ name, a.read name = b.read name

theorem inMemory_answer {repo : Repo DurableStore} (h : repo.backend.Faithful) {call : Call}
    (valid : call.Valid) :
    repo.inMemory.answer call = (repo.answer call).map id inMemory ∧
      (repo.answer call).2.backend.Faithful := by
  cases call with
  | insert data =>
    obtain ⟨hsame, hafter⟩ := inMemory_insert h valid
    refine ⟨?_, hafter⟩
    rw [answer, hsame]
    rfl
  | delete name =>
    obtain ⟨hsame, hafter⟩ := inMemory_deleteFrom h name 0
    refine ⟨?_, hafter⟩
    rw [answer, delete, hsame]
    rfl

theorem inMemory_run {repo : Repo DurableStore} (h : repo.backend.Faithful) {calls : List Call}
    (valid : ∀ call ∈ calls, call.Valid) :
    repo.inMemory.run calls = (repo.run calls).map id inMemory ∧
      (repo.run calls).2.backend.Faithful := by
  induction calls generalizing repo with
  | nil => exact ⟨rfl, h⟩
  | cons call calls ih =>
    obtain ⟨hsame, hafter⟩ := inMemory_answer h (valid call List.mem_cons_self)
    obtain ⟨hrest, hlast⟩ := ih hafter fun c hc => valid c (List.mem_cons_of_mem call hc)
    refine ⟨?_, hlast⟩
    rw [run, run, hsame]
    simp only [Prod.map_fst, Prod.map_snd, id_eq, hrest]
    rfl

theorem alike_inMemory {repo : Repo DurableStore} (h : repo.backend.Faithful) :
    Alike repo.inMemory repo where
  sent := rfl
  size := congrArg (fun n : Nat => Except.ok (n : Int)) (List.length_map _)
  has _ := rfl
  find name mode := find_inMemory h name mode
  read name := congrArg (Except.mapError Error.storage) (h.inMemory_read name)

/-- On stores of either kind that start without packets, a repository answers every sequence of
calls alike, and is alike afterwards. A sequence can end anywhere, so it is alike after each
call. -/
theorem stores_interchangeable (capacity : Nat) {calls : List Call}
    (valid : ∀ call ∈ calls, call.Valid) :
    let memory := (ofBackend (MemoryStore.empty capacity)).run calls
    let durable := (ofBackend (⟨.empty, .empty capacity⟩ : DurableStore)).run calls
    memory.1 = durable.1 ∧ Alike memory.2 durable.2 := by
  have hfaithful : (ofBackend (⟨.empty, .empty capacity⟩ : DurableStore)).backend.Faithful :=
    .empty capacity
  obtain ⟨hsame, hafter⟩ := inMemory_run hfaithful valid
  have hstart : (ofBackend (⟨.empty, .empty capacity⟩ : DurableStore)).inMemory =
      ofBackend (MemoryStore.empty capacity) := rfl
  rw [hstart] at hsame
  simp only
  rw [hsame]
  exact ⟨rfl, alike_inMemory hafter⟩

/-- Storing a packet and deleting all there is are such calls. -/
theorem stores_interchangeable_of_two :
    let calls := [Call.insert .blank, .delete .empty]
    let memory := (ofBackend (MemoryStore.empty 1)).run calls
    let durable := (ofBackend (⟨.empty, .empty 1⟩ : DurableStore)).run calls
    memory.1 = durable.1 ∧ Alike memory.2 durable.2 := by
  apply stores_interchangeable 1
  intro call hcall
  rcases List.mem_cons.1 hcall with rfl | hcall
  · exact Data.readable_blank
  · rw [List.mem_singleton.1 hcall]
    trivial

end Repo

end NamedData
