import NamedData.Proofs.Repo.Deletion
/-!
# Events account for the store

Whatever is asked of a repository, and whichever operations of its store fail then, an event is
sent just for what changes. So the names of all packets ever stored are those of the packets
removed since then and of those that are there.

    a call changes nothing, Adds one object or Removes some                    (changes_of_step)
    the names inserted ~ the names deleted ++ the names stored                 (accounts_of_run)
    inserted under n - deleted under n = stored under n               (events_account_for_store)
-/

namespace NamedData

open Store

namespace Repo

/-! ## Names told and names stored -/

/-- The names under which packets were ever stored. -/
def insertedNames {σ : Type} (repo : Repo σ) : List Name :=
  repo.sent.filterMap fun
    | .inserted name => some name
    | .deleted _ => none

/-- The names under which packets were ever removed. -/
def deletedNames {σ : Type} (repo : Repo σ) : List Name :=
  repo.sent.filterMap fun
    | .inserted _ => none
    | .deleted name => some name

/-- The names of the packets that are stored. -/
def storedNames (repo : Repo Storage) : List Name :=
  repo.backend.objects.map fun object => object.fullName.withoutDigest

/-- Whether the events sent account for what is stored. -/
structure Accounts (repo : Repo Storage) : Prop where
  sound : repo.backend.Sound
  names : repo.insertedNames.Perm (repo.deletedNames ++ repo.storedNames)

/-! ## What a call changes -/

/-- Whether one object was put into a repository, with an event for it. -/
structure Adds (before : Repo Storage) (object : Object) (after : Repo Storage) : Prop where
  objects : after.backend.objects.Perm (object :: before.backend.objects)
  sent : after.sent = before.sent ++ [.inserted object.fullName.withoutDigest]
  sound : after.backend.Sound

/-- What one call can make of a repository. -/
inductive Changes (repo : Repo Storage) : Repo Storage → Prop where
  | nothing : Changes repo repo
  | adds {object : Object} {after : Repo Storage} : Adds repo object after → Changes repo after
  | removes {gone : List Object} {after : Repo Storage} :
    gone.Sublist repo.backend.objects → Removes repo gone after → Changes repo after

section

variable {σ : Type} [Backend σ]

/-- What an insertion does to a repository is what it does to its store, with an event if that
succeeds. -/
theorem insert_eq (repo : Repo σ) (data : Data) :
    (repo.insert data).2 = repo ∨
      ∃ result backend, Backend.insert repo.backend data = (result, backend) ∧
        (repo.insert data).2 = match result with
          | .ok _ => ⟨backend, repo.sent ++ [.inserted data.name]⟩
          | .error _ => { repo with backend } := by
  unfold insert
  cases Backend.has repo.backend data.fullName with
  | error cause => exact Or.inl rfl
  | ok present =>
    cases present with
    | true => exact Or.inl rfl
    | false =>
      right
      rcases hinsert : Backend.insert repo.backend data with ⟨cause | newId, backend⟩
      · refine ⟨_, _, rfl, ?_⟩
        cases cause <;> rfl
      · exact ⟨_, _, rfl, rfl⟩

/-- Without faults nothing is different. -/
theorem insert_faulty_nil (repo : Repo σ) (data : Data) :
    (repo.faulty []).insert data = (repo.insert data).map id (faulty · []) := by
  have hhas : Backend.has (repo.faulty []).backend data.fullName =
      Backend.has repo.backend data.fullName := rfl
  have hinsert : Backend.insert (repo.faulty []).backend data =
      (Backend.insert repo.backend data).map id (⟨·, []⟩) := rfl
  rw [insert, insert, hhas]
  rcases Backend.has repo.backend data.fullName with cause | (_ | _)
  · rfl
  · simp only [hinsert]
    rcases Backend.insert repo.backend data with ⟨cause | newId, backend⟩
    · cases cause <;> rfl
    · rfl
  · rfl

end

variable {repo after : Repo Storage}

/-- Under any plan an insertion leaves a repository as it is, or does what it does without. -/
theorem insert_faulty_cases (repo : Repo Storage) (plan : List Fault) (data : Data) :
    ((repo.faulty plan).insert data).2.sane = repo ∨
      ∃ result backend, Backend.insert repo.backend data = (result, backend) ∧
        ((repo.faulty plan).insert data).2.sane = match result with
          | .ok _ => ⟨backend, repo.sent ++ [.inserted data.name]⟩
          | .error _ => { repo with backend } := by
  rcases insert_eq (repo.faulty plan) data with hsame | ⟨result, store, hinsert, hafter⟩
  · left
    rw [hsame]
    rfl
  rw [hafter]
  rcases Faulty.insert_cases (repo.faulty plan).backend data with ⟨cause, hrefused⟩ | hreached
  · left
    obtain ⟨rfl, rfl⟩ := Prod.ext_iff.1 (hinsert.symm.trans hrefused)
    rfl
  · right
    rcases hreal : Backend.insert repo.backend data with ⟨real, backend⟩
    rw [hinsert, show (repo.faulty plan).backend.inner = repo.backend from rfl, hreal,
      Prod.map_apply, Prod.mk.injEq] at hreached
    obtain ⟨rfl, rfl⟩ := hreached
    exact ⟨_, backend, rfl, by cases result <;> rfl⟩

/-- Under any plan an insertion adds the packet or changes nothing. -/
theorem insert_faulty (h : repo.backend.Sound) (plan : List Fault) {data : Data}
    (readable : data.Readable) :
    ((repo.faulty plan).insert data).2.sane = repo ∨
      ∃ newId, Adds repo ⟨newId, data.fullName, data.wire⟩
        ((repo.faulty plan).insert data).2.sane := by
  rcases repo.insert_faulty_cases plan data with hsame | ⟨result, backend, hinsert, hafter⟩
  · exact Or.inl hsame
  rw [hafter]
  rcases h.insert_cases readable with
    ⟨newId, _, hdone, hsound, _, hperm⟩ | ⟨cause, hrefused, _⟩
  · right
    cases hinsert.symm.trans hdone
    refine ⟨newId, hperm, ?_, hsound⟩
    rw [data.withoutDigest_fullName]
  · left
    cases hinsert.symm.trans hrefused
    rfl

/-- Under any plan a deletion takes out some of the objects. -/
theorem delete_faulty (h : repo.backend.Sound) (plan : List Fault) (q : Name) :
    ∃ gone, gone.Sublist repo.backend.objects ∧
      Removes repo gone ((repo.faulty plan).delete q).2.sane := by
  cases hfind : Fault.planned plan .find q with
  | false =>
    obtain ⟨after, hremoves, hdelete⟩ := deleteFrom_faulty hfind h rfl (fun _ _ => rfl) 0
    refine ⟨repo.removed (Fault.planned plan .erase) q, ?_, ?_⟩
    · exact (List.takeWhile_sublist _).trans List.filter_sublist
    · rw [delete, hdelete]
      exact hremoves
  | true =>
    have hfailed : Backend.find (repo.faulty plan).backend q .extending =
        .error Faulty.failure := Faulty.find_of_planned hfind .extending
    refine ⟨[], List.nil_sublist _, ?_⟩
    rw [delete, deleteFrom_eq, hfailed]
    exact .nil h

/-! ## One call -/

theorem accounts_empty (kind : Kind) (capacity : Nat) :
    Accounts (ofBackend (.empty kind capacity)) := by
  refine ⟨Storage.sound_empty kind capacity, ?_⟩
  rw [storedNames, ofBackend, Storage.objects_empty]
  exact List.Perm.nil

theorem Adds.accounts {object : Object} (adds : Adds repo object after) (h : Accounts repo) :
    Accounts after := by
  refine ⟨adds.sound, ?_⟩
  have hinserted : after.insertedNames =
      repo.insertedNames ++ [object.fullName.withoutDigest] := by
    simp [insertedNames, adds.sent]
  have hdeleted : after.deletedNames = repo.deletedNames := by
    simp [deletedNames, adds.sent]
  have hstored : after.storedNames.Perm (object.fullName.withoutDigest :: repo.storedNames) :=
    adds.objects.map _
  rw [hinserted, hdeleted]
  calc (repo.insertedNames ++ [object.fullName.withoutDigest]).Perm
        (repo.deletedNames ++ repo.storedNames ++ [object.fullName.withoutDigest]) :=
          h.names.append_right _
    _ |>.Perm (object.fullName.withoutDigest :: (repo.deletedNames ++ repo.storedNames)) :=
          List.perm_append_singleton _ _
    _ |>.Perm (repo.deletedNames ++ (object.fullName.withoutDigest :: repo.storedNames)) :=
          List.perm_middle.symm
    _ |>.Perm (repo.deletedNames ++ after.storedNames) := hstored.symm.append_left _

/-- The objects that go and those that stay are all that were there. -/
theorem Removes.perm {gone : List Object} (removes : Removes repo gone after)
    (h : repo.backend.Sound) (hgone : gone.Sublist repo.backend.objects) :
    repo.backend.objects.Perm (gone ++ after.backend.objects) := by
  have hnodup : repo.backend.objects.Nodup := h.nodup_objects
  have hdisjoint : ∀ object ∈ gone, object ∉ after.backend.objects := by
    intro object hobject hstays
    rw [removes.objects, List.mem_filter] at hstays
    exact of_decide_eq_true hstays.2 (List.mem_map_of_mem hobject)
  have hstaying : after.backend.objects.Nodup := removes.objects ▸ hnodup.filter _
  apply (List.perm_ext_iff_of_nodup hnodup
    (List.nodup_append'.2 ⟨hnodup.sublist hgone, hstaying, hdisjoint⟩)).2
  intro object
  rw [List.mem_append, removes.objects, List.mem_filter]
  constructor
  · intro hobject
    by_cases hname : object.fullName ∈ gone.map Object.fullName
    · left
      obtain ⟨other, hother, hsame⟩ := List.mem_map.1 hname
      rwa [← h.eq_of_fullName_eq (hgone.subset hother) hobject hsame]
    · exact Or.inr ⟨hobject, decide_eq_true hname⟩
  · rintro (hobject | ⟨hobject, _⟩)
    · exact hgone.subset hobject
    · exact hobject

theorem Removes.accounts {gone : List Object} (removes : Removes repo gone after)
    (h : Accounts repo) (hgone : gone.Sublist repo.backend.objects) : Accounts after := by
  refine ⟨removes.sound, ?_⟩
  have hinserted : after.insertedNames = repo.insertedNames := by
    simp [insertedNames, removes.sent, List.filterMap_map]
  have hdeleted : after.deletedNames = repo.deletedNames ++
      gone.map fun object => object.fullName.withoutDigest := by
    simp [deletedNames, removes.sent, List.filterMap_map]
  have hstored : repo.storedNames.Perm
      ((gone.map fun object => object.fullName.withoutDigest) ++ after.storedNames) := by
    have hperm := (removes.perm h.sound hgone).map fun object => object.fullName.withoutDigest
    rwa [List.map_append] at hperm
  rw [hinserted, hdeleted, List.append_assoc]
  exact h.names.trans (hstored.append_left _)

theorem changes_answer (h : repo.backend.Sound) (plan : List Fault) {call : Call}
    (valid : call.Valid) : Changes repo ((repo.faulty plan).answer call).2.sane := by
  cases call with
  | insert data =>
    show Changes repo ((repo.faulty plan).insert data).2.sane
    rcases insert_faulty h plan valid with hsame | ⟨newId, adds⟩
    · rw [hsame]
      exact .nothing
    · exact .adds adds
  | delete q =>
    obtain ⟨gone, hgone, removes⟩ := delete_faulty h plan q
    exact .removes hgone removes

theorem answer_faulty_nil (repo : Repo Storage) (call : Call) :
    ((repo.faulty []).answer call).2.sane = (repo.answer call).2 := by
  cases call with
  | insert data =>
    show ((repo.faulty []).insert data).2.sane = (repo.insert data).2
    rw [insert_faulty_nil]
    rfl
  | delete name =>
    show ((repo.faulty []).deleteFrom name 0).2.sane = (repo.deleteFrom name 0).2
    rw [deleteFrom_faulty_nil]
    rfl

/-! ## Whole runs -/

/-- One call, with operations of the store failing or not. -/
inductive Step (repo : Repo Storage) : Repo Storage → Prop where
  | answer (call : Call) : call.Valid → Step repo (repo.answer call).2
  | despite (plan : List Fault) (call : Call) : call.Valid →
    Step repo ((repo.faulty plan).answer call).2.sane

theorem changes_of_step (h : repo.backend.Sound) (step : Step repo after) :
    Changes repo after := by
  cases step with
  | answer call valid => exact answer_faulty_nil repo call ▸ changes_answer h [] valid
  | despite plan call valid => exact changes_answer h plan valid

theorem accounts_of_step (h : Accounts repo) (step : Step repo after) : Accounts after := by
  cases changes_of_step h.sound step with
  | nothing => exact h
  | adds adds => exact adds.accounts h
  | removes gone removes => exact removes.accounts h gone

theorem accounts_of_run {kind : Kind} {capacity : Nat}
    (run : Relation.ReflTransGen Step (ofBackend (.empty kind capacity)) repo) :
    Accounts repo := by
  induction run with
  | refl => exact accounts_empty kind capacity
  | tail _ step ih => exact accounts_of_step ih step

theorem count_insertedNames {σ : Type} (repo : Repo σ) (name : Name) :
    repo.insertedNames.count name = repo.sent.count (.inserted name) := by
  rw [insertedNames, List.count_filterMap]
  apply List.countP_congr
  intro event _
  cases event <;> simp

theorem count_deletedNames {σ : Type} (repo : Repo σ) (name : Name) :
    repo.deletedNames.count name = repo.sent.count (.deleted name) := by
  rw [deletedNames, List.count_filterMap]
  apply List.countP_congr
  intro event _
  cases event <;> simp

theorem count_storedNames (repo : Repo Storage) (name : Name) : repo.storedNames.count name =
    repo.backend.objects.countP fun object => object.fullName.withoutDigest = name := by
  rw [storedNames, List.count, List.countP_map]
  rfl

/-- After every run of calls, whichever of them fail, there are as many packets of a name as were
told to be stored under it and not told to be removed, and the size is their number. -/
theorem events_account_for_store {kind : Kind} {capacity : Nat}
    (run : Relation.ReflTransGen Step (ofBackend (.empty kind capacity)) repo) :
    (∀ name, (repo.sent.count (.inserted name) : Int) - repo.sent.count (.deleted name) =
      repo.backend.objects.countP fun object => object.fullName.withoutDigest = name) ∧
      repo.size = .ok ((repo.insertedNames.length : Int) - repo.deletedNames.length) := by
  obtain ⟨hsound, hnames⟩ := accounts_of_run run
  constructor
  · intro name
    have hcount := hnames.count_eq name
    rw [List.count_append, count_insertedNames, count_deletedNames, count_storedNames] at hcount
    omega
  · have hlength := hnames.length_eq
    rw [List.length_append, storedNames, List.length_map] at hlength
    rw [size, hsound.size_eq]
    show Except.ok _ = _
    congr 1
    omega

/-- A packet is stored, stays when its erasure fails, is stored again and is then removed. -/
theorem events_account_for_store_of_refusal :
    let plan : List Fault := [⟨.erase, Data.blank.fullName, .answerFalse⟩]
    let stored := ((ofBackend (Storage.empty .durable 1)).answer (.insert .blank)).2
    let refused := ((stored.faulty plan).answer (.delete .empty)).2.sane
    let again := (refused.answer (.insert .blank)).2
    let removed := (again.answer (.delete .empty)).2
    (∀ name, (removed.sent.count (.inserted name) : Int) - removed.sent.count (.deleted name) =
      removed.backend.objects.countP fun object => object.fullName.withoutDigest = name) ∧
      removed.size = .ok ((removed.insertedNames.length : Int) - removed.deletedNames.length) := by
  intro plan stored refused again removed
  have hstored : Step (ofBackend (.empty .durable 1)) stored :=
    .answer (.insert .blank) Data.readable_blank
  have hrefused : Step stored refused := .despite plan (.delete .empty) trivial
  have hagain : Step refused again := .answer (.insert .blank) Data.readable_blank
  have hremoved : Step again removed := .answer (.delete .empty) trivial
  have hrun := (((Relation.ReflTransGen.single hstored).tail hrefused).tail hagain).tail hremoved
  exact events_account_for_store hrun

end Repo

end NamedData
