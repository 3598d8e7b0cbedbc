import Mathlib.Data.List.TakeWhile
import NamedData.Proofs.Store.Objects
import NamedData.Store.Fault
/-!
# What a deletion removes

A deletion goes through the objects under a name in their order and removes one after another, up
to the first that cannot be erased. Each that is removed sends one event. To say what happens when
an erasure fails, a repository is put under a plan of faults for the time of one call.

    (repo.faulty []).deleteFrom q n = repo.deleteFrom q n                  (deleteFrom_faulty_nil)
    (repo.faulty plan).deleteFrom q n = n + those under q up to a fault        (deleteFrom_faulty)
    repo.backend.Reachable → Deletes stuck q repo (repo.delete q)        (delete_removes_matching)
-/

namespace NamedData

open Store

/-! ## Plans of faults -/

namespace Store

/-- Whether a plan has an operation fail for a name. -/
def Fault.planned (plan : List Fault) (method : Fault.Method) (name : Name) : Bool :=
  plan.any fun fault => fault.method = method ∧ fault.name = name

namespace Faulty

variable {σ : Type}

theorem isSome_mode? (store : Faulty σ) (method : Fault.Method) (name : Name) :
    (store.mode? method name).isSome = Fault.planned store.plan method name := by
  rw [mode?, Option.isSome_map, List.isSome_find?]
  rfl

theorem mode?_eq_none {store : Faulty σ} {method : Fault.Method} {name : Name}
    (h : Fault.planned store.plan method name = false) : store.mode? method name = none := by
  rw [← Option.isNone_iff_eq_none, ← Option.not_isSome, isSome_mode?, h]
  rfl

variable [Backend σ]

theorem find_eq {store : Faulty σ} {name : Name} (h : Fault.planned store.plan .find name = false)
    (mode : Match) : Backend.find store name mode = Backend.find store.inner name mode := by
  show store.guarded .find name _ = _
  rw [guarded, mode?_eq_none h]
  rfl

theorem find_of_planned {store : Faulty σ} {name : Name}
    (h : Fault.planned store.plan .find name = true) (mode : Match) :
    Backend.find store name mode = .error failure := by
  show store.guarded .find name _ = _
  rw [guarded, if_pos ((store.isSome_mode? .find name).trans h)]

theorem erase_of_not_planned {store : Faulty σ} {name : Name}
    (h : Fault.planned store.plan .erase name = false) :
    Backend.erase store name =
      (Backend.erase store.inner name).map id ({ store with inner := · }) := by
  show store.erase name = _
  rw [erase, mode?_eq_none h]

/-- An erasure that is to fail does not reach the store. -/
theorem erase_of_planned {store : Faulty σ} {name : Name}
    (h : Fault.planned store.plan .erase name = true) :
    ∃ result, result ≠ .ok true ∧ Backend.erase store name = (result, store) := by
  rw [← isSome_mode?] at h
  obtain ⟨mode, hmode⟩ := Option.isSome_iff_exists.1 h
  show ∃ result, result ≠ .ok true ∧ store.erase name = (result, store)
  rw [erase, hmode]
  cases mode with
  | answerFalse => exact ⟨.ok false, nofun, rfl⟩
  | io => exact ⟨.error failure, nofun, rfl⟩
  | duplicate => exact ⟨.error failure, nofun, rfl⟩

/-- An insertion fails and changes nothing, or it reaches the store. -/
theorem insert_cases (store : Faulty σ) (data : Data) :
    (∃ cause, Backend.insert store data = (.error cause, store)) ∨
      Backend.insert store data =
        (Backend.insert store.inner data).map id ({ store with inner := · }) := by
  show (∃ cause, store.insert data = _) ∨ store.insert data = _
  unfold insert
  cases store.mode? .insert data.name with
  | none => exact Or.inr rfl
  | some mode =>
    left
    cases mode <;> exact ⟨_, rfl⟩

end Faulty

end Store

namespace Repo

section

variable {σ : Type}

/-- The repository under a plan of faults. -/
def faulty (repo : Repo σ) (plan : List Fault) : Repo (Faulty σ) :=
  ⟨⟨repo.backend, plan⟩, repo.sent⟩

/-- The repository without its plan. -/
def sane (repo : Repo (Faulty σ)) : Repo σ := ⟨repo.backend.inner, repo.sent⟩

variable [Backend σ]

/-- Without faults nothing is different. -/
theorem deleteFrom_faulty_nil (repo : Repo σ) (name : Name) (erased : Nat) :
    (repo.faulty []).deleteFrom name erased =
      (repo.deleteFrom name erased).map id (faulty · []) := by
  have hfind : ∀ repo : Repo σ, Backend.find (repo.faulty []).backend name .extending =
      Backend.find repo.backend name .extending := fun repo => Faulty.find_eq rfl _
  have herase : ∀ (repo : Repo σ) name, Backend.erase (repo.faulty []).backend name =
      (Backend.erase repo.backend name).map id (⟨·, []⟩) :=
    fun repo name => Faulty.erase_of_not_planned rfl
  fun_induction repo.deleteFrom name erased with
  | case1 repo erased cause hfound => rw [deleteFrom_eq, hfind, hfound]; rfl
  | case2 repo erased hfound => rw [deleteFrom_eq, hfind, hfound]; rfl
  | case3 repo erased found hfound backend hgone ih =>
    rw [deleteFrom_eq, hfind, hfound]
    simp only [herase, hgone]
    exact ih
  | case4 repo erased found hfound result backend hkept hgone =>
    rw [deleteFrom_eq, hfind, hfound]
    simp only [herase, hgone]
    rcases result with cause | (_ | _)
    · rfl
    · rfl
    · exact absurd rfl hkept

end

/-! ## What is removed -/

/-- The objects under a name before the first that is stuck. -/
def removed (repo : Repo Storage) (stuck : Name → Bool) (q : Name) : List Object :=
  (repo.backend.under q).takeWhile fun object => !stuck object.fullName

/-- Whether some objects, and no others, were taken out of a repository, with an event for each. -/
structure Removes (before : Repo Storage) (gone : List Object) (after : Repo Storage) : Prop where
  objects : after.backend.objects = before.backend.objects.filter fun object =>
    object.fullName ∉ gone.map Object.fullName
  sent : after.sent = before.sent ++
    gone.map fun object => .deleted object.fullName.withoutDigest
  sound : after.backend.Sound

namespace Removes

variable {repo after : Repo Storage}

theorem nil (h : repo.backend.Sound) : Removes repo [] repo := by
  refine ⟨?_, (List.append_nil _).symm, h⟩
  symm
  apply List.filter_eq_self.2
  intro object _
  exact decide_eq_true List.not_mem_nil

theorem trans {between : Repo Storage} {gone later : List Object}
    (first : Removes repo gone between) (second : Removes between later after) :
    Removes repo (gone ++ later) after := by
  refine ⟨?_, ?_, second.sound⟩
  · rw [second.objects, first.objects, List.filter_filter]
    apply List.filter_congr
    intro object _
    rw [List.map_append, ← Bool.decide_and, decide_eq_decide, List.mem_append, not_or, and_comm]
  · rw [second.sent, first.sent, List.map_append, List.append_assoc]

/-- What is under a name when the first object there has been taken out. -/
theorem under_eq {q : Name} (h : repo.backend.Sound) {object : Object} {rest : List Object}
    (hunder : repo.backend.under q = object :: rest) (first : Removes repo [object] after) :
    after.backend.under q = rest := by
  have hsorted : (object :: rest).Pairwise fun a b => compare a.fullName b.fullName = .lt := by
    rw [← hunder]
    exact h.pairwise_objects.filter _
  have hlater : ∀ other ∈ rest, other.fullName ≠ object.fullName := by
    intro other hother
    exact (Name.ne_of_lt ((List.pairwise_cons.1 hsorted).1 other hother)).symm
  have hcomm : after.backend.under q =
      (repo.backend.under q).filter fun other => other.fullName ∉ [object.fullName] := by
    rw [Storage.under, first.objects, Storage.under, List.filter_filter, List.filter_filter]
    apply List.filter_congr
    intro other _
    exact Bool.and_comm _ _
  rw [hcomm, hunder, List.filter_cons_of_neg (by simp)]
  apply List.filter_eq_self.2
  intro other hother
  simpa using hlater other hother

end Removes

variable {repo : Repo Storage} {q : Name} {plan : List Fault}

/-! ## One round -/

/-- A plan that lets a name be looked up leaves its first object to be found. -/
theorem find_faulty (hfind : Fault.planned plan .find q = false) (h : repo.backend.Sound) :
    Backend.find (repo.faulty plan).backend q .extending =
      .ok ((repo.backend.under q).head?.map Object.found) := by
  rw [Faulty.find_eq hfind, faulty, h.find_eq]

theorem deleteFrom_of_nil (hfind : Fault.planned plan .find q = false) (h : repo.backend.Sound)
    (hunder : repo.backend.under q = []) (n : Nat) :
    (repo.faulty plan).deleteFrom q n = (.erased n, repo.faulty plan) := by
  rw [deleteFrom_eq, find_faulty hfind h, hunder]
  rfl

/-- The first object cannot be erased. -/
theorem deleteFrom_of_planned (hfind : Fault.planned plan .find q = false)
    (h : repo.backend.Sound) {object : Object} {rest : List Object}
    (hunder : repo.backend.under q = object :: rest)
    (hkept : Fault.planned plan .erase object.fullName = true) (n : Nat) :
    (repo.faulty plan).deleteFrom q n = (.failed n, repo.faulty plan) := by
  have hplanned : Fault.planned (repo.faulty plan).backend.plan .erase object.fullName = true :=
    hkept
  obtain ⟨result, hresult, herase⟩ := Faulty.erase_of_planned hplanned
  rw [deleteFrom_eq, find_faulty hfind h, hunder]
  simp only [List.head?_cons, Option.map_some, Object.found]
  rw [herase]
  rcases result with cause | (_ | _)
  · rfl
  · rfl
  · exact absurd rfl hresult

/-- The first object is erased, and counted, and the deletion goes on. -/
theorem deleteFrom_of_not_planned (hfind : Fault.planned plan .find q = false)
    (h : repo.backend.Sound) {object : Object} {rest : List Object}
    (hunder : repo.backend.under q = object :: rest)
    (hlet : Fault.planned plan .erase object.fullName = false) (n : Nat) :
    ∃ next, Removes repo [object] next ∧
      (repo.faulty plan).deleteFrom q n = (next.faulty plan).deleteFrom q (n + 1) := by
  have hobject : object ∈ repo.backend.under q := hunder ▸ List.mem_cons_self
  have hplanned : Fault.planned (repo.faulty plan).backend.plan .erase object.fullName = false :=
    hlet
  obtain ⟨backend, herased, hsound, hobjects⟩ := h.erase_eq (List.mem_of_mem_filter hobject)
  refine ⟨⟨backend, repo.sent ++ [.deleted object.fullName.withoutDigest]⟩, ?_, ?_⟩
  · refine ⟨?_, rfl, hsound⟩
    simpa using hobjects
  · rw [deleteFrom_eq, find_faulty hfind h, hunder]
    simp only [List.head?_cons, Option.map_some, Object.found]
    rw [Faulty.erase_of_not_planned hplanned, faulty, herased]
    rfl

/-- A deletion under a plan that lets the name be looked up removes the objects before the first
that is stuck, which are those that the plan does not let go. It counts them on from `n`. -/
theorem deleteFrom_faulty {stuck : Name → Bool} (hfind : Fault.planned plan .find q = false)
    (h : repo.backend.Sound) {objects : List Object} (hunder : repo.backend.under q = objects)
    (hstuck : ∀ object ∈ objects,
      Fault.planned plan .erase object.fullName = stuck object.fullName) (n : Nat) :
    let gone := objects.takeWhile fun object => !stuck object.fullName
    ∃ after, Removes repo gone after ∧ (repo.faulty plan).deleteFrom q n =
      (if gone = objects then .erased (n + gone.length) else .failed (n + gone.length),
        after.faulty plan) := by
  -- every round takes the first of the objects that are left under `q`
  induction objects generalizing repo n with
  | nil =>
    refine ⟨repo, .nil h, ?_⟩
    rw [deleteFrom_of_nil hfind h hunder]
    rfl
  | cons object rest ih =>
    have hfirst := hstuck object List.mem_cons_self
    cases hplanned : stuck object.fullName with
    | true =>
      rw [List.takeWhile_cons_of_neg (by simp [hplanned])]
      refine ⟨repo, .nil h, ?_⟩
      rw [deleteFrom_of_planned hfind h hunder (hfirst.trans hplanned),
        if_neg (List.cons_ne_nil _ _).symm]
      rfl
    | false =>
      obtain ⟨next, hnext, hround⟩ :=
        deleteFrom_of_not_planned hfind h hunder (hfirst.trans hplanned) n
      obtain ⟨after, hremoves, hverdict⟩ := ih hnext.sound (hnext.under_eq h hunder)
        (fun other hother => hstuck other (List.mem_cons_of_mem object hother)) (n + 1)
      rw [List.takeWhile_cons_of_pos (by simp [hplanned])]
      refine ⟨after, hnext.trans hremoves, ?_⟩
      rw [hround, hverdict]
      simp [Nat.add_assoc, Nat.add_comm 1]

/-! ## Deletions -/

/-- Whether a deletion of `q` that cannot erase what is `stuck` does what it should. -/
structure Deletes (stuck : Name → Bool) (q : Name) (before : Repo Storage)
    (result : DeleteOutcome × Repo Storage) : Prop where
  /-- The objects under the name come in the order of their full names. -/
  ordered : (before.backend.under q).Pairwise fun a b => compare a.fullName b.fullName = .lt
  /-- Each is a packet, with a name to which the full name adds a digest. -/
  named : ∀ object ∈ before.backend.under q, ∃ data, Data.decode object.wire = .ok data ∧
    data.fullName = object.fullName ∧ data.name = object.fullName.withoutDigest
  /-- If none is stuck, all go and are counted. -/
  erased : (∀ object ∈ before.backend.under q, stuck object.fullName = false) →
    before.removed stuck q = before.backend.under q ∧
      result.1 = .erased (before.backend.under q).length
  /-- If one is, those before the first go and are counted. -/
  failed : (∃ object ∈ before.backend.under q, stuck object.fullName = true) →
    result.1 = .failed (before.removed stuck q).length
  removes : Removes before (before.removed stuck q) result.2

theorem deletes_faulty {stuck : Name → Bool}
    (hfind : Fault.planned plan .find q = false) (h : repo.backend.Sound)
    (hstuck : ∀ object ∈ repo.backend.under q,
      Fault.planned plan .erase object.fullName = stuck object.fullName) :
    Deletes stuck q repo (((repo.faulty plan).delete q).map id sane) := by
  obtain ⟨after, hremoves, hresult⟩ := deleteFrom_faulty hfind h rfl hstuck 0
  rw [← removed] at hremoves hresult
  have hall : repo.removed stuck q = repo.backend.under q ↔
      ∀ object ∈ repo.backend.under q, stuck object.fullName = false := by
    rw [removed, List.takeWhile_eq_self_iff]
    simp
  rw [delete, hresult]
  refine ⟨h.pairwise_objects.filter _, ?_, ?_, ?_, hremoves⟩
  · intro object hobject
    obtain ⟨data, hdata, hname⟩ := h.packet_of_mem (List.mem_of_mem_filter hobject)
    exact ⟨data, hdata, hname, hname ▸ data.withoutDigest_fullName.symm⟩
  · intro hnone
    have hgone := hall.2 hnone
    refine ⟨hgone, ?_⟩
    simp [hgone]
  · rintro ⟨object, hobject, hit⟩
    have hgone : repo.removed stuck q ≠ repo.backend.under q := by
      intro hsame
      rw [hall.1 hsame object hobject] at hit
      cases hit
    simp [hgone]

theorem deletes (h : repo.backend.Sound) (q : Name) :
    Deletes (fun _ => false) q repo (repo.delete q) := by
  have hsame : ((repo.faulty []).delete q).map id sane = repo.delete q := by
    rw [delete, deleteFrom_faulty_nil]
    rfl
  rw [← hsame]
  exact deletes_faulty rfl h fun _ _ => rfl

/-- On every store that comes about, a deletion removes the objects under a name, each with an
event; and if some cannot be erased, those before the first of them. -/
theorem delete_removes_matching (h : repo.backend.Reachable) (q : Name) :
    Deletes (fun _ => false) q repo (repo.delete q) ∧
      ∀ (plan : List Fault) (stuck : Name → Bool), (∀ fault ∈ plan, fault.method = .erase) →
        (∀ object ∈ repo.backend.objects,
          Fault.planned plan .erase object.fullName = stuck object.fullName) →
        Deletes stuck q repo (((repo.faulty plan).delete q).map id sane) := by
  have hsound := Storage.sound_of_reachable h
  refine ⟨deletes hsound q, ?_⟩
  intro plan stuck hmethod hstuck
  have hfind : Fault.planned plan .find q = false := by
    apply List.any_eq_false.2
    intro fault hfault
    simp [hmethod fault hfault]
  apply deletes_faulty hfind hsound
  intro object hobject
  exact hstuck object (List.mem_of_mem_filter hobject)

/-- Of two packets the first goes and is counted, if the second cannot be erased. -/
theorem delete_removes_matching_of_refusal :
    let second : Data := .bare ⟨[.ofText "b"]⟩
    let repo : Repo Storage := ofBackend
      (((Storage.empty .memory 2).insert .blank).2.insert second).2
    let plan : List Fault := [⟨.erase, second.fullName, .io⟩]
    let result := ((repo.faulty plan).delete .empty).map id sane
    Deletes (fun name => name = second.fullName) .empty repo result ∧ result.1 = .failed 1 := by
  intro second repo plan result
  have hsecond : second.Readable :=
    Data.readable_bare (Name.sound_singleton (by decide)) (by decide)
  have hreachable : repo.backend.Reachable :=
    ⟨.memory, 2, (Relation.ReflTransGen.single (.insert .blank Data.readable_blank)).tail
      (.insert second hsecond)⟩
  have hplan : ∀ fault ∈ plan, fault.method = .erase := by
    intro fault hfault
    rw [List.mem_singleton.1 hfault]
  have hstuck : ∀ object ∈ repo.backend.objects,
      Fault.planned plan .erase object.fullName = decide (object.fullName = second.fullName) := by
    intro object _
    simp [plan, Fault.planned, eq_comm]
  have hdeletes := (delete_removes_matching hreachable .empty).2 plan
    (fun name => name = second.fullName) hplan hstuck
  refine ⟨hdeletes, ?_⟩
  have hlast : ∃ object ∈ repo.backend.under .empty,
      decide (object.fullName = second.fullName) = true := by decide +kernel
  have hlength : (repo.removed (fun name => name = second.fullName) .empty).length = 1 := by
    decide +kernel
  exact hlength ▸ hdeletes.failed hlast

end Repo

end NamedData
