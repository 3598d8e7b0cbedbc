import NamedData.Proofs.Sync.System
import NamedData.Store.Memory
/-!
# No request is lost or doubled

While a session runs, the names it waits for are those that were reported missing to it, each as
often as it was reported: a report adds its names on both sides, and every request that is over
is made again. The count that a session keeps is that of the requests it has sent.

    g runs → outstanding names of g ~ reported names of g                (running_session_conserves)
    g runs → issued = the number of requests sent for g                  (running_session_conserves)
-/

namespace NamedData.Sync

/-! ## What belongs to a generation -/

/-- The names of the requests of a generation. -/
def Request.namesFor (generation : Nat) (requests : List Request) : List Name :=
  (requests.filter fun request => request.generation = generation).map Request.name

/-- The names that a message reports missing to a generation. -/
def Message.namesFor (generation : Nat) : Message → List Name
  | .missing _ other ranges => if other = generation then ranges.flatMap Range.names else []
  | _ => []

/-- Whether a message is a report to a generation, or the outcome of one of its requests. -/
def Message.Drives (generation : Nat) : Message → Prop
  | .missing _ other _ | .fetched _ other _ _ => other = generation
  | _ => False

namespace Request

variable {generation : Nat}

theorem namesFor_append (a b : List Request) :
    namesFor generation (a ++ b) = namesFor generation a ++ namesFor generation b := by
  rw [namesFor, List.filter_append, List.map_append, namesFor, namesFor]

theorem namesFor_perm (generation : Nat) {a b : List Request} (h : a.Perm b) :
    (namesFor generation a).Perm (namesFor generation b) :=
  (h.filter _).map _

theorem namesFor_cons_self (root name : Name) (rest : List Request) :
    namesFor generation (⟨root, generation, name⟩ :: rest) = name :: namesFor generation rest := by
  rw [namesFor, List.filter_cons, if_pos (decide_eq_true rfl), List.map_cons, namesFor]

theorem namesFor_cons_of_ne {request : Request} (h : request.generation ≠ generation)
    (rest : List Request) : namesFor generation (request :: rest) = namesFor generation rest := by
  rw [namesFor, List.filter_cons_of_neg (by simpa using h), namesFor]

theorem namesFor_eq_nil {requests : List Request}
    (h : ∀ request ∈ requests, request.generation ≠ generation) :
    namesFor generation requests = [] :=
  List.map_eq_nil_iff.2
    (List.filter_eq_nil_iff.2 fun request hrequest => by simpa using h request hrequest)

/-- Requests for names are for these names. -/
theorem namesFor_fetches (generation : Nat) (root : Name) (progress : Progress)
    (names : List Name) :
    namesFor generation ((names.map fun name =>
      Effect.fetch root generation (progress.request name)).filterMap Effect.request?) = names := by
  induction names with
  | nil => rfl
  | cons name names ih =>
    have hfetch : (Effect.fetch root generation (progress.request name)).request? =
        some ⟨root, generation, name⟩ := rfl
    rw [List.map_cons, List.filterMap_cons_some hfetch, namesFor_cons_self, ih]

end Request

namespace System

/-- The names that a generation waits for. -/
def outstandingNames (s : System) (generation : Nat) : List Name :=
  Request.namesFor generation s.outstanding

/-- All names for which requests of a generation were ever sent. -/
def sentNames (s : System) (generation : Nat) : List Name :=
  Request.namesFor generation s.requests

/-- All names that were ever reported missing to a generation. -/
def reportedNames (s : System) (generation : Nat) : List Name :=
  s.history.flatMap fun turn => turn.message.namesFor generation

/-- Whether a generation waits for what was reported to it, and its count is right. -/
structure Conserves (s : System) (generation issued : Nat) : Prop where
  names : (s.outstandingNames generation).Perm (s.reportedNames generation)
  issued : issued = (s.sentNames generation).length

variable {s : System} {message : Message} {manager : Manager} {effects : List Effect}

/-! ## One turn -/

theorem outstandingNames_after (generation : Nat) :
    (s.after message manager effects).outstandingNames generation =
      Request.namesFor generation (s.remaining message) ++
        Request.namesFor generation (effects.filterMap Effect.request?) :=
  Request.namesFor_append _ _

theorem sentNames_after (generation : Nat) :
    (s.after message manager effects).sentNames generation =
      s.sentNames generation ++
        Request.namesFor generation (effects.filterMap Effect.request?) := by
  rw [sentNames, requests_after, Request.namesFor_append, sentNames]

theorem reportedNames_after (generation : Nat) :
    (s.after message manager effects).reportedNames generation =
      s.reportedNames generation ++ message.namesFor generation := by
  rw [reportedNames, after, List.flatMap_append, List.flatMap_singleton, reportedNames]

/-- What is not about a generation leaves it as it is. -/
theorem Conserves.after_other {generation issued : Nat} (h : s.Conserves generation issued)
    (arrives : s.CanArrive message) (other : ¬message.Drives generation)
    (none : ∀ request ∈ effects.filterMap Effect.request?, request.generation ≠ generation) :
    (s.after message manager effects).Conserves generation issued := by
  have hreported : message.namesFor generation = [] := by
    cases message with
    | missing _ _ _ => exact if_neg other
    | _ => rfl
  have hremaining : (Request.namesFor generation (s.remaining message)).Perm
      (s.outstandingNames generation) := by
    cases message with
    | fetched root gone name outcome =>
      have hne : gone ≠ generation := other
      have hperm := Request.namesFor_perm generation
        (List.perm_cons_erase (arrives : _ ∈ s.outstanding))
      rw [Request.namesFor_cons_of_ne hne] at hperm
      exact hperm.symm
    | _ => exact List.Perm.refl _
  refine ⟨?_, ?_⟩
  · rw [outstandingNames_after, reportedNames_after, Request.namesFor_eq_nil none, hreported,
      List.append_nil, List.append_nil]
    exact hremaining.trans h.names
  · rw [sentNames_after, Request.namesFor_eq_nil none, List.append_nil]
    exact h.issued

/-- A generation that was never begun waits for nothing. -/
theorem Orderly.conserves_of_not_begun (h : Orderly s) {generation : Nat}
    (never : ∀ root, ¬s.Begun root generation) : s.Conserves generation 0 := by
  have houtstanding : s.outstandingNames generation = [] :=
    Request.namesFor_eq_nil fun request hrequest hsame =>
      never request.root (hsame ▸ h.pending request hrequest)
  have hsent : s.sentNames generation = [] :=
    Request.namesFor_eq_nil fun request hrequest hsame =>
      never request.root (hsame ▸ h.asked request hrequest)
  have hreported : s.reportedNames generation = [] := by
    apply List.flatMap_eq_nil_iff.2
    intro turn hturn
    cases hmessage : turn.message with
    | missing root other ranges =>
      refine if_neg fun hsame => never root ?_
      exact hsame ▸ h.reported turn hturn root other ranges hmessage
    | _ => rfl
  refine ⟨?_, ?_⟩
  · rw [houtstanding, hreported]
  · rw [hsent]
    rfl

/-- A report adds its names on both sides. -/
theorem Conserves.after_pursue {generation issued : Nat} (h : s.Conserves generation issued)
    (root : Name) (progress : Progress) (ranges : List Range) :
    (s.after (.missing root generation ranges) manager
      ((ranges.flatMap Range.names).map fun name =>
        .fetch root generation (progress.request name))).Conserves generation
      (issued + (ranges.flatMap Range.names).length) := by
  have hreported : (Message.missing root generation ranges).namesFor generation =
      ranges.flatMap Range.names := if_pos rfl
  refine ⟨?_, ?_⟩
  · rw [outstandingNames_after, reportedNames_after, Request.namesFor_fetches, hreported]
    exact h.names.append_right _
  · rw [sentNames_after, Request.namesFor_fetches, List.length_append, h.issued]

/-- A request that is over is made again. -/
theorem Conserves.after_again {generation issued : Nat} (h : s.Conserves generation issued)
    (root name : Name) (outcome : Outcome) (progress : Progress)
    (arrives : s.CanArrive (.fetched root generation name outcome)) :
    (s.after (.fetched root generation name outcome) manager
      [.fetch root generation (progress.request name)]).Conserves generation (issued + 1) := by
  have hnew := Request.namesFor_fetches generation root progress [name]
  have hperm := Request.namesFor_perm generation
    (List.perm_cons_erase (arrives : _ ∈ s.outstanding))
  rw [Request.namesFor_cons_self] at hperm
  rw [List.map_singleton] at hnew
  refine ⟨?_, ?_⟩
  · rw [outstandingNames_after, reportedNames_after, hnew]
    have hreported : (Message.fetched root generation name outcome).namesFor generation = [] := rfl
    rw [hreported, List.append_nil]
    exact (List.perm_append_singleton name _).trans (hperm.symm.trans h.names)
  · rw [sentNames_after, hnew, List.length_append, h.issued, List.length_singleton]

/-- A message that drives a generation is under the root name under which it was begun. -/
theorem Orderly.begun_of_drives (h : Orderly s) (arrives : s.CanArrive message) {generation : Nat}
    (drives : message.Drives generation) : s.Begun message.root generation := by
  cases message with
  | missing root other ranges => exact drives ▸ arrives
  | fetched root other name outcome => exact drives ▸ h.pending _ arrives
  | _ => cases drives

/-- One turn keeps the names and the counts of all sessions that run after it. -/
theorem conserves_after (h : Orderly s)
    (before : ∀ root generation session progress,
      s.manager.sessions.running? root generation = some (session, progress) →
        s.Conserves generation progress.issued)
    (arrives : s.CanArrive message) (move : s.manager.Move message manager effects)
    {root : Name} {generation : Nat} {session : Session} {progress : Progress}
    (runs : manager.sessions.running? root generation = some (session, progress)) :
    (s.after message manager effects).Conserves generation progress.issued := by
  by_cases hroot : root = message.root
  · subst hroot
    cases move with
    | idle idle =>
      refine (before _ _ _ _ runs).after_other arrives ?_ fun request h => absurd h List.not_mem_nil
      intro drives
      cases message with
      | missing root other ranges =>
        obtain rfl : other = generation := drives
        exact absurd (runs.symm.trans idle) (Option.some_ne_none _)
      | fetched root other name outcome =>
        obtain rfl : other = generation := drives
        exact absurd (runs.symm.trans idle) (Option.some_ne_none _)
      | _ => exact drives
    | start now root parameter =>
      rw [Message.root, Manager.begin, Sessions.running?_put_running _ _ rfl] at runs
      split at runs
      · next hsame =>
        subst hsame
        cases runs
        refine (h.conserves_of_not_begun ?_).after_other arrives id ?_
        · intro root hbegun
          exact Nat.lt_irrefl _ (h.below root _ hbegun)
        · intro request hrequest
          rw [Manager.requests_begin] at hrequest
          exact absurd hrequest List.not_mem_nil
      · cases runs
    | stop _ =>
      exact absurd (runs.symm.trans (Sessions.running?_put_stopped _ _ rfl _))
        (Option.some_ne_none _)
    | pursue ranges lastReport was =>
      obtain ⟨rfl, hfound⟩ := Manager.eq_of_running?_resume was runs
      cases hfound
      exact (before _ _ _ _ was).after_pursue _ _ ranges
    | again name outcome stored was =>
      obtain ⟨rfl, hfound⟩ := Manager.eq_of_running?_resume was runs
      cases hfound
      exact (before _ _ _ _ was).after_again _ name outcome _ arrives
    | exhaust _ _ _ _ =>
      exact absurd (runs.symm.trans (Sessions.running?_put_stopped _ _ rfl _))
        (Option.some_ne_none _)
    | forget _ _ =>
      exact absurd (runs.symm.trans (Sessions.running?_erase_self _ _ _))
        (Option.some_ne_none _)
  · -- nothing is done for a session under another root name
    rw [Manager.running?_of_move_of_ne move hroot] at runs
    have hbegun : s.Begun root generation :=
      h.begun_of_runs (by rw [runs]; exact Option.some_ne_none _)
    refine (before _ _ _ _ runs).after_other arrives ?_ ?_
    · intro drives
      exact hroot (h.unique _ _ _ hbegun (h.begun_of_drives arrives drives))
    · intro request hrequest hsame
      obtain ⟨hname, hruns⟩ := Manager.runs_of_request move hrequest
      exact hroot (hname ▸ h.unique _ _ _ hbegun (hsame ▸ h.begun_of_runs hruns))

variable {σ : Type} [Store.Backend σ]

/-! ## Whole runs -/

theorem conserves_of_reachable (h : Reachable σ s) {root : Name} {generation : Nat}
    {session : Session} {progress : Progress}
    (runs : s.manager.sessions.running? root generation = some (session, progress)) :
    s.Conserves generation progress.issued := by
  induction h generalizing root generation session progress with
  | refl => cases runs
  | tail run step ih =>
    obtain ⟨message, manager, effects, arrives, move, rfl⟩ := move_of_step step
    exact conserves_after (orderly_of_reachable run) (fun _ _ _ _ h => ih h) arrives move runs

/-- After every run, a session that runs waits for exactly the names that were reported missing
to it, each as often as it was reported, and has counted the requests it has sent. -/
theorem running_session_conserves (h : Reachable σ s) {root : Name} {generation : Nat}
    {session : Session} {progress : Progress}
    (runs : s.manager.sessions.running? root generation = some (session, progress)) :
    (s.outstandingNames generation).Perm (s.reportedNames generation) ∧
      progress.issued = (s.sentNames generation).length := by
  obtain ⟨names, issued⟩ := conserves_of_reachable h runs
  exact ⟨names, issued⟩

/-- A session to which two names are reported, and for one of which a request fails, waits for
both and has sent three requests. -/
theorem running_session_conserves_of_retry :
    let repo : Repo Store.MemoryStore := .ofBackend (.empty 1)
    let started := fresh.turn 0 repo (.start .empty (.ofName .empty))
    let reported := started.turn 0 repo (.missing .empty 1 [⟨.empty, 1, 2⟩])
    let retried := reported.turn 0 repo
      (.fetched .empty 1 (Name.empty.pushNumber 1) (.failed .timeout))
    (retried.outstandingNames 1).Perm (retried.reportedNames 1) ∧
      3 = (retried.sentNames 1).length := by
  intro repo started reported retried
  have hstart : Step Store.MemoryStore fresh started := .turn 0 repo _ trivial rfl
  have hreport : Step Store.MemoryStore started reported :=
    .turn 0 repo _ List.mem_cons_self rfl
  have hretry : Step Store.MemoryStore reported retried :=
    .turn 0 repo _ List.mem_cons_self rfl
  have hruns : retried.manager.sessions.running? .empty 1 =
      some (⟨1, 0, .running ⟨⟨.zero, 0, Interest.defaultLifetime⟩, 0, 3⟩⟩,
        ⟨⟨.zero, 0, Interest.defaultLifetime⟩, 0, 3⟩) := rfl
  exact running_session_conserves (((Relation.ReflTransGen.single hstart).tail hreport).tail hretry)
    hruns

end System

end NamedData.Sync
