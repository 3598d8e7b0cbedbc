import NamedData.Proofs.Sync.System
import NamedData.Store.Memory
/-!
# Sessions that run no more

A generation that was stopped or replaced never comes to run again, because a start takes a new
number. Until then whatever still arrives for it changes nothing, and what it has stored is what
a check reports until its session is replaced or forgotten.

    s.Retired g → Step s t → t.Retired g                                       (retired_of_step)
    s.Retired g → s runs to t → g does nothing in t                            (retired_is_inert)
-/

namespace NamedData.Sync

namespace Manager

variable {σ : Type} [Store.Backend σ]

/-- A report to a session that does not run is dropped. -/
theorem handle_missing_eq (m : Manager) (now : Nat) (repo : Repo σ) {root : Name}
    {generation : Nat} (ranges : List Range)
    (idle : m.sessions.running? root generation = none) :
    m.handle now repo (.missing root generation ranges) = ⟨m, repo, none, [], none⟩ := by
  rw [handle, pursue, idle]

/-- What comes of a request of a session that does not run is dropped. -/
theorem handle_fetched_eq (m : Manager) (now : Nat) (repo : Repo σ) {root : Name}
    {generation : Nat} (name : Name) (outcome : Outcome)
    (idle : m.sessions.running? root generation = none) :
    m.handle now repo (.fetched root generation name outcome) = ⟨m, repo, none, [], none⟩ := by
  rw [handle, conclude, idle]

/-- A turn leaves the repository as it is, or it is on a valid packet for a session that runs. -/
theorem repo_of_handle (m : Manager) (now : Nat) (repo : Repo σ) (message : Message) :
    (m.handle now repo message).repo = repo ∨
      ∃ root generation name data, message = .fetched root generation name (.valid data) ∧
        m.sessions.running? root generation ≠ none ∧
        (m.handle now repo message).repo = (repo.insert data).2 := by
  cases message with
  | fetched root generation name outcome =>
    rcases hruns : m.sessions.running? root generation with _ | ⟨session, progress⟩
    · left
      rw [m.handle_fetched_eq now repo name outcome hruns]
    · simp only [handle, conclude, hruns]
      cases outcome with
      | valid data =>
        right
        refine ⟨root, generation, name, data, rfl, by rw [hruns]; exact Option.some_ne_none _, ?_⟩
        rcases hinsert : repo.insert data with ⟨cause | outcome, after⟩ <;> simp only [hinsert]
      | invalid cause => exact Or.inl rfl
      | failed cause => exact Or.inl rfl
  | _ => exact Or.inl rfl

/-- A timer does not touch a session of another generation. -/
theorem handle_expire_eq (m : Manager) (now : Nat) (repo : Repo σ) {root : Name}
    {generation : Nat} {session : Session} (found : m.sessions.get? root = some session)
    (other : session.generation ≠ generation) :
    m.handle now repo (.expire root generation) = ⟨m, repo, none, [], none⟩ := by
  have hsame : m.forget root generation = m := by
    rw [Manager.forget, found]
    simp only
    split
    · rfl
    · rw [if_neg other]
  rw [handle, hsame]

/-- A check of a stopped session reports that it is stopped, and what it has stored. -/
theorem report_eq {m : Manager} {root : Name} {session : Session} {expiry : Nat}
    (found : m.sessions.get? root = some session) (stopped : session.phase = .stopped expiry) :
    m.report root = ⟨Command.Status.stopped.code, session.stored⟩ := by
  rw [report, found]
  simp only [stopped]

end Manager

namespace System

/-- Whether a generation was begun and runs no more: it was stopped, or replaced. -/
def Retired (s : System) (generation : Nat) : Prop :=
  (∃ root, s.Begun root generation) ∧
    ∀ root, s.manager.sessions.running? root generation = none

/-- Whether a message replaces or forgets the session of a generation under a root name. -/
def Ends (root : Name) (generation : Nat) (message : Message) : Prop :=
  (∃ parameter, message = .start root parameter) ∨ message = .expire root generation

/-- Whether nothing that arrives for a generation has any effect: it runs under no root name, its
reports and the outcomes of its requests change no session, store nothing and ask for nothing,
and its timer leaves the sessions of other generations alone. -/
structure Inert (σ : Type) [Store.Backend σ] (s : System) (generation : Nat) : Prop where
  idle : ∀ root, s.manager.sessions.running? root generation = none
  missing : ∀ (now : Nat) (repo : Repo σ) (root : Name) (ranges : List Range),
    s.manager.handle now repo (.missing root generation ranges) = ⟨s.manager, repo, none, [], none⟩
  fetched : ∀ (now : Nat) (repo : Repo σ) (root name : Name) (outcome : Outcome),
    s.manager.handle now repo (.fetched root generation name outcome) =
      ⟨s.manager, repo, none, [], none⟩
  expire : ∀ (now : Nat) (repo : Repo σ) (root : Name) (session : Session),
    s.manager.sessions.get? root = some session → session.generation ≠ generation →
      s.manager.handle now repo (.expire root generation) = ⟨s.manager, repo, none, [], none⟩

/-- A generation runs under no other root name than that under which it was begun. -/
theorem Orderly.retired_iff {s : System} (h : Orderly s) {root : Name} {generation : Nat}
    (begun : s.Begun root generation) :
    s.Retired generation ↔ s.manager.sessions.running? root generation = none := by
  constructor
  · intro retired
    exact retired.2 root
  · intro idle
    refine ⟨⟨root, begun⟩, ?_⟩
    intro other
    apply Decidable.byContradiction
    intro runs
    obtain rfl := h.unique root other generation begun (h.begun_of_runs runs)
    exact runs idle

/-- What ends a run of a session is a command under its root name, that stops it or starts
another, or the outcome of one of its requests. -/
theorem message_of_retirement {m next : Manager} {message : Message} {effects : List Effect}
    (move : m.Move message next effects) {root : Name} {generation : Nat}
    (runs : m.sessions.running? root generation ≠ none)
    (idle : next.sessions.running? root generation = none) :
    (∃ parameter, message = .start root parameter) ∨ message = .stop root ∨
      ∃ name outcome, message = .fetched root generation name outcome := by
  by_cases h : root = message.root
  · subst h
    cases move with
    | idle _ => exact absurd idle runs
    | start now root parameter => exact Or.inl ⟨parameter, rfl⟩
    | stop _ => exact Or.inr (Or.inl rfl)
    | pursue _ _ was =>
      obtain rfl := Sessions.generation_eq_of_running? runs was
      rw [Message.root, Manager.running?_resume was, if_pos rfl] at idle
      cases idle
    | again name outcome _ was =>
      obtain rfl := Sessions.generation_eq_of_running? runs was
      exact Or.inr (Or.inr ⟨name, outcome, rfl⟩)
    | exhaust name outcome _ was =>
      obtain rfl := Sessions.generation_eq_of_running? runs was
      exact Or.inr (Or.inr ⟨name, outcome, rfl⟩)
    | forget found stopped =>
      rw [Message.root, Sessions.running?, found] at runs
      simp only [stopped] at runs
      exact absurd rfl runs
  · rw [Manager.running?_of_move_of_ne move h] at idle
    exact absurd idle runs

variable {σ : Type} [Store.Backend σ]

theorem Retired.inert {s : System} {generation : Nat} (h : s.Retired generation) :
    Inert σ s generation where
  idle := h.2
  missing now repo root ranges := s.manager.handle_missing_eq now repo ranges (h.2 root)
  fetched now repo root name outcome :=
    s.manager.handle_fetched_eq now repo name outcome (h.2 root)
  expire now repo _ _ found other := s.manager.handle_expire_eq now repo found other

/-- A session of a generation that runs no more is stopped. -/
theorem Retired.stopped {s : System} {generation : Nat} (h : s.Retired generation) {root : Name}
    {session : Session} (found : s.manager.sessions.get? root = some session)
    (same : session.generation = generation) : ∃ expiry, session.phase = .stopped expiry := by
  cases hphase : session.phase with
  | stopped expiry => exact ⟨expiry, rfl⟩
  | running progress =>
    have hruns := Sessions.running?_eq_some_iff.2 ⟨found, hphase, same⟩
    exact absurd ((h.2 root).symm.trans hruns) nofun

/-! ## Steps -/

/-- A generation that runs no more never runs again. -/
theorem retired_of_step {s t : System} {generation : Nat} (orderly : Orderly s)
    (h : s.Retired generation) (step : Step σ s t) : t.Retired generation := by
  obtain ⟨⟨begunAt, begun⟩, idle⟩ := h
  obtain ⟨message, manager, effects, _, move, rfl⟩ := move_of_step step
  refine ⟨⟨begunAt, begun_after.2 (Or.inl begun)⟩, fun root => ?_⟩
  apply Decidable.byContradiction
  intro runs
  rcases Manager.runs_of_move move runs with hran | hnew
  · exact hran (idle root)
  · exact absurd hnew (Nat.ne_of_lt (orderly.below begunAt generation begun))

theorem retired_of_run {s t : System} {generation : Nat} (reachable : Reachable σ s)
    (h : s.Retired generation) (run : Relation.ReflTransGen (Step σ) s t) :
    t.Retired generation := by
  induction run with
  | refl => exact h
  | tail run step ih => exact retired_of_step (orderly_of_reachable (reachable.trans run)) ih step

/-- A stopped session keeps what it has stored until a turn replaces or forgets it. -/
theorem stopped_of_run {s t : System} (run : Relation.ReflTransGen (Step σ) s t) {root : Name}
    {session : Session} {expiry : Nat} (found : s.manager.sessions.get? root = some session)
    (stopped : session.phase = .stopped expiry) :
    ∃ turns, t.history = s.history ++ turns ∧
      ((∃ ticket, t.manager.sessions.get? root = some { session with phase := .stopped ticket }) ∨
        ∃ turn ∈ turns, Ends root session.generation turn.message) := by
  induction run with
  | refl =>
    refine ⟨[], (List.append_nil _).symm, Or.inl ⟨expiry, found.trans ?_⟩⟩
    rw [← stopped]
  | tail _ step ih =>
    obtain ⟨turns, hhistory, hkept⟩ := ih
    obtain ⟨message, manager, effects, _, move, rfl⟩ := move_of_step step
    refine ⟨turns ++ [⟨message, effects⟩], ?_, ?_⟩
    · rw [after, hhistory, List.append_assoc]
    · rcases hkept with ⟨ticket, hthere⟩ | ⟨turn, hturn, hends⟩
      · rcases Manager.stopped_of_move move hthere rfl with hstill | hends
        · exact Or.inl hstill
        · exact Or.inr ⟨_, List.mem_append_right _ List.mem_cons_self, hends⟩
      · exact Or.inr ⟨turn, List.mem_append_left _ hturn, hends⟩

/-! ## Whole runs -/

/-- Once a generation runs no more, then however the run goes on, nothing that arrives for it has
any effect, and a check of its session reports what it had stored when it was stopped, unless a
turn since then has replaced or forgotten it. -/
theorem retired_is_inert {s t : System} {generation : Nat} (reachable : Reachable σ s)
    (retired : s.Retired generation) (run : Relation.ReflTransGen (Step σ) s t) :
    Inert σ t generation ∧
      ∀ root session, s.manager.sessions.get? root = some session →
        session.generation = generation →
        s.manager.report root = ⟨Command.Status.stopped.code, session.stored⟩ ∧
          ∃ turns, t.history = s.history ++ turns ∧
            (t.manager.report root = s.manager.report root ∨
              ∃ turn ∈ turns, Ends root generation turn.message) := by
  refine ⟨(retired_of_run reachable retired run).inert, fun root session found same => ?_⟩
  obtain ⟨expiry, hstopped⟩ := retired.stopped found same
  have hreport := Manager.report_eq found hstopped
  obtain ⟨turns, hhistory, hkept⟩ := stopped_of_run run found hstopped
  refine ⟨hreport, turns, hhistory, ?_⟩
  rcases hkept with ⟨ticket, hthere⟩ | hends
  · exact Or.inl ((Manager.report_eq hthere rfl).trans hreport.symm)
  · exact Or.inr (same ▸ hends)

/-- The first session, stopped by a command before it has stored anything and then replaced by a
second, is such a generation. -/
theorem retired_is_inert_of_restart :
    let repo : Repo Store.MemoryStore := .ofBackend (.empty 1)
    let started := fresh.turn 0 repo (.start .empty (.ofName .empty))
    let stopped := started.turn 0 repo (.stop .empty)
    let restarted := stopped.turn 0 repo (.start .empty (.ofName .empty))
    Inert Store.MemoryStore restarted 1 ∧
      stopped.manager.report .empty = ⟨Command.Status.stopped.code, 0⟩ := by
  intro repo started stopped restarted
  have hstart : Step Store.MemoryStore fresh started := .turn 0 repo _ trivial rfl
  have hstop : Step Store.MemoryStore started stopped := .turn 0 repo _ trivial rfl
  have hrestart : Step Store.MemoryStore stopped restarted := .turn 0 repo _ trivial rfl
  have hreachable : Reachable Store.MemoryStore stopped :=
    (Relation.ReflTransGen.single hstart).tail hstop
  have hbegun : stopped.Begun .empty 1 := List.mem_cons_self
  have hretired : stopped.Retired 1 :=
    ((orderly_of_reachable hreachable).retired_iff hbegun).2 rfl
  obtain ⟨hinert, hreport⟩ := retired_is_inert hreachable hretired (.single hrestart)
  exact ⟨hinert, (hreport .empty _ rfl rfl).1⟩

end System

end NamedData.Sync
