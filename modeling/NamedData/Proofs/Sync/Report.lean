import NamedData.Proofs.Store.Presence
import NamedData.Proofs.Sync.Ingest
import NamedData.Proofs.Sync.Log
/-!
# What a check reports

A packet is accepted for a generation if it is valid and comes while the generation runs. The
session counts it then, once, unless the manager cannot go on. A stop leaves the count as it is, and
a new session under the same root name begins with none. What was accepted is stored, unless a row
that cannot be read has its full name: then it is counted all the same.

    a turn adds to the count of a session what it accepts for its generation     (stored_of_turn)
    an accepted packet is stored ↔ its full name was not blocked           (has_of_accepted_iff)
    a check reports what the session is doing, and how many were accepted  (check_reports_truth)
-/

namespace NamedData.Sync

open Store Command

namespace Occasion

section

variable {σ : Type}

/-- The packet that is accepted for a generation: a valid one, that comes while it runs. -/
def accepted? (generation : Nat) (o : Occasion σ) : Option Data :=
  match o.message with
  | .fetched root other _ (.valid data) =>
    if other = generation ∧ o.manager.sessions.running? root generation ≠ none then some data
    else none
  | _ => none

variable {o : Occasion σ} {generation : Nat}

theorem accepted?_eq_some_iff {data : Data} :
    o.accepted? generation = some data ↔ ∃ root name,
      o.message = .fetched root generation name (.valid data) ∧
        o.manager.sessions.running? root generation ≠ none := by
  obtain ⟨manager, now, repo, message⟩ := o
  constructor
  · intro h
    match message, h with
    | .fetched root other name (.valid brought), h =>
      obtain ⟨⟨rfl, runs⟩, hdata⟩ := Option.ite_none_right_eq_some.1 h
      cases hdata
      exact ⟨root, name, rfl, runs⟩
  · rintro ⟨root, name, rfl, runs⟩
    exact if_pos ⟨rfl, runs⟩

/-- Nothing is accepted for a session under another root name. -/
theorem accepted?_of_ne (numbered : o.manager.Numbered) {root : Name} {session : Session}
    (found : o.manager.sessions.get? root = some session) (h : root ≠ o.message.root) :
    o.accepted? session.generation = none := by
  rw [Option.eq_none_iff_forall_ne_some]
  intro data hdata
  obtain ⟨other, name, hmessage, runs⟩ := accepted?_eq_some_iff.1 hdata
  rw [hmessage] at h
  exact h (numbered.root_of_runs found runs).symm

end

end Occasion

section

variable {σ : Type} [Backend σ]

/-- After a request is over, the session is there, with what it has stored. -/
theorem Manager.get?_proceed (m : Manager) (now : Nat) (root : Name) (session : Session)
    (progress : Progress) (name : Name) :
    ∃ phase, (m.proceed now root session progress name).1.sessions.get? root =
      some { session with phase } := by
  unfold proceed
  split
  · exact ⟨_, Sessions.get?_put_self _ _ _⟩
  · exact ⟨_, Sessions.get?_put_self _ _ _⟩

/-- What a turn leaves of a session under the root name of its message: a session of the same
generation, which has counted what is accepted for it, or a new one. -/
theorem Occasion.stored_at_root {o : Occasion σ} (going : o.result.failure = none)
    {session : Session} (found : o.result.manager.sessions.get? o.message.root = some session) :
    (∃ was, o.manager.sessions.get? o.message.root = some was ∧
        was.generation = session.generation ∧
        session.stored = was.stored + (o.accepted? session.generation).toList.length) ∨
      session.generation = o.manager.nextGeneration ∧ session.stored = 0 ∧
        o.accepted? session.generation = none := by
  obtain ⟨m, now, repo, message⟩ := o
  simp only [result] at going found
  cases message with
  | start root parameter =>
    obtain rfl := Option.some.inj ((Sessions.get?_put_self _ _ _).symm.trans found)
    exact Or.inr ⟨rfl, rfl, rfl⟩
  | check root => exact Or.inl ⟨session, found, rfl, rfl⟩
  | stop root =>
    simp only [Manager.handle] at found
    split at found
    · exact Or.inl ⟨session, found, rfl, rfl⟩
    · next was hwas =>
      obtain rfl := Option.some.inj ((Sessions.get?_put_self _ _ _).symm.trans found)
      exact Or.inl ⟨was, hwas, rfl, rfl⟩
  | missing root generation ranges =>
    simp only [Manager.handle, Manager.pursue] at found
    split at found
    · exact Or.inl ⟨session, found, rfl, rfl⟩
    · next was progress hruns =>
      obtain rfl := Option.some.inj ((Sessions.get?_put_self _ _ _).symm.trans found)
      exact Or.inl ⟨was, (Sessions.running?_eq_some_iff.1 hruns).1, rfl, rfl⟩
  | fetched root generation name outcome =>
    rcases hruns : m.sessions.running? root generation with _ | ⟨was, progress⟩
    · -- it is dropped, and not accepted for this generation or another
      rw [m.handle_fetched_eq now repo name outcome hruns] at found
      refine Or.inl ⟨session, found, rfl, ?_⟩
      have hnone : accepted? session.generation
          ⟨m, now, repo, .fetched root generation name outcome⟩ = none := by
        rw [Option.eq_none_iff_forall_ne_some]
        intro data hdata
        obtain ⟨_, _, hmessage, runs⟩ := accepted?_eq_some_iff.1 hdata
        cases hmessage
        exact runs hruns
      rw [hnone]
      rfl
    · obtain ⟨hwas, _, rfl⟩ := Sessions.running?_eq_some_iff.1 hruns
      cases outcome with
      | valid data =>
        obtain ⟨outcome, after, _, hhandle⟩ := Manager.handle_valid now repo name data hruns going
        rw [hhandle] at found
        obtain ⟨phase, hget⟩ := m.get?_proceed now root
          { was with stored := was.stored + 1 } progress name
        obtain rfl := Option.some.inj (hget.symm.trans found)
        have hsome : accepted? was.generation
            ⟨m, now, repo, .fetched root was.generation name (.valid data)⟩ = some data :=
          accepted?_eq_some_iff.2 ⟨root, name, rfl, by rw [hruns]; exact Option.some_ne_none _⟩
        refine Or.inl ⟨was, hwas, rfl, ?_⟩
        rw [hsome]
        rfl
      | invalid cause =>
        simp only [Manager.handle, Manager.conclude, hruns] at found
        obtain ⟨phase, hget⟩ := m.get?_proceed now root was progress name
        obtain rfl := Option.some.inj (hget.symm.trans found)
        exact Or.inl ⟨was, hwas, rfl, rfl⟩
      | failed cause =>
        simp only [Manager.handle, Manager.conclude, hruns] at found
        obtain ⟨phase, hget⟩ := m.get?_proceed now root was progress name
        obtain rfl := Option.some.inj (hget.symm.trans found)
        exact Or.inl ⟨was, hwas, rfl, rfl⟩
  | expire root generation =>
    simp only [Manager.handle, Manager.forget] at found
    split at found
    · exact Or.inl ⟨session, found, rfl, rfl⟩
    · split at found
      · exact Or.inl ⟨session, found, rfl, rfl⟩
      · split at found
        · cases (Sessions.get?_erase_self _ _).symm.trans found
        · exact Or.inl ⟨session, found, rfl, rfl⟩

/-- After a turn, a session has stored what it had before and what the turn accepts for its
generation; or it is new, and has stored nothing. -/
theorem Occasion.stored_of_turn {o : Occasion σ} (numbered : o.manager.Numbered)
    (going : o.result.failure = none) {root : Name} {session : Session}
    (found : o.result.manager.sessions.get? root = some session) :
    (∃ was, o.manager.sessions.get? root = some was ∧ was.generation = session.generation ∧
        session.stored = was.stored + (o.accepted? session.generation).toList.length) ∨
      session.generation = o.manager.nextGeneration ∧ session.stored = 0 ∧
        o.accepted? session.generation = none := by
  by_cases h : root = o.message.root
  · subst h
    exact stored_at_root going found
  · have hmove := o.manager.move_handle o.now o.repo o.message going
    have hwas := (Manager.get?_of_move_of_ne hmove h).symm.trans found
    refine Or.inl ⟨session, hwas, rfl, ?_⟩
    rw [accepted?_of_ne numbered hwas h]
    rfl

end

namespace Run

/-! ## Whole runs -/

section

variable {σ : Type}

/-- The packets that were accepted for a generation. -/
def accepted (log : List (Occasion σ)) (generation : Nat) : List Data :=
  log.filterMap (Occasion.accepted? generation)

theorem accepted_snoc (log : List (Occasion σ)) (o : Occasion σ) (generation : Nat) :
    accepted (log ++ [o]) generation =
      accepted log generation ++ (o.accepted? generation).toList := by
  rw [accepted, List.filterMap_append, accepted]
  cases h : o.accepted? generation with
  | none => simp [h]
  | some data => simp [h]

variable [Backend σ] {allowed : List (Occasion σ) → Occasion σ → Prop} {log : List (Occasion σ)}
  {m : Manager}

/-- Nothing was accepted for a generation that is still to come. -/
theorem accepted_eq_nil (run : Run allowed log m) {generation : Nat}
    (new : m.nextGeneration ≤ generation) : accepted log generation = [] := by
  induction run with
  | fresh => rfl
  | @turn log o before arrives going ih =>
    have hmove := o.manager.move_handle o.now o.repo o.message going
    have hold := Nat.le_trans (Manager.nextGeneration_le_of_move hmove) new
    have hnone : o.accepted? generation = none := by
      rw [Option.eq_none_iff_forall_ne_some]
      intro data hdata
      obtain ⟨root, name, _, runs⟩ := Occasion.accepted?_eq_some_iff.1 hdata
      exact absurd hold (Nat.not_le.2 (before.numbered.below_of_runs runs))
    rw [accepted_snoc, ih hold, hnone]
    rfl

/-- A session has counted what was accepted for its generation. -/
theorem stored_eq (run : Run allowed log m) {root : Name} {session : Session}
    (found : m.sessions.get? root = some session) :
    session.stored = (accepted log session.generation).length := by
  induction run generalizing root session with
  | fresh => cases found
  | @turn log o before arrives going ih =>
    rw [accepted_snoc, List.length_append]
    rcases Occasion.stored_of_turn before.numbered going found with
      ⟨was, hwas, hsame, hstored⟩ | ⟨hnew, hstored, hnone⟩
    · rw [hstored, ih hwas, hsame]
    · rw [hstored, hnone, hnew, accepted_eq_nil before (Nat.le_refl _)]
      rfl

end

/-- What is accepted is stored unless its name is blocked. -/
theorem has_of_accepted_iff {o : Occasion Storage} (going : o.result.failure = none)
    {generation : Nat} {data : Data} (accepted : o.accepted? generation = some data) :
    o.result.repo.has data.fullName = .ok true ↔ ¬o.repo.backend.Blocks data.fullName := by
  obtain ⟨root, name, hmessage, runs⟩ := Occasion.accepted?_eq_some_iff.1 accepted
  obtain ⟨⟨session, progress⟩, hruns⟩ := Option.ne_none_iff_exists'.1 runs
  rw [Occasion.result, hmessage] at going ⊢
  obtain ⟨outcome, after, hdone, hhandle⟩ :=
    Manager.handle_valid o.now o.repo name data hruns going
  rw [hhandle, Repo.has_eq, Except.ok.injEq, decide_eq_true_iff]
  exact Repo.mem_of_insert_iff hdone

/-- After every run, on any stores, a check is answered. There is no entry for a root name just if
it reports so; else it reports whether the session runs or is stopped, and as its count the number
of packets that were accepted for the generation of the session. Each of them was stored on that
turn just if its full name was not blocked. -/
theorem check_reports_truth {allowed : List (Occasion Storage) → Occasion Storage → Prop}
    {log : List (Occasion Storage)} {m : Manager} (run : Run allowed log m) (now : Nat)
    (repo : Repo Storage) (root : Name) :
    ∃ response, (m.handle now repo (.check root)).reply = some response ∧
      (response.statusCode = 404 ↔ m.sessions.get? root = none) ∧
      ∀ session, m.sessions.get? root = some session →
        ((∃ progress, session.phase = .running progress) → response.statusCode = 300) ∧
        ((∃ expiry, session.phase = .stopped expiry) → response.statusCode = 101) ∧
        response.insertNum = (accepted log session.generation).length ∧
        ∀ o ∈ log, ∀ data, o.accepted? session.generation = some data →
          (o.result.repo.has data.fullName = .ok true ↔
            ¬o.repo.backend.Blocks data.fullName) := by
  have hstored : ∀ o ∈ log, ∀ generation data, o.accepted? generation = some data →
      (o.result.repo.has data.fullName = .ok true ↔ ¬o.repo.backend.Blocks data.fullName) :=
    fun o ho generation data => has_of_accepted_iff (run.going_of_mem ho)
  refine ⟨m.report root, rfl, ?_⟩
  unfold Manager.report
  cases hfound : m.sessions.get? root with
  | none => exact ⟨iff_of_true rfl rfl, nofun⟩
  | some session =>
    have hcount := run.stored_eq hfound
    cases hphase : session.phase with
    | running progress =>
      simp only [hphase]
      refine ⟨iff_of_false (by decide) nofun, ?_⟩
      rintro _ ⟨⟩
      exact ⟨fun _ => rfl, fun ⟨_, hstopped⟩ => absurd (hphase.symm.trans hstopped) nofun, hcount,
        fun o ho => hstored o ho _⟩
    | stopped expiry =>
      simp only [hphase]
      refine ⟨iff_of_false (by decide) nofun, ?_⟩
      rintro _ ⟨⟩
      exact ⟨fun ⟨_, hruns⟩ => absurd (hphase.symm.trans hruns) nofun, fun _ => rfl, hcount,
        fun o ho => hstored o ho _⟩

/-- A session that takes up one packet, is stopped and drops another is reported as stopped, with
one object stored. -/
theorem check_reports_truth_of_late_packet :
    let first : Data := .bare (Name.empty.pushNumber 1)
    let second : Data := .bare (Name.empty.pushNumber 2)
    let repo : Repo Storage := .ofBackend (.empty .memory 2)
    let started : Occasion Storage := ⟨.empty, 0, repo, .start .empty (.ofName .empty)⟩
    let reported : Occasion Storage :=
      ⟨started.result.manager, 1, repo, .missing .empty 1 [⟨.empty, 1, 2⟩]⟩
    let taken : Occasion Storage :=
      ⟨reported.result.manager, 2, repo, .fetched .empty 1 (Name.empty.pushNumber 1) (.valid first)⟩
    let stopped : Occasion Storage := ⟨taken.result.manager, 3, taken.result.repo, .stop .empty⟩
    let late : Occasion Storage := ⟨stopped.result.manager, 4, taken.result.repo,
      .fetched .empty 1 (Name.empty.pushNumber 2) (.valid second)⟩
    let log := [started, reported, taken, stopped, late]
    ∃ response, (late.result.manager.handle 5 late.result.repo (.check .empty)).reply =
        some response ∧ response.statusCode = 101 ∧
      response.insertNum = (accepted log 1).length ∧ accepted log 1 = [first] ∧
      taken.result.repo.has first.fullName = .ok true := by
  intro first second repo started reported taken stopped late log
  have run : Run (fun _ _ => True) log late.result.manager :=
    (((((Run.fresh.turn (o := started) trivial rfl).turn (o := reported) trivial rfl).turn
      (o := taken) trivial rfl).turn (o := stopped) trivial rfl).turn (o := late) trivial rfl)
  obtain ⟨response, hreply, _, hreports⟩ :=
    check_reports_truth run 5 late.result.repo .empty
  obtain ⟨_, hstopped, hcount, hstored⟩ := hreports ⟨1, 1, .stopped 1⟩ rfl
  refine ⟨response, hreply, hstopped ⟨1, rfl⟩, hcount, rfl, ?_⟩
  exact (hstored taken (by simp [log]) first rfl).2 (Storage.not_blocks_empty .memory 2 _)

/-- A session to which a packet comes whose full name a damaged row has reports one object stored,
though the packet is not there. -/
theorem check_counts_packet_not_stored :
    let data : Data := .bare (Name.empty.pushNumber 1)
    let table := ((DurableStore.insert ⟨.empty, .empty 1⟩ data).2.table.replaceData
      data.fullName.encodeValue [6]).2
    let repo : Repo Storage := .ofBackend (.durable ⟨table, .empty 1⟩)
    let started : Occasion Storage := ⟨.empty, 0, repo, .start .empty (.ofName .empty)⟩
    let reported : Occasion Storage :=
      ⟨started.result.manager, 1, repo, .missing .empty 1 [⟨.empty, 1, 1⟩]⟩
    let taken : Occasion Storage :=
      ⟨reported.result.manager, 2, repo, .fetched .empty 1 (Name.empty.pushNumber 1) (.valid data)⟩
    DurableStore.load table 1 = .ok ⟨table, .empty 1⟩ ∧ data.Readable ∧
      Run (fun _ _ => True) [started, reported, taken] taken.result.manager ∧
      taken.accepted? 1 = some data ∧
      (taken.result.manager.handle 3 taken.result.repo (.check .empty)).reply = some ⟨300, 1⟩ ∧
      taken.result.repo.has data.fullName = .ok false := by
  intro data table repo started reported taken
  have hreadable : data.Readable :=
    Data.readable_bare (Name.sound_singleton (by decide)) (by decide)
  have run : Run (fun _ _ => True) [started, reported, taken] taken.result.manager :=
    ((Run.fresh.turn (o := started) trivial rfl).turn (o := reported) trivial rfl).turn
      (o := taken) trivial (by decide +kernel)
  exact ⟨by decide +kernel, hreadable, run, rfl, by decide +kernel, by decide +kernel⟩

end Run

end NamedData.Sync
