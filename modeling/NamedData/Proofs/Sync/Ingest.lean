import NamedData.Proofs.Repo.Retention
import NamedData.Proofs.Sync.Budget
import NamedData.Proofs.Sync.Inert
/-!
# What a session takes in

A manager and a repository on any store, with rows that can be read and others that cannot, which
others use too. While a session runs it takes up every outcome of its requests: a valid packet is
stored and counted, and the name is asked for again. The outcome on which it stops is the last that
it takes up; what comes after that is dropped. So at the stop it has taken up all that it has asked
for but one for each name reported to it, less one.

    taken up + asked for on reports = sent, or sent + 1 once it has stopped      (tallies_turn)
    what is taken up is stored or blocked, or was deleted since                (ingests_of_run)
    a stopped session reports what it took up           (stopped_session_keeps_what_it_took_up)
-/

namespace NamedData.Sync

open Store

/-! ## What is taken up -/

namespace Handled

/-- The packet that a turn took up for a generation. One that is dropped leaves nothing to do. -/
def takenUp? (generation : Nat) (turn : Handled) : Option Data :=
  match turn.message with
  | .fetched _ other _ (.valid data) =>
    if other = generation ∧ turn.effects ≠ [] then some data else none
  | _ => none

/-- The names for which a report made a generation send requests. -/
def pursued (generation : Nat) (turn : Handled) : List Name :=
  match turn.message with
  | .missing _ _ _ => Request.namesFor generation (turn.effects.filterMap Effect.request?)
  | _ => []

theorem message_of_takenUp? {generation : Nat} {turn : Handled} {data : Data}
    (h : takenUp? generation turn = some data) :
    ∃ root name, turn.message = .fetched root generation name (.valid data) := by
  obtain ⟨message, effects⟩ := turn
  cases message with
  | fetched root other name outcome =>
    cases outcome with
    | valid brought =>
      obtain ⟨⟨rfl, _⟩, hdata⟩ := Option.ite_none_right_eq_some.1 h
      cases hdata
      exact ⟨root, name, rfl⟩
    | _ => cases h
  | _ => cases h

end Handled

/-- How many outcomes a session has taken up without asking again: the one on which it stopped. -/
def Phase.unasked : Phase → Nat
  | .running _ => 0
  | .stopped _ => 1

namespace System

/-- The packets that a generation has taken up. -/
def takenUp (s : System) (generation : Nat) : List Data :=
  s.history.filterMap (Handled.takenUp? generation)

/-- The names that a generation has asked for because they were reported to it. -/
def pursuedNames (s : System) (generation : Nat) : List Name :=
  s.history.flatMap (Handled.pursued generation)

/-- Whether a session is of a generation and has counted what that has taken up, and has sent a
request for every name pursued and for every packet taken up but the last. -/
structure Tallies (s : System) (generation : Nat) (session : Session) : Prop where
  same : session.generation = generation
  stored : session.stored = (s.takenUp generation).length
  sent : (s.sentNames generation).length + session.phase.unasked =
    (s.pursuedNames generation).length + (s.takenUp generation).length

variable {s : System} {message : Message} {manager : Manager} {effects : List Effect}
  {generation : Nat}

theorem takenUp_after : (s.after message manager effects).takenUp generation =
    s.takenUp generation ++ (Handled.takenUp? generation ⟨message, effects⟩).toList := by
  rw [takenUp, after, List.filterMap_append, takenUp]
  cases h : Handled.takenUp? generation ⟨message, effects⟩ with
  | none => simp [h]
  | some data => simp [h]

theorem pursuedNames_after : (s.after message manager effects).pursuedNames generation =
    s.pursuedNames generation ++ Handled.pursued generation ⟨message, effects⟩ := by
  rw [pursuedNames, after, List.flatMap_append, List.flatMap_singleton, pursuedNames]

/-- A turn in which nothing is sent or taken up for a generation leaves its tally. -/
theorem Tallies.after_idle {session : Session} (h : s.Tallies generation session)
    (silent : Request.namesFor generation (effects.filterMap Effect.request?) = [])
    (dropped : Handled.takenUp? generation ⟨message, effects⟩ = none) :
    (s.after message manager effects).Tallies generation session := by
  have hpursued : Handled.pursued generation ⟨message, effects⟩ = [] := by
    cases message with
    | missing root other ranges => exact silent
    | _ => rfl
  refine ⟨h.same, ?_, ?_⟩
  · rw [takenUp_after, dropped, h.stored]
    simp
  · rw [takenUp_after, pursuedNames_after, sentNames_after, dropped, hpursued, silent]
    simpa using h.sent

end System

/-- Whether a message neither starts nor stops a session under a root name, and brings a packet if
it is the outcome of a request of a generation. -/
def Message.Spares (root : Name) (generation : Nat) : Message → Prop
  | .start other _ | .stop other => other ≠ root
  | .fetched _ other _ outcome => other = generation → ∃ data, outcome = .valid data
  | _ => True

namespace Manager

variable {m next : Manager} {message : Message} {effects : List Effect} {root : Name}
  {generation : Nat}

/-- A session that is not replaced, stopped or driven is as it was. -/
theorem get?_of_move_of_spared (move : Move m message next effects)
    (spared : message.Spares root generation) (idle : ¬message.Drives generation)
    (same : ∀ session, m.sessions.get? root = some session → session.generation = generation)
    {session : Session} (found : next.sessions.get? root = some session) :
    m.sessions.get? root = some session := by
  by_cases h : root = message.root
  · subst h
    have hother : ∀ {other : Nat} {was : Session} {progress : Progress},
        m.sessions.running? message.root other = some (was, progress) → other = generation := by
      intro other was progress runs
      obtain ⟨hfound, _, rfl⟩ := Sessions.running?_eq_some_iff.1 runs
      exact same was hfound
    -- a move at the root is a command or drives the session that is there
    cases move with
    | idle _ => exact found
    | start _ _ _ => exact absurd rfl spared
    | stop _ => exact absurd rfl spared
    | pursue _ _ runs => exact absurd (hother runs) idle
    | again _ _ _ runs => exact absurd (hother runs) idle
    | exhaust _ _ _ runs => exact absurd (hother runs) idle
    | forget _ _ =>
      exact absurd (found.symm.trans (Sessions.get?_erase_self _ _)) (Option.some_ne_none _)
  · rwa [get?_of_move_of_ne move h] at found

variable {σ : Type} [Backend σ]

/-- A packet for a session that runs is stored, or the manager cannot go on. -/
theorem handle_valid (now : Nat) (repo : Repo σ) (name : Name) (data : Data) {session : Session}
    {progress : Progress} (runs : m.sessions.running? root generation = some (session, progress))
    (going : (m.handle now repo (.fetched root generation name (.valid data))).failure = none) :
    ∃ outcome after, repo.insert data = (.ok outcome, after) ∧
      let went := m.proceed now root { session with stored := session.stored + 1 } progress name
      m.handle now repo (.fetched root generation name (.valid data)) =
        ⟨went.1, after, none, went.2, none⟩ := by
  rw [handle, conclude, runs] at going ⊢
  simp only at going ⊢
  rcases hinsert : repo.insert data with ⟨cause | outcome, after⟩
  · rw [hinsert] at going
    cases going
  · exact ⟨outcome, after, rfl, rfl⟩

end Manager

namespace System

variable {s : System} {root : Name} {generation : Nat}

/-! ## A generation that was never begun -/

/-- What was ever an outcome was asked for by a generation that was begun. -/
theorem begun_of_fetched {σ : Type} [Backend σ] (h : Reachable σ s) {turn : Handled}
    (handled : turn ∈ s.history) {name : Name} {outcome : Outcome}
    (fetched : turn.message = .fetched root generation name outcome) :
    s.Begun root generation := by
  induction h generalizing turn with
  | refl => cases handled
  | tail run step ih =>
    obtain ⟨message, manager, effects, arrives, _, rfl⟩ := move_of_step step
    rcases List.mem_append.1 handled with hold | hnew
    · exact begun_after.2 (Or.inl (ih hold fetched))
    · obtain rfl := List.mem_singleton.1 hnew
      obtain rfl : message = .fetched root generation name outcome := fetched
      exact begun_after.2 (Or.inl ((orderly_of_reachable run).pending _ arrives))

/-- A new session of a generation that was never begun tallies. -/
theorem tallies_of_not_begun {σ : Type} [Backend σ] (h : Reachable σ s)
    (never : ∀ root, ¬s.Begun root generation) (progress : Progress) :
    s.Tallies generation ⟨generation, 0, .running progress⟩ := by
  have horderly := orderly_of_reachable h
  have hsent := (horderly.conserves_of_not_begun never).issued
  have htaken : s.takenUp generation = [] := by
    apply List.filterMap_eq_nil_iff.2
    intro turn hturn
    apply Option.eq_none_iff_forall_not_mem.2
    intro data hdata
    obtain ⟨root, name, hmessage⟩ := Handled.message_of_takenUp? hdata
    exact never root (begun_of_fetched h hturn hmessage)
  have hpursued : s.pursuedNames generation = [] := by
    apply List.flatMap_eq_nil_iff.2
    rintro ⟨message, effects⟩ hturn
    cases message with
    | missing root other ranges =>
      apply Request.namesFor_eq_nil
      intro request hrequest hsame
      obtain ⟨effect, heffect, hasks⟩ := List.mem_filterMap.1 hrequest
      have hasked : request ∈ s.requests :=
        List.mem_filterMap.2 ⟨effect, List.mem_flatMap.2 ⟨_, hturn, heffect⟩, hasks⟩
      exact never request.root (hsame ▸ horderly.asked request hasked)
    | _ => rfl
  refine ⟨rfl, ?_, ?_⟩
  · rw [htaken]
    rfl
  · rw [htaken, hpursued, ← hsent]
    rfl

/-! ## One turn -/

/-- A report makes a session ask for all of its names, or does nothing. -/
theorem tallies_after_missing {manager : Manager} {effects : List Effect} {ranges : List Range}
    (move : s.manager.Move (.missing root generation ranges) manager effects)
    (h : ∀ session, s.manager.sessions.get? root = some session → s.Tallies generation session)
    {session : Session} (found : manager.sessions.get? root = some session) :
    (s.after (.missing root generation ranges) manager effects).Tallies generation session := by
  cases move with
  | idle _ => exact (h session found).after_idle rfl rfl
  | @pursue _ _ was progress _ lastReport runs =>
    obtain ⟨hwas, hphase, _⟩ := Sessions.running?_eq_some_iff.1 runs
    obtain rfl := Option.some.inj ((Sessions.get?_put_self _ _ _).symm.trans found)
    obtain ⟨hsame, hstored, hsent⟩ := h was hwas
    rw [hphase] at hsent
    have hnames := Request.namesFor_fetches generation root progress (ranges.flatMap Range.names)
    refine ⟨hsame, ?_, ?_⟩
    · rw [takenUp_after, hstored]
      exact congrArg List.length (List.append_nil _).symm
    · rw [takenUp_after, pursuedNames_after, sentNames_after, hnames]
      have hpursued : Handled.pursued generation ⟨.missing root generation ranges,
          (ranges.flatMap Range.names).map fun name =>
            .fetch root generation (progress.request name)⟩ = ranges.flatMap Range.names := hnames
      rw [hpursued]
      simp only [Phase.unasked, Handled.takenUp?, Option.toList_none, List.append_nil,
        List.length_append] at hsent ⊢
      omega

/-- A packet that is taken up is counted, and followed by a request or by the stop. -/
theorem Tallies.after_valid {was session : Session} {progress : Progress} {name : Name}
    {data : Data} {manager : Manager} {effects : List Effect} (h : s.Tallies generation was)
    (ran : was.phase = .running progress) (same : session.generation = was.generation)
    (stored : session.stored = was.stored + 1) (todo : effects ≠ [])
    (asked : (Request.namesFor generation (effects.filterMap Effect.request?)).length +
      session.phase.unasked = 1) :
    (s.after (.fetched root generation name (.valid data)) manager effects).Tallies generation
      session := by
  obtain ⟨hsame, hstored, hsent⟩ := h
  have htaken : Handled.takenUp? generation
      ⟨.fetched root generation name (.valid data), effects⟩ = some data := if_pos ⟨rfl, todo⟩
  have hpursued : Handled.pursued generation
      ⟨.fetched root generation name (.valid data), effects⟩ = [] := rfl
  have hnone : was.phase.unasked = 0 := by
    rw [ran]
    rfl
  refine ⟨same.trans hsame, ?_, ?_⟩
  · rw [takenUp_after, htaken, List.length_append, stored, hstored]
    rfl
  · rw [takenUp_after, pursuedNames_after, sentNames_after, htaken, hpursued]
    simp only [Option.toList_some, List.append_nil, List.length_append, List.length_singleton]
    omega

variable {σ : Type} [Backend σ]

/-- A packet is taken up by a session that runs, and the name is asked for again unless the session
stops; else it is dropped. -/
theorem tallies_after_valid (now : Nat) (repo : Repo σ) (name : Name) (data : Data)
    (going : (s.manager.handle now repo
      (.fetched root generation name (.valid data))).failure = none)
    (h : ∀ session, s.manager.sessions.get? root = some session → s.Tallies generation session)
    {session : Session} (found : (s.turn now repo
      (.fetched root generation name (.valid data))).manager.sessions.get? root = some session) :
    (s.turn now repo (.fetched root generation name (.valid data))).Tallies generation session := by
  rcases hruns : s.manager.sessions.running? root generation with _ | ⟨was, progress⟩
  · rw [turn, s.manager.handle_fetched_eq now repo name _ hruns] at found ⊢
    exact (h session found).after_idle rfl (if_neg fun htaken => htaken.2 rfl)
  · obtain ⟨hwas, hphase, rfl⟩ := Sessions.running?_eq_some_iff.1 hruns
    obtain ⟨outcome, after, _, hhandle⟩ := Manager.handle_valid now repo name data hruns going
    rw [turn, hhandle] at found ⊢
    -- the stop and the request made again both give the packet something to do, so it is taken up
    rcases s.manager.proceed_cases now root { was with stored := was.stored + 1 } progress name with
      hstops | ⟨_, hagain⟩
    · rw [hstops] at found ⊢
      obtain rfl := Option.some.inj ((Sessions.get?_put_self _ _ _).symm.trans found)
      refine (h was hwas).after_valid hphase rfl rfl (List.cons_ne_nil _ _) ?_
      rw [Manager.requests_halt]
      rfl
    · rw [hagain] at found ⊢
      obtain rfl := Option.some.inj ((Sessions.get?_put_self _ _ _).symm.trans found)
      refine (h was hwas).after_valid hphase rfl rfl (List.cons_ne_nil _ _) ?_
      exact congrArg List.length (Request.namesFor_cons_self root name [])

/-- One turn keeps the tally of a session that no command stops or replaces. -/
theorem tallies_turn {parameter : Command.Parameter}
    (started : s.StartedWith σ root generation parameter) (now : Nat) (repo : Repo σ)
    {message : Message} (arrives : s.CanArrive message)
    (going : (s.manager.handle now repo message).failure = none)
    (spared : message.Spares root generation)
    (h : ∀ session, s.manager.sessions.get? root = some session → s.Tallies generation session)
    {session : Session}
    (found : (s.turn now repo message).manager.sessions.get? root = some session) :
    (s.turn now repo message).Tallies generation session := by
  have horderly := orderly_of_reachable started.reachable
  have hmove := s.manager.move_handle now repo message going
  -- what does not drive the generation is for another session, or is dropped
  by_cases hdrives : message.Drives generation
  · have hroot := horderly.unique _ _ _ (horderly.begun_of_drives arrives hdrives) started.begun
    cases message with
    | missing other reported ranges =>
      obtain rfl : other = root := hroot
      obtain rfl : reported = generation := hdrives
      exact tallies_after_missing hmove h found
    | fetched other asked name outcome =>
      obtain rfl : other = root := hroot
      obtain rfl : asked = generation := hdrives
      obtain ⟨data, rfl⟩ := spared rfl
      exact tallies_after_valid now repo name data going h found
    | _ => cases hdrives
  · have hwas := Manager.get?_of_move_of_spared hmove spared hdrives
      (fun session found => (h session found).same) found
    refine (h session hwas).after_idle ?_ ?_
    · exact (s.manager.sends_handle now repo message).namesFor_eq_nil hdrives
    · cases message with
      | fetched other asked name outcome =>
        cases outcome with
        | valid data => exact if_neg fun htaken => hdrives htaken.1
        | _ => rfl
      | _ => rfl

end System

/-- Whether the packet that a message brings, if it brings one, has a name that is in memory. -/
def Message.InMemory : Message → Prop
  | .fetched _ _ _ (.valid data) => data.InMemory
  | _ => True

namespace Manager

/-- A turn leaves the repository as it is and takes nothing up, or stores the packet it brings. -/
theorem handle_repo {σ : Type} [Backend σ] (m : Manager) (now : Nat) (repo : Repo σ)
    (message : Message) (going : (m.handle now repo message).failure = none) :
    (m.handle now repo message).repo = repo ∧
        (∀ generation, Handled.takenUp? generation
          ⟨message, (m.handle now repo message).effects⟩ = none) ∨
      ∃ root generation name data outcome, message = .fetched root generation name (.valid data) ∧
        repo.insert data = (.ok outcome, (m.handle now repo message).repo) := by
  cases message with
  | fetched root generation name outcome =>
    cases outcome with
    | valid data =>
      rcases hruns : m.sessions.running? root generation with _ | ⟨session, progress⟩
      · left
        rw [m.handle_fetched_eq now repo name _ hruns]
        exact ⟨rfl, fun _ => if_neg fun htaken => htaken.2 rfl⟩
      · right
        obtain ⟨outcome, after, hdone, hhandle⟩ := handle_valid now repo name data hruns going
        rw [hhandle]
        exact ⟨root, generation, name, data, outcome, rfl, hdone⟩
    | invalid cause =>
      refine Or.inl ⟨?_, fun _ => rfl⟩
      simp only [handle, conclude]
      split <;> rfl
    | failed cause =>
      refine Or.inl ⟨?_, fun _ => rfl⟩
      simp only [handle, conclude]
      split <;> rfl
  | _ => exact Or.inl ⟨rfl, fun _ => rfl⟩

end Manager

/-! ## A service -/

/-- A manager among its messages, and the repository that it shares with others. -/
structure Service where
  system : System
  repo : Repo Storage

namespace Service

/-- The service after the manager has handled a message. -/
def turn (v : Service) (now : Nat) (message : Message) : Service where
  system := v.system.turn now v.repo message
  repo := (v.system.manager.handle now v.repo message).repo

/-- A turn of the manager on a message of some kind, or a call of somebody else. -/
inductive Step (allowed : Message → Prop) (v : Service) : Service → Prop where
  | turn (now : Nat) (message : Message) : allowed message → message.InMemory →
    v.system.CanArrive message → (v.system.manager.handle now v.repo message).failure = none →
    Step allowed v (v.turn now message)
  | other {repo : Repo Storage} : Repo.Use v.repo repo → Step allowed v ⟨v.system, repo⟩

/-- Whether a service comes about from a fresh manager and a repository on any store that is in step
with its rows, as every store is that was filled and opened again, with rows that can be read and
others that cannot. -/
def Reachable (v : Service) : Prop :=
  ∃ repo : Repo Storage, repo.backend.InStep ∧
    Relation.ReflTransGen (Step fun _ => True) ⟨.fresh, repo⟩ v

/-- Whether the full name of a packet is there or is blocked, or the removal of the packet is among
some events. -/
def Held (repo : Repo Storage) (events : List Repo.Event) (data : Data) : Prop :=
  (data.fullName ∈ repo.backend.names ∨ repo.backend.Blocks data.fullName) ∨
    .deleted data.name ∈ events

/-- Whether a session is tallied, and what it has taken up is held, or was deleted since events were
sent. -/
structure Ingests (root : Name) (generation : Nat) (parameter : Command.Parameter)
    (sent : List Repo.Event) (v : Service) : Prop where
  started : v.system.StartedWith Storage root generation parameter
  inStep : v.repo.backend.InStep
  tallies : ∀ session, v.system.manager.sessions.get? root = some session →
    v.system.Tallies generation session
  held : ∃ events, v.repo.sent = sent ++ events ∧
    ∀ data ∈ v.system.takenUp generation, Held v.repo events data

variable {root : Name} {generation : Nat} {parameter : Command.Parameter}

/-- What is held stays so when others use the repository. -/
theorem Held.retains {before after : Repo Storage} {events later : List Repo.Event} {data : Data}
    (h : Held before events data) (retains : Repo.Retains before later after) :
    Held after (events ++ later) data := by
  rcases h with (hthere | hblocked) | hdeleted
  · rcases retains.names _ hthere with hstays | hgone
    · exact Or.inl (Or.inl hstays)
    · rw [data.withoutDigest_fullName] at hgone
      exact Or.inr (List.mem_append_right _ hgone)
  · rcases retains.blocks _ hblocked with hstays | hgone
    · exact Or.inl (Or.inr hstays)
    · rw [data.withoutDigest_fullName] at hgone
      exact Or.inr (List.mem_append_right _ hgone)
  · exact Or.inr (List.mem_append_left _ hdeleted)

/-- A packet that was taken is held. -/
theorem held_of_insert {before after : Repo Storage} {events : List Repo.Event} {data : Data}
    {outcome : Repo.InsertOutcome} (done : before.insert data = (.ok outcome, after))
    (retains : Repo.Retains before events after) : Held after events data := by
  by_cases hblocked : before.backend.Blocks data.fullName
  · have hheld : Held before [] data := Or.inl (Or.inr hblocked)
    exact hheld.retains retains
  · exact Or.inl (Or.inl ((Repo.mem_of_insert_iff done).2 hblocked))

/-- A turn of the manager keeps what is stored, and stores what it takes up. -/
theorem retains_turn {v : Service} (inStep : v.repo.backend.InStep) (now : Nat) {message : Message}
    (small : message.InMemory)
    (going : (v.system.manager.handle now v.repo message).failure = none) :
    ∃ events, Repo.Retains v.repo events (v.turn now message).repo ∧
      ∀ generation data, Handled.takenUp? generation
          ⟨message, (v.system.manager.handle now v.repo message).effects⟩ = some data →
        Held (v.turn now message).repo events data := by
  unfold turn
  rcases v.system.manager.handle_repo now v.repo message going with
    ⟨hsame, hnone⟩ | ⟨_, _, _, data, outcome, rfl, hdone⟩
  · rw [hsame]
    refine ⟨[], .refl inStep, ?_⟩
    intro generation data htaken
    rw [hnone] at htaken
    cases htaken
  · obtain ⟨events, hretains⟩ := Repo.retains_insert inStep small
    rw [hdone] at hretains
    refine ⟨events, hretains, ?_⟩
    intro generation taken htaken
    obtain ⟨_, _, hmessage⟩ := Handled.message_of_takenUp? htaken
    cases hmessage
    exact held_of_insert hdone hretains

theorem ingests_start {v : Service} (reachable : System.Reachable Storage v.system)
    (inStep : v.repo.backend.InStep) (now : Nat) (root : Name) (parameter : Command.Parameter) :
    Ingests root v.system.manager.nextGeneration parameter v.repo.sent
      (v.turn now (.start root parameter)) := by
  have hnever : ∀ root, ¬v.system.Begun root v.system.manager.nextGeneration :=
    fun root hbegun => Nat.lt_irrefl _
      ((System.orderly_of_reachable reachable).below root _ hbegun)
  refine ⟨⟨v.system, now, v.repo, reachable, rfl, .refl⟩, inStep, ?_, [], ?_, ?_⟩
  · intro session found
    obtain rfl := Option.some.inj ((Sessions.get?_put_self _ _ _).symm.trans found)
    refine (System.tallies_of_not_begun reachable hnever _).after_idle ?_ rfl
    show Request.namesFor _
      ((v.system.manager.begin now root parameter).2.filterMap Effect.request?) = []
    rw [Manager.requests_begin]
    rfl
  · exact (List.append_nil _).symm
  · intro data hdata
    have hnone := (System.tallies_of_not_begun reachable hnever
      ⟨.ofParameter parameter, now, 0⟩).stored
    rw [Service.turn, System.turn, System.takenUp_after,
      List.eq_nil_of_length_eq_zero hnone.symm] at hdata
    cases hdata

theorem ingests_of_step {v w : Service} {sent : List Repo.Event}
    (h : Ingests root generation parameter sent v)
    (step : Step (Message.Spares root generation) v w) :
    Ingests root generation parameter sent w := by
  obtain ⟨hstarted, hinStep, htallies, events, hsent, hheld⟩ := h
  cases step with
  | turn now message spared small arrives going =>
    obtain ⟨later, hretains, htaken⟩ := retains_turn hinStep now small going
    refine ⟨?_, hretains.inStep, ?_, events ++ later, ?_, ?_⟩
    · exact hstarted.trans (.single (.turn now v.repo message arrives going))
    · intro session found
      exact System.tallies_turn hstarted now v.repo arrives going spared htallies found
    · rw [hretains.sent, hsent, List.append_assoc]
    · intro data hdata
      rw [Service.turn, System.turn, System.takenUp_after, List.mem_append,
        Option.mem_toList] at hdata
      rcases hdata with hold | hnew
      · exact (hheld data hold).retains hretains
      · exact (htaken generation data hnew).imp_right (List.mem_append_right _)
  | other call =>
    obtain ⟨later, hretains⟩ := Repo.retains_of_use hinStep call
    refine ⟨hstarted, hretains.inStep, htallies, events ++ later, ?_, ?_⟩
    · rw [hretains.sent, hsent, List.append_assoc]
    · intro data hdata
      exact (hheld data hdata).retains hretains

/-! ## Whole runs -/

theorem reachable_system {v : Service} (h : v.Reachable) :
    System.Reachable Storage v.system ∧ v.repo.backend.InStep := by
  obtain ⟨repo, hrepo, hrun⟩ := h
  induction hrun with
  | refl => exact ⟨.refl, hrepo⟩
  | @tail v w _ step ih =>
    obtain ⟨hreachable, hinStep⟩ := ih
    cases step with
    | turn now message _ small arrives going =>
      obtain ⟨_, hretains, _⟩ := retains_turn hinStep now small going
      exact ⟨hreachable.tail (.turn now v.repo message arrives going), hretains.inStep⟩
    | other call =>
      obtain ⟨_, hretains⟩ := Repo.retains_of_use hinStep call
      exact ⟨hreachable, hretains.inStep⟩

theorem ingests_of_run {v w : Service} {sent : List Repo.Event}
    (h : Ingests root generation parameter sent v)
    (run : Relation.ReflTransGen (Step (Message.Spares root generation)) v w) :
    Ingests root generation parameter sent w := by
  induction run with
  | refl => exact h
  | tail _ step ih => exact ingests_of_step ih step

/-- If all requests of a session bring packets that are accepted, and no command ends it, then once
it has stopped a check reports what it took up until then: a packet for every request that it has
sent, but for one less than the names that were reported to it. All of that is stored, unless it
was deleted since or a row that cannot be read has its full name. -/
theorem stopped_session_keeps_what_it_took_up {v w : Service} (reachable : v.Reachable) (now : Nat)
    (root : Name) (parameter : Command.Parameter)
    (run : Relation.ReflTransGen (Step (Message.Spares root v.system.manager.nextGeneration))
      (v.turn now (.start root parameter)) w)
    {session : Session} {expiry : Nat} (found : w.system.manager.sessions.get? root = some session)
    (stopped : session.phase = .stopped expiry) :
    let generation := v.system.manager.nextGeneration
    w.system.manager.report root =
        ⟨Command.Status.stopped.code, (w.system.takenUp generation).length⟩ ∧
      (w.system.sentNames generation).length + 1 =
        (w.system.pursuedNames generation).length + (w.system.takenUp generation).length ∧
      ∃ events, w.repo.sent = v.repo.sent ++ events ∧
        ∀ data ∈ w.system.takenUp generation, ¬w.repo.backend.Blocks data.fullName →
          w.repo.has data.fullName = .ok true ∨ .deleted data.name ∈ events := by
  intro generation
  obtain ⟨hreachable, hinStep⟩ := reachable_system reachable
  obtain ⟨_, _, htallies, events, hsent, hheld⟩ :=
    ingests_of_run (ingests_start hreachable hinStep now root parameter) run
  obtain ⟨_, hstored, hasked⟩ := htallies session found
  refine ⟨?_, ?_, events, hsent, ?_⟩
  · rw [Manager.report_eq found stopped, hstored]
  · rw [stopped] at hasked
    exact hasked
  · intro data hdata free
    rw [Repo.has_eq, Except.ok.injEq, decide_eq_true_iff]
    exact (hheld data hdata).imp_left (Or.resolve_right · free)

/-- A session with a budget of three, to which two names are reported, takes up two packets and
sends a third request. The second packet is stored; the first is not, as a damaged row has its full
name since before the table was opened. -/
theorem stopped_session_keeps_what_it_took_up_of_three :
    let first : Data := .bare (Name.empty.pushNumber 1)
    let second : Data := .bare (Name.empty.pushNumber 2)
    let parameter : Command.Parameter := ⟨some .empty, none, some 3, none⟩
    let written := (DurableStore.insert ⟨.empty, .empty 2⟩ first).2
    let table := (written.table.replaceData first.fullName.encodeValue [6]).2
    let idle : Service := ⟨.fresh, .ofBackend (.durable ⟨table, .empty 2⟩)⟩
    let started := idle.turn 0 (.start .empty parameter)
    let reported := started.turn 0 (.missing .empty 1 [⟨.empty, 1, 2⟩])
    let again := reported.turn 0 (.fetched .empty 1 (Name.empty.pushNumber 1) (.valid first))
    let ended := again.turn 0 (.fetched .empty 1 (Name.empty.pushNumber 2) (.valid second))
    ended.system.manager.report .empty =
        ⟨Command.Status.stopped.code, (ended.system.takenUp 1).length⟩ ∧
      (ended.system.sentNames 1).length + 1 =
        (ended.system.pursuedNames 1).length + (ended.system.takenUp 1).length ∧
      (∃ events, ended.repo.sent = [] ++ events ∧
        ∀ data ∈ ended.system.takenUp 1, ¬ended.repo.backend.Blocks data.fullName →
          ended.repo.has data.fullName = .ok true ∨ .deleted data.name ∈ events) ∧
      ended.system.takenUp 1 = [first, second] ∧ ended.repo.has first.fullName = .ok false ∧
      ended.repo.has second.fullName = .ok true := by
  intro first second parameter written table idle started reported again ended
  have hfirst : first.InMemory := by unfold Data.InMemory; decide
  have hsecond : second.InMemory := by unfold Data.InMemory; decide
  have hwritten : (Storage.durable written).Arises := .insert (.empty .durable 2) hfirst
  have hopened : DurableStore.load table 2 = .ok ⟨table, .empty 2⟩ := by decide +kernel
  have harises : idle.repo.backend.Arises := .reopen hwritten (by decide +kernel) hopened
  have hidle : idle.Reachable := ⟨_, harises.inStep, .refl⟩
  have hreport : Step (Message.Spares .empty 1) started reported :=
    .turn 0 _ trivial trivial List.mem_cons_self rfl
  have hagain : Step (Message.Spares .empty 1) reported again :=
    .turn 0 _ (fun _ => ⟨first, rfl⟩) hfirst List.mem_cons_self (by decide +kernel)
  have houtstanding : again.system.outstanding =
      [⟨.empty, 1, Name.empty.pushNumber 2⟩, ⟨.empty, 1, Name.empty.pushNumber 1⟩] := by
    decide +kernel
  have harrives : again.system.CanArrive
      (.fetched .empty 1 (Name.empty.pushNumber 2) (.valid second)) := by
    show _ ∈ again.system.outstanding
    rw [houtstanding]
    exact List.mem_cons_self
  have hended : Step (Message.Spares .empty 1) again ended :=
    .turn 0 _ (fun _ => ⟨second, rfl⟩) hsecond harrives (by decide +kernel)
  have hrun := ((Relation.ReflTransGen.single hreport).tail hagain).tail hended
  have hfound : ended.system.manager.sessions.get? .empty = some ⟨1, 2, .stopped 1⟩ := by
    decide +kernel
  obtain ⟨hreply, hsent, hstored⟩ :=
    stopped_session_keeps_what_it_took_up hidle 0 .empty parameter hrun hfound rfl
  exact ⟨hreply, hsent, hstored, by decide +kernel, by decide +kernel, by decide +kernel⟩

/-- A session with a budget of two, to which two names are reported, stops on the first packet and
drops the second. -/
theorem stopped_session_drops_later_packets :
    let first : Data := .bare (Name.empty.pushNumber 1)
    let second : Data := .bare (Name.empty.pushNumber 2)
    let parameter : Command.Parameter := ⟨some .empty, none, some 2, none⟩
    let idle : Service := ⟨.fresh, .ofBackend (.empty .memory 2)⟩
    let started := idle.turn 0 (.start .empty parameter)
    let reported := started.turn 0 (.missing .empty 1 [⟨.empty, 1, 2⟩])
    let stopped := reported.turn 0 (.fetched .empty 1 (Name.empty.pushNumber 1) (.valid first))
    let ended := stopped.turn 0 (.fetched .empty 1 (Name.empty.pushNumber 2) (.valid second))
    Relation.ReflTransGen (Step (Message.Spares .empty 1)) started ended ∧
      ended.system.outstanding = [] ∧ (ended.system.sentNames 1).length = 2 ∧
      ended.system.manager.report .empty = ⟨Command.Status.stopped.code, 1⟩ ∧
      ended.repo.has second.fullName = .ok false := by
  intro first second parameter idle started reported stopped ended
  have hfirst : first.InMemory := by unfold Data.InMemory; decide
  have hsecond : second.InMemory := by unfold Data.InMemory; decide
  have hreport : Step (Message.Spares .empty 1) started reported :=
    .turn 0 _ trivial trivial List.mem_cons_self rfl
  have hstopped : Step (Message.Spares .empty 1) reported stopped :=
    .turn 0 _ (fun _ => ⟨first, rfl⟩) hfirst List.mem_cons_self rfl
  have hended : Step (Message.Spares .empty 1) stopped ended :=
    .turn 0 _ (fun _ => ⟨second, rfl⟩) hsecond List.mem_cons_self rfl
  exact ⟨((Relation.ReflTransGen.single hreport).tail hstopped).tail hended, rfl, rfl, rfl, rfl⟩

end Service

end NamedData.Sync
