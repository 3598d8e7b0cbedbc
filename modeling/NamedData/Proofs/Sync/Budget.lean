import NamedData.Proofs.Sync.Conservation
/-!
# What a budget bounds

A session that has sent as many requests as it may stops at the next outcome of one of them, so no
outcome is followed by a request beyond the budget. Reports are not held back: a report asks for
all of its names, and can take a session beyond its budget. From there it does not go on.

    m.Sends msg (the requests of handling msg)                                    (sends_handle)
    no report between s and t → sent in t ≤ max budget (sent in s)      (budget_bounds_retries)
    sent < budget + reported                                           (budget_bounds_retries)
-/

namespace NamedData.Sync

/-! ## What a turn sends -/

theorem Request.namesFor_map (generation : Nat) (root : Name) (names : List Name) :
    namesFor generation (names.map fun name => ⟨root, generation, name⟩) = names := by
  induction names with
  | nil => rfl
  | cons name names ih => rw [List.map_cons, namesFor_cons_self, ih]

namespace Manager

/-- The requests that a message can lead to: those for a report, or one that is made again by a
session that may send more. -/
inductive Sends (m : Manager) : Message → List Request → Prop where
  | nothing {message : Message} : Sends m message []
  | report {root : Name} {generation : Nat} {session : Session} {progress : Progress}
    (ranges : List Range) :
    m.sessions.running? root generation = some (session, progress) →
    Sends m (.missing root generation ranges)
      ((ranges.flatMap Range.names).map fun name => ⟨root, generation, name⟩)
  | retry {root : Name} {generation : Nat} {session : Session} {progress : Progress}
    (name : Name) (outcome : Outcome) :
    m.sessions.running? root generation = some (session, progress) → progress.spent = false →
    Sends m (.fetched root generation name outcome) [⟨root, generation, name⟩]

theorem requests_releaseAll (m : Manager) : m.releaseAll.filterMap Effect.request? = [] := by
  rw [releaseAll, List.filterMap_map, List.filterMap_eq_nil_iff]
  intro entry _
  exact request?_release entry.2

/-- After the outcome of a request a session stops, or it may send more and asks again. -/
theorem proceed_cases (m : Manager) (now : Nat) (root : Name) (session : Session)
    (progress : Progress) (name : Name) :
    m.proceed now root session progress name = m.halt root session ∨
      progress.spent = false ∧ m.proceed now root session progress name =
        (m.resume root session { progress with issued := progress.issued + 1 },
          [.fetch root session.generation (progress.request name)]) := by
  unfold proceed
  split
  · exact Or.inl rfl
  · next hlimits =>
    rw [Bool.or_eq_true, not_or, Bool.not_eq_true, Bool.not_eq_true] at hlimits
    exact Or.inr ⟨hlimits.2, rfl⟩

theorem sends_proceed {m : Manager} {root : Name} {generation : Nat} {session : Session}
    {progress : Progress} (runs : m.sessions.running? root generation = some (session, progress))
    (now : Nat) (name : Name) (outcome : Outcome) (stored : Nat) :
    m.Sends (.fetched root generation name outcome)
      ((m.proceed now root { session with stored } progress name).2.filterMap
        Effect.request?) := by
  obtain rfl := (Sessions.running?_eq_some_iff.1 runs).2.2
  rcases m.proceed_cases now root { session with stored } progress name with
    hstops | ⟨hunspent, hagain⟩
  · rw [hstops, requests_halt]
    exact .nothing
  · rw [hagain]
    exact .retry name outcome runs hunspent

variable {m next : Manager} {message : Message} {effects : List Effect}

/-- A session that goes on keeps its limits, and its last report but for a new one; one that a start
begins has the limits of the command. -/
theorem progress_of_move (move : Move m message next effects) {root : Name} {generation : Nat}
    {session : Session} {progress : Progress}
    (runs : next.sessions.running? root generation = some (session, progress)) :
    (∃ before was, m.sessions.running? root generation = some (before, was) ∧
      was.limits = progress.limits ∧
      ((∀ ranges, message ≠ .missing root generation ranges) →
        was.lastReport = progress.lastReport)) ∨
      ∃ parameter, message = .start root parameter ∧ generation = m.nextGeneration ∧
        progress.limits = .ofParameter parameter := by
  by_cases h : root = message.root
  · subst h
    cases move with
    | idle _ => exact Or.inl ⟨session, progress, runs, rfl, fun _ => rfl⟩
    | start now root parameter =>
      right
      rw [Message.root, begin, Sessions.running?_put_running _ _ rfl] at runs
      split at runs
      · next hsame =>
        cases runs
        exact ⟨parameter, rfl, hsame.symm, rfl⟩
      · cases runs
    | stop _ =>
      exact absurd (runs.symm.trans (Sessions.running?_put_stopped _ _ rfl _))
        (Option.some_ne_none _)
    | pursue ranges lastReport was =>
      obtain ⟨rfl, hfound⟩ := eq_of_running?_resume was runs
      cases hfound
      exact Or.inl ⟨_, _, was, rfl, fun unreported => absurd rfl (unreported ranges)⟩
    | again name outcome stored was =>
      obtain ⟨rfl, hfound⟩ := eq_of_running?_resume was runs
      cases hfound
      exact Or.inl ⟨_, _, was, rfl, fun _ => rfl⟩
    | exhaust _ _ _ _ =>
      exact absurd (runs.symm.trans (Sessions.running?_put_stopped _ _ rfl _))
        (Option.some_ne_none _)
    | forget _ _ =>
      exact absurd (runs.symm.trans (Sessions.running?_erase_self _ _ _)) (Option.some_ne_none _)
  · rw [running?_of_move_of_ne move h] at runs
    exact Or.inl ⟨session, progress, runs, rfl, fun _ => rfl⟩

/-- What is sent without driving a generation is not for it. -/
theorem Sends.namesFor_eq_nil {requests : List Request} (sends : m.Sends message requests)
    {generation : Nat} (other : ¬message.Drives generation) :
    Request.namesFor generation requests = [] := by
  apply Request.namesFor_eq_nil
  cases sends with
  | nothing => nofun
  | report ranges _ =>
    intro request hrequest
    obtain ⟨name, _, rfl⟩ := List.mem_map.1 hrequest
    exact other
  | retry name outcome _ _ =>
    intro request hrequest
    obtain rfl := List.mem_singleton.1 hrequest
    exact other

variable {σ : Type} [Store.Backend σ]

/-- What a turn sends, whether or not the manager can go on after it. -/
theorem sends_handle (m : Manager) (now : Nat) (repo : Repo σ) (message : Message) :
    m.Sends message ((m.handle now repo message).effects.filterMap Effect.request?) := by
  cases message with
  | start root parameter =>
    show m.Sends _ ((m.begin now root parameter).2.filterMap Effect.request?)
    rw [requests_begin]
    exact .nothing
  | check root => exact .nothing
  | stop root =>
    simp only [handle]
    split
    · exact .nothing
    · rw [requests_halt]
      exact .nothing
  | missing root generation ranges =>
    simp only [handle, pursue]
    split
    · exact .nothing
    · next session progress hruns =>
      rw [List.filterMap_map]
      show m.Sends _ ((ranges.flatMap Range.names).filterMap fun name =>
        some ⟨root, generation, name⟩)
      rw [List.filterMap_eq_map']
      exact .report ranges hruns
  | fetched root generation name outcome =>
    simp only [handle, conclude]
    split
    · exact .nothing
    · next session progress hruns =>
      split
      · split
        · simp only [requests_releaseAll]
          exact .nothing
        · exact sends_proceed hruns now name _ _
      · exact sends_proceed hruns now name _ session.stored
      · exact sends_proceed hruns now name _ session.stored
  | expire root generation => exact .nothing

end Manager

namespace System

section

variable (σ : Type) [Store.Backend σ]

/-- Whether a generation was begun by a command with some parameters, and how far the run has come
since. -/
def StartedWith (s : System) (root : Name) (generation : Nat) (parameter : Command.Parameter) :
    Prop :=
  ∃ (before : System) (now : Nat) (repo : Repo σ), Reachable σ before ∧
    generation = before.manager.nextGeneration ∧
    Relation.ReflTransGen (Step σ) (before.turn now repo (.start root parameter)) s

/-- Whether a run leads from one system to another: a number of steps, and perhaps a last turn
after which the manager cannot go on. -/
inductive Leads (s : System) : System → Prop where
  | steps {t : System} : Relation.ReflTransGen (Step σ) s t → Leads s t
  | last {t : System} (now : Nat) (repo : Repo σ) (message : Message) :
    Relation.ReflTransGen (Step σ) s t → t.CanArrive message → Leads s (t.turn now repo message)

end

variable {σ : Type} [Store.Backend σ] {s t : System} {root : Name} {generation : Nat}
  {parameter : Command.Parameter}

theorem step_start (s : System) (now : Nat) (repo : Repo σ) (root : Name)
    (parameter : Command.Parameter) : Step σ s (s.turn now repo (.start root parameter)) :=
  .turn now repo _ trivial rfl

namespace StartedWith

theorem trans (h : s.StartedWith σ root generation parameter)
    (run : Relation.ReflTransGen (Step σ) s t) : t.StartedWith σ root generation parameter := by
  obtain ⟨before, now, repo, hbefore, hgeneration, hrun⟩ := h
  exact ⟨before, now, repo, hbefore, hgeneration, hrun.trans run⟩

theorem reachable (h : s.StartedWith σ root generation parameter) : Reachable σ s := by
  obtain ⟨before, now, repo, hbefore, _, hrun⟩ := h
  exact (hbefore.tail (step_start before now repo root parameter)).trans hrun

/-- A fact about a generation that holds once it is started, and that no step makes false, holds
from then on. -/
theorem induct (P : System → Prop) (h : s.StartedWith σ root generation parameter)
    (start : ∀ (before : System) (now : Nat) (repo : Repo σ), Reachable σ before →
      generation = before.manager.nextGeneration → P (before.turn now repo (.start root parameter)))
    (step : ∀ s t, s.StartedWith σ root generation parameter → P s → Step σ s t → P t) :
    P s := by
  obtain ⟨before, now, repo, hbefore, hgeneration, hrun⟩ := h
  induction hrun with
  | refl => exact start before now repo hbefore hgeneration
  | @tail s t run last ih =>
    exact step s t ⟨before, now, repo, hbefore, hgeneration, run⟩ ih last

theorem begun (h : s.StartedWith σ root generation parameter) : s.Begun root generation := by
  refine h.induct (fun s => s.Begun root generation) ?_ ?_
  · rintro before now repo _ rfl
    refine begun_after.2 (Or.inr ?_)
    exact List.mem_append_right _ List.mem_cons_self
  · intro s t _ ih step
    obtain ⟨message, manager, effects, _, _, rfl⟩ := move_of_step step
    exact begun_after.2 (Or.inl ih)

/-- A session runs under the limits with which it was started. -/
theorem limits (h : s.StartedWith σ root generation parameter) {session : Session}
    {progress : Progress}
    (runs : s.manager.sessions.running? root generation = some (session, progress)) :
    progress.limits = .ofParameter parameter := by
  revert session progress
  refine h.induct (fun s => ∀ {session progress},
    s.manager.sessions.running? root generation = some (session, progress) →
      progress.limits = .ofParameter parameter) ?_ ?_
  · rintro before now repo _ rfl session progress runs
    have hstarted : (before.turn now repo (.start root parameter)).manager.sessions.running? root
        before.manager.nextGeneration = _ := Sessions.running?_put_running _ _ rfl _
    rw [if_pos rfl, runs] at hstarted
    cases hstarted
    rfl
  · intro s t started ih step session progress runs
    obtain ⟨message, manager, effects, _, move, rfl⟩ := move_of_step step
    rcases Manager.progress_of_move move runs with ⟨_, was, hran, hsame, _⟩ | ⟨_, _, hnew, _⟩
    · exact hsame ▸ ih hran
    · have hbelow := (orderly_of_reachable started.reachable).below root generation started.begun
      exact absurd hnew (Nat.ne_of_lt hbelow)

end StartedWith

/-! ## One turn -/

/-- A turn sends nothing for a generation, or what a report to it names, or one request that is
within the budget. -/
theorem sentNames_turn (started : s.StartedWith σ root generation parameter)
    (bounded : (Limits.ofParameter parameter).budget ≠ 0) (now : Nat) (repo : Repo σ)
    {message : Message} (arrives : s.CanArrive message) :
    (s.turn now repo message).sentNames generation = s.sentNames generation ∨
      (s.turn now repo message).sentNames generation =
        s.sentNames generation ++ message.namesFor generation ∨
      ((s.turn now repo message).sentNames generation).length ≤
          (Limits.ofParameter parameter).budget ∧
        s.reportedNames generation ≠ [] := by
  have horderly := orderly_of_reachable started.reachable
  rw [turn, sentNames_after]
  generalize hsent : (s.manager.handle now repo message).effects.filterMap Effect.request? = sent
  have hsends : s.manager.Sends message sent := hsent ▸ s.manager.sends_handle now repo message
  by_cases hdrives : message.Drives generation
  · cases hsends with
    | nothing => exact Or.inl (List.append_nil _)
    | @report other reported session progress ranges runs =>
      right
      left
      obtain rfl : reported = generation := hdrives
      have hnames : (Message.missing other reported ranges).namesFor reported =
          ranges.flatMap Range.names := if_pos rfl
      rw [hnames, Request.namesFor_map]
    | @retry other asked session progress name outcome runs unspent =>
      right
      right
      obtain rfl : asked = generation := hdrives
      have hran : s.manager.sessions.running? other asked ≠ none := by
        rw [runs]
        exact Option.some_ne_none _
      have hbegun : s.Begun other asked := horderly.begun_of_runs hran
      obtain rfl := horderly.unique other root asked hbegun started.begun
      -- the session has counted what it sent, and that is less than its budget
      obtain ⟨hnames, hissued⟩ := conserves_of_reachable started.reachable runs
      have hless : progress.issued < (Limits.ofParameter parameter).budget := by
        rw [Progress.spent, started.limits runs, Bool.and_eq_false_iff] at unspent
        rcases unspent with hzero | hless
        · exact absurd bounded (of_decide_eq_false hzero)
        · exact Nat.lt_of_not_le (of_decide_eq_false hless)
      refine ⟨?_, ?_⟩
      · rw [Request.namesFor_cons_self, List.length_append, List.length_cons, ← hissued]
        exact hless
      · intro hnone
        rw [hnone] at hnames
        have hwaits : name ∈ s.outstandingNames asked :=
          List.mem_map.2 ⟨_, List.mem_filter.2 ⟨arrives, decide_eq_true rfl⟩, rfl⟩
        rw [hnames.eq_nil] at hwaits
        cases hwaits
  · left
    rw [hsends.namesFor_eq_nil hdrives, List.append_nil]

/-- Whether a budget bounds what is sent for a generation: what was sent since `s` by the budget,
or by what was sent then, and by what was reported since; and what was ever sent by less than the
budget and the reports. -/
structure Bounds (generation budget : Nat) (s t : System) : Prop where
  since : ∃ names, t.reportedNames generation = s.reportedNames generation ++ names ∧
    (t.sentNames generation).length ≤ max budget (s.sentNames generation).length + names.length
  total : (t.sentNames generation).length < budget + (t.reportedNames generation).length

theorem Bounds.turn (started : t.StartedWith σ root generation parameter)
    (bounded : (Limits.ofParameter parameter).budget ≠ 0)
    (h : Bounds generation (Limits.ofParameter parameter).budget s t) (now : Nat)
    (repo : Repo σ) {message : Message} (arrives : t.CanArrive message) :
    Bounds generation (Limits.ofParameter parameter).budget s (t.turn now repo message) := by
  obtain ⟨⟨names, hnames, hsince⟩, htotal⟩ := h
  have hreported : (t.turn now repo message).reportedNames generation =
      t.reportedNames generation ++ message.namesFor generation := reportedNames_after generation
  have hlength := congrArg List.length hreported
  rw [List.length_append] at hlength
  suffices hturn : ((t.turn now repo message).sentNames generation).length ≤
      max (Limits.ofParameter parameter).budget (s.sentNames generation).length +
        (names ++ message.namesFor generation).length ∧
      ((t.turn now repo message).sentNames generation).length <
        (Limits.ofParameter parameter).budget +
          ((t.turn now repo message).reportedNames generation).length by
    refine ⟨⟨_, ?_, hturn.1⟩, hturn.2⟩
    rw [hreported, hnames, List.append_assoc]
  rw [List.length_append, hlength]
  rcases sentNames_turn started bounded now repo arrives with hsame | hreport | ⟨hwithin, hsome⟩
  · rw [hsame]
    omega
  · rw [hreport, List.length_append]
    omega
  · have hpos := List.length_pos_iff.2 hsome
    omega

/-! ## Whole runs -/

theorem Bounds.refl {budget : Nat} (total : (s.sentNames generation).length <
    budget + (s.reportedNames generation).length) : Bounds generation budget s s :=
  ⟨⟨[], (List.append_nil _).symm, Nat.le_max_right _ _⟩, total⟩

theorem bounds_of_started (started : s.StartedWith σ root generation parameter)
    (bounded : (Limits.ofParameter parameter).budget ≠ 0) :
    Bounds generation (Limits.ofParameter parameter).budget s s := by
  refine started.induct (fun s => Bounds generation (Limits.ofParameter parameter).budget s s) ?_ ?_
  · rintro before now repo hbefore rfl
    have horderly := orderly_of_reachable hbefore
    have hnever : ∀ root, ¬before.Begun root before.manager.nextGeneration :=
      fun root hbegun => Nat.lt_irrefl _ (horderly.below root _ hbegun)
    have hnone := (horderly.conserves_of_not_begun hnever).issued
    have hsent : (before.turn now repo (.start root parameter)).sentNames
        before.manager.nextGeneration = before.sentNames before.manager.nextGeneration := by
      rw [turn, sentNames_after]
      show _ ++ Request.namesFor _
        ((before.manager.begin now root parameter).2.filterMap Effect.request?) = _
      rw [Manager.requests_begin]
      exact List.append_nil _
    apply Bounds.refl
    rw [hsent, ← hnone]
    omega
  · intro s t started h step
    obtain ⟨now, repo, message, arrives, _⟩ := step
    exact .refl (h.turn started bounded now repo arrives).total

/-- However a run goes on from any moment in the life of a session that has a budget, the requests
sent for it exceed the budget, or what was sent by that moment, by no more than what is reported
from then on. And they are less than the budget and all that is ever reported. -/
theorem budget_bounds_retries (started : s.StartedWith σ root generation parameter)
    (bounded : (Limits.ofParameter parameter).budget ≠ 0) (run : Leads σ s t) :
    Bounds generation (Limits.ofParameter parameter).budget s t := by
  have hsteps : ∀ {t : System}, Relation.ReflTransGen (Step σ) s t →
      Bounds generation (Limits.ofParameter parameter).budget s t := by
    intro t run
    induction run with
    | refl => exact bounds_of_started started bounded
    | tail run step ih =>
      obtain ⟨now, repo, message, arrives, _⟩ := step
      exact ih.turn (started.trans run) bounded now repo arrives
  cases run with
  | steps run => exact hsteps run
  | last now repo message run arrives =>
    exact (hsteps run).turn (started.trans run) bounded now repo arrives

/-- A session with a budget of two, to which one name is reported, sends two requests for it. -/
theorem budget_bounds_retries_of_one :
    let repo : Repo Store.MemoryStore := .ofBackend (.empty 1)
    let parameter : Command.Parameter :=
      { Command.Parameter.ofName .empty with maxInterestNum := some 2 }
    let started := fresh.turn 0 repo (.start .empty parameter)
    let reported := started.turn 0 repo (.missing .empty 1 [⟨.empty, 1, 1⟩])
    let retried := reported.turn 0 repo
      (.fetched .empty 1 (Name.empty.pushNumber 1) (.failed .timeout))
    Bounds 1 2 started retried ∧ (retried.sentNames 1).length = 2 := by
  intro repo parameter started reported retried
  have hstarted : started.StartedWith Store.MemoryStore .empty 1 parameter :=
    ⟨fresh, 0, repo, .refl, rfl, .refl⟩
  have hreport : Step Store.MemoryStore started reported :=
    .turn 0 repo _ List.mem_cons_self rfl
  have hretry : Step Store.MemoryStore reported retried :=
    .turn 0 repo _ List.mem_cons_self rfl
  exact ⟨budget_bounds_retries hstarted (by decide) (.steps ((Relation.ReflTransGen.single
    hreport).tail hretry)), rfl⟩

/-- A session with a budget of one, to which two names are reported at once, sends two requests. -/
theorem budget_does_not_bound_reports :
    let repo : Repo Store.MemoryStore := .ofBackend (.empty 1)
    let parameter : Command.Parameter :=
      { Command.Parameter.ofName .empty with maxInterestNum := some 1 }
    let started := fresh.turn 0 repo (.start .empty parameter)
    let reported := started.turn 0 repo (.missing .empty 1 [⟨.empty, 1, 2⟩])
    reported.StartedWith Store.MemoryStore .empty 1 parameter ∧
      (Limits.ofParameter parameter).budget = 1 ∧ ¬(reported.sentNames 1).length ≤ 1 := by
  intro repo parameter started reported
  have hreport : Step Store.MemoryStore started reported :=
    .turn 0 repo _ List.mem_cons_self rfl
  exact ⟨⟨fresh, 0, repo, .refl, rfl, .single hreport⟩, rfl, by decide⟩

end System

end NamedData.Sync
