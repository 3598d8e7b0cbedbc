import NamedData.Proofs.Sync.Holdings
import NamedData.Store.Memory
/-!
# The books of a node

Wherever a node has come to from a fresh manager, the sessions of its manager and what is there on
their behalf are in order. No generation is ever given twice; a session that runs has the one
subscription to its root name and no timer, a session that is stopped has a timer and no
subscription, and where there is no session there is no subscription either. When the manager has
failed or was closed nothing of it is left.

    a turn fails → it is on a packet that a running session fetched            (handle_of_failure)
    Accounts log o.manager → Accounts (log ++ [o]) o.result.manager                (Accounts.turn)
    Kept log n → a step of n to t → Kept (log ++ its turns) t                          (Kept.step)
    Kept log n → n.InOrder log                                                      (Kept.inOrder)
-/

namespace NamedData.Sync

variable {σ : Type}

/-! ## The books -/

/-- The root name and the generation of the session that a turn starts. -/
def Occasion.given? (o : Occasion σ) : Option (Name × Nat) :=
  match o.message with
  | .start root _ => some (root, o.manager.nextGeneration)
  | _ => none

theorem Occasion.given?_eq_some_iff {o : Occasion σ} {root : Name} {generation : Nat} :
    o.given? = some (root, generation) ↔
      (∃ parameter, o.message = .start root parameter) ∧
        o.manager.nextGeneration = generation := by
  obtain ⟨m, now, repo, message⟩ := o
  cases message <;> simp [given?]

/-- Whether the sessions that are there, and those that were there on the turns of the log, are of
generations that were begun in the log, one after another and never the same twice. -/
structure Accounts (log : List (Occasion σ)) (m : Manager) : Prop where
  ascending : (log.filterMap Occasion.given?).Pairwise fun a b => a.2 < b.2
  below : ∀ begun ∈ log.filterMap Occasion.given?, begun.2 < m.nextGeneration
  present : ∀ root session, m.sessions.get? root = some session →
    (root, session.generation) ∈ log.filterMap Occasion.given?
  past : ∀ o ∈ log, ∀ root session, o.manager.sessions.get? root = some session →
    (root, session.generation) ∈ log.filterMap Occasion.given?

namespace Node

/-- Whether nothing is left of the manager: no subscription, no message and no timer. -/
structure Bare (node : Node σ) : Prop where
  live : node.network.subscriptions.live = []
  queue : node.queue = []
  timers : node.timers = []

/-- Whether a manager, at work, keeps its books, and has left nothing when it is no more; and its
generations are those of the log. -/
structure Kept (log : List (Occasion σ)) (node : Node σ) : Prop where
  numbered : node.manager.Numbered
  distinct : node.manager.sessions.Distinct
  accounts : Accounts log node.manager
  keeps : node.life = .running → node.manager.Keeps node.holdings
  bare : node.life ≠ .running → node.Bare

variable {node : Node σ} {log : List (Occasion σ)} {message : Message}

theorem kept_fresh (setting : Setting) (now : Nat) {network : Network} (repo : Repo σ)
    (unsubscribed : network.subscriptions.live = []) :
    Kept [] (fresh setting now network repo) := by
  refine ⟨Manager.numbered_empty, .nil, ⟨.nil, nofun, nofun, nofun⟩, fun _ => ?_, nofun⟩
  have hnothing : (fresh setting now network repo).holdings = ⟨[], [], []⟩ := by
    simp [fresh, holdings, unsubscribed]
  exact hnothing ▸ Manager.keeps_empty

/-- Only a manager at work has messages to handle. -/
theorem Kept.live_of_queue (kept : Kept log node) {rest : List Message}
    (waits : node.queue = message :: rest) : node.life = .running := by
  by_contra dead
  exact absurd (waits.symm.trans (kept.bare dead).queue) nofun

/-- The books are kept while the manager has no turn, if what it holds is as it was. -/
theorem Kept.idle {next : Node σ} (kept : Kept log node) (manager : next.manager = node.manager)
    (life : next.life = node.life)
    (keeps : node.manager.Keeps node.holdings → node.manager.Keeps next.holdings)
    (bare : node.Bare → next.Bare) : Kept log next := by
  refine ⟨?_, ?_, ?_, ?_, ?_⟩
  · exact manager ▸ kept.numbered
  · exact manager ▸ kept.distinct
  · exact manager ▸ kept.accounts
  · rw [life, manager]
    exact fun live => keeps (kept.keeps live)
  · rw [life]
    exact fun dead => bare (kept.bare dead)

theorem close_eq (node : Node σ) : node.close.manager = node.manager ∧
    node.close.repo = node.repo ∧ node.close.life ≠ .running ∧
    (node.life ≠ .running → node.close.life = node.life) := by
  obtain ⟨network, queue, timers, hreleased⟩ :=
    foldl_perform_eq node.manager.releaseAll node
  unfold Node.close
  rw [hreleased]
  refine ⟨rfl, rfl, ?_, ?_⟩
  · simp only
    split
    · exact nofun
    · next other => exact other
  · intro dead
    cases hlife : node.life with
    | running => exact absurd hlife dead
    | _ => rfl

/-- A node that is closed has nothing left of its manager. -/
theorem Kept.close (kept : Kept log node) : Kept log node.close := by
  obtain ⟨hmanager, _, hdead, _⟩ := node.close_eq
  have hnone : node.close.network.subscriptions.live = [] := by
    refine List.map_eq_nil_iff.1
      (?_ : (node.manager.releaseAll.foldl perform node).holdings.subscribed = [])
    rw [holdings_foldl_perform]
    by_cases live : node.life = .running
    · exact (kept.keeps live).releaseAll _
    · refine List.eq_nil_iff_forall_not_mem.2 fun held still => ?_
      have hheld := (Manager.subscribed_of_releases node.manager.releases_releaseAll _ still).1
      rw [holdings, (kept.bare live).live] at hheld
      cases hheld
  refine ⟨?_, ?_, ?_, fun live => absurd live hdead, fun _ => ⟨hnone, rfl, rfl⟩⟩
  · exact hmanager ▸ kept.numbered
  · exact hmanager ▸ kept.distinct
  · exact hmanager ▸ kept.accounts

/-- The sessions of a manager and what is there on their behalf, after the turns of a log. -/
structure InOrder (log : List (Occasion σ)) (node : Node σ) : Prop where
  /-- No two sessions are under one root name. -/
  roots : (node.manager.sessions.entries.map Prod.fst).Nodup
  /-- The generation of every session is below the next. -/
  below : ∀ entry ∈ node.manager.sessions.entries,
    entry.2.generation < node.manager.nextGeneration
  /-- Every start of the log has begun a generation of its own. -/
  rising : (log.filterMap Occasion.given?).Pairwise fun a b => a.2 < b.2
  /-- A session that is there, or was there when a turn came, is of a generation that was begun
  under its root name. -/
  begun : ∀ m, (m = node.manager ∨ ∃ o ∈ log, m = o.manager) → ∀ root session,
    m.sessions.get? root = some session →
    (root, session.generation) ∈ log.filterMap Occasion.given?
  /-- A session that runs has the one subscription to its root name, and no timer. -/
  running : node.life = .running → ∀ root session progress,
    node.manager.sessions.get? root = some session → session.phase = .running progress →
    node.network.subscriptions.count root = 1 ∧
      (∀ sub ∈ node.network.subscriptions.live, sub.root = root → sub.id = session.generation) ∧
      (∀ timer ∈ node.timers, timer.message ≠ .expire root session.generation) ∧
      .expire root session.generation ∉ node.queue ∧
      node.manager.report root = ⟨300, session.stored⟩
  /-- A session that is stopped has no subscription, and the timer of its ticket, unless that has
  gone off and is to be heard of next. -/
  stopped : node.life = .running → ∀ root session ticket,
    node.manager.sessions.get? root = some session → session.phase = .stopped ticket →
    node.network.subscriptions.count root = 0 ∧
      ((∃ timer ∈ node.timers, timer.ticket = some ticket ∧
          timer.message = .expire root session.generation) ∨
        .expire root session.generation ∈ node.queue) ∧
      node.manager.report root = ⟨101, session.stored⟩
  /-- Where there is no session, there is no subscription. -/
  absent : ∀ root, node.manager.sessions.get? root = none →
    node.network.subscriptions.count root = 0
  /-- A manager that is no more has left nothing. -/
  dead : node.life ≠ .running → node.network.subscriptions.live = [] ∧ node.queue = [] ∧
    node.timers = []

theorem Kept.inOrder (kept : Kept log node) : node.InOrder log where
  roots := kept.distinct
  below _ present := kept.numbered.below (kept.distinct.mem_iff.1 present)
  rising := kept.accounts.ascending
  begun := by
    rintro m (rfl | ⟨o, ho, rfl⟩) root session found
    · exact kept.accounts.present root session found
    · exact kept.accounts.past o ho root session found
  running := by
    intro live root session progress found running
    have hran : node.manager.sessions.running? root session.generation ≠ none :=
      Option.ne_none_iff_exists'.2 ⟨_, Sessions.running?_eq_some_iff.2 ⟨found, running, rfl⟩⟩
    obtain ⟨hcount, hown⟩ := count_of_running (kept.keeps live) hran
    refine ⟨hcount, hown, ?_, ?_, ?_⟩
    · intro timer htimer expires
      have halarm := mem_alarms_iff.2 ⟨timer, htimer, rfl, expires⟩
      exact hran (((kept.keeps live).alarmed _ halarm).2.2 root)
    · intro waits
      exact hran (((kept.keeps live).lapsed _ (mem_lapsed_iff.2 waits)).2 root)
    · rw [Manager.report, found]
      simp only [running]
      rfl
  stopped := by
    intro live root session ticket found stopped
    have hidle := Manager.running?_of_stopped found stopped
    obtain ⟨_, hpending⟩ := (kept.keeps live).timed root session ticket found stopped
    exact ⟨count_of_idle (kept.keeps live) hidle, hpending.imp mem_alarms_iff.1 mem_lapsed_iff.1,
      Manager.report_eq found stopped⟩
  absent := by
    intro root absent
    by_cases live : node.life = .running
    · refine count_of_idle (kept.keeps live) fun generation => ?_
      rw [Sessions.running?, absent]
    · rw [Subscriptions.count, (kept.bare live).live]
      rfl
  dead dead := ⟨(kept.bare dead).live, (kept.bare dead).queue, (kept.bare dead).timers⟩

end Node

variable [Store.Backend σ]

/-! ## Failures -/

/-- A manager fails on a valid packet for a session that runs, which the repository refuses. It
leaves its sessions as they are, and lets go of all that they hold. -/
theorem Manager.handle_of_failure {m : Manager} {now : Nat} {repo : Repo σ} {message : Message}
    {cause : Repo.Error} (failed : (m.handle now repo message).failure = some cause) :
    ∃ root generation name data, message = .fetched root generation name (.valid data) ∧
      m.sessions.running? root generation ≠ none ∧ (repo.insert data).1 = .error cause ∧
      m.handle now repo message = ⟨m, (repo.insert data).2, none, m.releaseAll, some cause⟩ := by
  cases message with
  | fetched root generation name outcome =>
    simp only [handle, conclude] at failed ⊢
    split at failed
    · cases failed
    · next session progress hruns =>
      split at failed
      · next data =>
        split at failed
        · next refused after hinsert =>
          cases failed
          refine ⟨root, generation, name, data, rfl, ?_, ?_, ?_⟩
          · exact Option.ne_none_iff_exists'.2 ⟨_, hruns⟩
          · rw [hinsert]
          · rw [hinsert]
        · cases failed
      · cases failed
      · cases failed
  | _ => cases failed

/-! ## Generations -/

/-- Unless a message is to start a session, all sessions after it were there before. -/
theorem Manager.generations_of_handle (m : Manager) (now : Nat) (repo : Repo σ)
    {message : Message} (other : ∀ root parameter, message ≠ .start root parameter) :
    (m.handle now repo message).manager.nextGeneration = m.nextGeneration ∧
      ∀ root session, (m.handle now repo message).manager.sessions.get? root = some session →
        ∃ was, m.sessions.get? root = some was ∧ was.generation = session.generation := by
  cases failed : (m.handle now repo message).failure with
  | some cause =>
    obtain ⟨_, _, _, _, _, _, _, hresult⟩ := handle_of_failure failed
    rw [hresult]
    exact ⟨rfl, fun root session found => ⟨session, found, rfl⟩⟩
  | none =>
    have hmove := m.move_handle now repo message failed
    have hnext := (start_or_nextGeneration_eq hmove).resolve_left fun ⟨root, parameter, hstart⟩ =>
      other root parameter hstart
    refine ⟨hnext, fun root session found => ?_⟩
    rcases generation_of_move hmove found with hwas | hgiven
    · exact hwas
    · have hnew := (generation_of_subscribe hmove hgiven).2.2
      omega

/-- A turn starts a session, or every session after it was there before. -/
theorem Occasion.given?_cases (o : Occasion σ) :
    (∃ root, o.given? = some (root, o.manager.nextGeneration) ∧
        o.result.manager.nextGeneration = o.manager.nextGeneration + 1 ∧
        ∀ other session, o.result.manager.sessions.get? other = some session →
          (∃ was, o.manager.sessions.get? other = some was ∧
            was.generation = session.generation) ∨
          other = root ∧ session.generation = o.manager.nextGeneration) ∨
      o.given? = none ∧ o.result.manager.nextGeneration = o.manager.nextGeneration ∧
        ∀ other session, o.result.manager.sessions.get? other = some session →
          ∃ was, o.manager.sessions.get? other = some was ∧
            was.generation = session.generation := by
  obtain ⟨m, now, repo, message⟩ := o
  cases message with
  | start root parameter =>
    refine Or.inl ⟨root, rfl, rfl, fun other session found => ?_⟩
    rcases Sessions.of_get?_put found with ⟨rfl, rfl⟩ | ⟨_, hwas⟩
    · exact Or.inr ⟨rfl, rfl⟩
    · exact Or.inl ⟨session, hwas, rfl⟩
  | _ => exact Or.inr ⟨rfl, m.generations_of_handle now repo nofun⟩

theorem Accounts.turn {log : List (Occasion σ)} {o : Occasion σ} (h : Accounts log o.manager) :
    Accounts (log ++ [o]) o.result.manager := by
  have hold : ∀ {begun}, begun ∈ log.filterMap Occasion.given? →
      begun ∈ (log ++ [o]).filterMap Occasion.given? := by
    intro begun hgiven
    rw [List.filterMap_append]
    exact List.mem_append_left _ hgiven
  have hpast : ∀ past ∈ log ++ [o], ∀ root session,
      past.manager.sessions.get? root = some session →
        (root, session.generation) ∈ (log ++ [o]).filterMap Occasion.given? := by
    intro past hmem root session found
    rcases List.mem_append.1 hmem with hmem | hmem
    · exact hold (h.past past hmem root session found)
    · rw [List.mem_singleton.1 hmem] at found
      exact hold (h.present root session found)
  rcases o.given?_cases with ⟨root, hgiven, hnext, hsessions⟩ | ⟨hgiven, hnext, hsessions⟩
  · have hlog : (log ++ [o]).filterMap Occasion.given? =
        log.filterMap Occasion.given? ++ [(root, o.manager.nextGeneration)] := by
      rw [List.filterMap_append, List.filterMap_cons_some hgiven, List.filterMap_nil]
    refine ⟨?_, ?_, ?_, hpast⟩
    · rw [hlog]
      refine List.pairwise_append.2 ⟨h.ascending, List.pairwise_singleton _ _, ?_⟩
      intro begun hmem _ hnew
      rw [List.mem_singleton.1 hnew]
      exact h.below begun hmem
    · intro begun hmem
      rw [hlog, List.mem_append, List.mem_singleton] at hmem
      rw [hnext]
      rcases hmem with hmem | rfl
      · exact Nat.lt_succ_of_lt (h.below begun hmem)
      · exact Nat.lt_succ_self _
    · intro other session found
      rcases hsessions other session found with ⟨was, hwas, hsame⟩ | ⟨rfl, hsame⟩
      · exact hsame ▸ hold (h.present other was hwas)
      · rw [hlog, hsame]
        exact List.mem_append_right _ List.mem_cons_self
  · have hlog : (log ++ [o]).filterMap Occasion.given? = log.filterMap Occasion.given? := by
      rw [List.filterMap_append, List.filterMap_cons_none hgiven, List.filterMap_nil,
        List.append_nil]
    refine ⟨?_, ?_, ?_, hpast⟩
    · rw [hlog]
      exact h.ascending
    · rw [hlog, hnext]
      exact h.below
    · intro other session found
      obtain ⟨was, hwas, hsame⟩ := hsessions other session found
      exact hsame ▸ hold (h.present other was hwas)

theorem Run.accounts {allowed : List (Occasion σ) → Occasion σ → Prop} {log : List (Occasion σ)}
    {m : Manager} (run : Run allowed log m) : Accounts log m := by
  induction run with
  | fresh => exact ⟨.nil, nofun, nofun, nofun⟩
  | turn _ _ _ ih => exact ih.turn

/-! ## Steps of a node -/

namespace Node

variable {node : Node σ} {log : List (Occasion σ)} {message : Message}

theorem done_eq (node : Node σ) (message : Message) : ∃ network queue timers,
    node.done message =
      { node with
        manager := (node.occasion message).result.manager
        repo := (node.occasion message).result.repo
        network, queue, timers } :=
  foldl_perform_eq _ _

theorem holdings_done (node : Node σ) (message : Message) :
    (node.done message).holdings =
      (node.occasion message).result.effects.foldl
        (Holdings.perform (node.setting.grace = .zero)) node.holdings :=
  holdings_foldl_perform _ _

/-- A turn that the manager does not survive leaves its sessions as they are, and nothing
subscribed to. -/
theorem done_of_failure {cause : Repo.Error}
    (keeps : node.manager.Keeps (node.holdings.before message))
    (failed : (node.occasion message).result.failure = some cause) :
    (node.occasion message).result.manager = node.manager ∧
      (node.done message).network.subscriptions.live = [] := by
  obtain ⟨root, generation, name, data, hmessage, _, _, hresult⟩ :=
    Manager.handle_of_failure failed
  have hbefore : node.holdings.before message = node.holdings := by
    rw [show message = _ from hmessage]
    rfl
  have heffects : (node.occasion message).result.effects = node.manager.releaseAll :=
    congrArg Turn.effects hresult
  have hnone : (node.done message).holdings.subscribed = [] := by
    rw [holdings_done, heffects]
    exact Manager.Keeps.releaseAll (hbefore ▸ keeps) _
  exact ⟨congrArg Turn.manager hresult, List.map_eq_nil_iff.1 hnone⟩

/-- The books are kept by a turn on a message, be it from the queue or not. -/
theorem Kept.turn (node : Node σ) {message : Message} (numbered : node.manager.Numbered)
    (distinct : node.manager.sessions.Distinct) (accounts : Accounts log node.manager)
    (live : node.life = .running) (keeps : node.manager.Keeps (node.holdings.before message)) :
    Kept (log ++ [node.occasion message]) (node.turn message).2 := by
  have haccounts : Accounts (log ++ [node.occasion message])
      (node.occasion message).result.manager := accounts.turn
  obtain ⟨network, queue, timers, hdone⟩ := node.done_eq message
  have hmanager : (node.done message).manager = (node.occasion message).result.manager := by
    rw [hdone]
  cases failed : (node.occasion message).result.failure with
  | none =>
    have hmove := node.manager.move_handle node.now node.repo message failed
    have hkeeps := keeps.move numbered hmove (node.setting.grace = .zero)
    have hlife : (node.done message).life = .running := by rw [hdone, live]
    rw [turn_of_going failed]
    refine ⟨?_, ?_, ?_, fun _ => ?_, fun dead => absurd hlife dead⟩
    · rw [hmanager]
      exact numbered.move hmove
    · rw [hmanager]
      exact Manager.distinct_of_move hmove distinct
    · rwa [hmanager]
    · rw [hmanager, holdings_done]
      exact hkeeps
  | some cause =>
    obtain ⟨hsame, hnone⟩ := done_of_failure keeps failed
    rw [turn_of_failure failed]
    refine ⟨?_, ?_, ?_, nofun, fun _ => ⟨hnone, rfl, rfl⟩⟩
    · exact hmanager.trans hsame ▸ numbered
    · exact hmanager.trans hsame ▸ distinct
    · exact hmanager ▸ haccounts

/-- The books are kept by every step. -/
theorem Kept.step {next : Node σ} {turns : List (Occasion σ)} (kept : Kept log node)
    (step : Step node turns next) : Kept (log ++ turns) next := by
  cases step with
  | @handle message rest waits =>
    have live := kept.live_of_queue waits
    exact Kept.turn { node with queue := rest } kept.numbered kept.distinct kept.accounts live
      (holdings_of_queue waits ▸ kept.keeps live)
  | command verb root parameter live =>
    refine Kept.turn node kept.numbered kept.distinct kept.accounts live ?_
    cases verb <;> exact kept.keeps live
  | answer root generation name outcome live =>
    rw [List.append_nil]
    refine ⟨kept.numbered, kept.distinct, kept.accounts, fun _ => ?_, absurd live⟩
    exact (node.holdings_later_fetched .zero root generation name outcome).symm ▸ kept.keeps live
  | report root batch =>
    rw [List.append_nil]
    refine kept.idle rfl rfl (fun keeps => (node.holdings_report root batch).symm ▸ keeps) ?_
    intro bare
    exact ⟨by simp [Network.report, Subscriptions.report, bare.live], bare.queue, bare.timers⟩
  | collect =>
    rw [List.append_nil]
    refine kept.idle rfl rfl (fun keeps => node.holdings_collect.symm ▸ keeps) ?_
    intro bare
    exact ⟨by simp [collect, bare.live], by simp [collect, bare.live, bare.queue], bare.timers⟩
  | strike due =>
    rw [List.append_nil]
    refine kept.idle rfl rfl (fun keeps => keeps_strike keeps due) ?_
    intro bare
    exact ⟨bare.live, by simp [strike, bare.queue, bare.timers], by simp [strike, bare.timers]⟩
  | close => exact (List.append_nil log).symm ▸ kept.close

/-- The books are kept by whatever a node does, and others at the same time. -/
theorem Kept.reaches {start : Node σ} {later : List (Occasion σ)} (kept : Kept log start)
    (run : Reaches start later node) : Kept (log ++ later) node := by
  induction run with
  | refl => rwa [List.append_nil]
  | step _ step ih =>
    rw [← List.append_assoc]
    exact ih.step step
  | meanwhile now face repo _ ih => exact ih.idle rfl rfl id fun bare => ⟨bare.1, bare.2, bare.3⟩

/-! ## Whole runs -/

/-- From a fresh manager on, whatever comes and in whatever order, the sessions and what is there on
their behalf are in order: the generations are all different and below the next, a session that runs
has just one subscription and no timer, and one that is stopped just a timer. -/
theorem books_are_in_order {setting : Setting} {now : Nat} {network : Network} {repo : Repo σ}
    (unsubscribed : network.subscriptions.live = [])
    (run : Reaches (fresh setting now network repo) log node) : node.InOrder log :=
  ((kept_fresh setting now repo unsubscribed).reaches run).inOrder

/-- A session that is stopped twice has one timer, and the session that is started in its place has
one subscription, under a new generation, and no timer. -/
theorem books_are_in_order_of_restart :
    let repo : Repo Store.MemoryStore := .ofBackend (.empty 1)
    let idle := fresh ⟨.empty, .digest .empty, ⟨10⟩⟩ 0 (.empty .empty false) repo
    let started := (idle.turn (.start .empty (.ofName .empty))).2
    let stopped := ((started.turn (.stop .empty)).2.turn (.stop .empty)).2
    let restarted := (stopped.turn (.start .empty (.ofName .empty))).2
    (stopped.network.subscriptions.count .empty = 0 ∧ stopped.timers.length = 1 ∧
        stopped.manager.report .empty = ⟨101, 0⟩) ∧
      restarted.network.subscriptions.count .empty = 1 ∧
        (∀ sub ∈ restarted.network.subscriptions.live, sub.root = .empty → sub.id = 2) ∧
        restarted.timers = [] ∧ restarted.manager.report .empty = ⟨300, 0⟩ := by
  intro repo idle started stopped restarted
  have hstarted : Reaches idle _ started := .single (.command .start .empty (.ofName .empty) rfl)
  have hlive : started.life = .running := by decide +kernel
  have hhalted := hstarted.step (.command .stop .empty (.ofName .empty) hlive)
  have hlive' : (started.turn (.stop .empty)).2.life = .running := by decide +kernel
  have hstopped : Reaches idle _ stopped :=
    hhalted.step (.command .stop .empty (.ofName .empty) hlive')
  have hlive'' : stopped.life = .running := by decide +kernel
  have hrestarted : Reaches idle _ restarted :=
    hstopped.step (.command .start .empty (.ofName .empty) hlive'')
  have hsession : stopped.manager.sessions.get? .empty = some ⟨1, 0, .stopped 2⟩ := by
    decide +kernel
  have hsession' : restarted.manager.sessions.get? .empty =
      some ⟨2, 0, .running ⟨.ofParameter (.ofName .empty), 0, 0⟩⟩ := by decide +kernel
  obtain ⟨hnone, _, hreport⟩ :=
    (books_are_in_order rfl hstopped).stopped hlive'' .empty _ 2 hsession rfl
  obtain ⟨hone, hown, _, _, hreport'⟩ :=
    (books_are_in_order rfl hrestarted).running (by decide +kernel) .empty _ _ hsession' rfl
  exact ⟨⟨hnone, by decide +kernel, hreport⟩, hone, hown, by decide +kernel, hreport'⟩

end Node

end NamedData.Sync
