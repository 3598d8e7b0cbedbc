import NamedData.Sync.Manager
/-!
# What a message does to the sessions

Each message that the manager survives makes one of a few moves, or none at all. A session comes
to run only by a start, under a generation that was never given; one that is stopped keeps its
count of stored objects until it is replaced or forgotten.

    (m.handle now repo msg).failure = none → Move m msg … …                 (move_handle)
    Move m msg n es → n runs g → m runs g or g = m.nextGeneration           (runs_of_move)
    Move m msg n es → m has g stopped → n has g stopped with its count      (stopped_of_move)
-/

namespace NamedData.Sync

/-! ## The time of a session -/

theorem Progress.timedOut_eq_true_iff {p : Progress} {now : Nat} :
    p.timedOut now = true ↔
      p.limits.timeout ≠ .zero ∧ p.lastReport + p.limits.timeout.nanoseconds < now := by
  rw [timedOut, Bool.and_eq_true, decide_eq_true_iff, decide_eq_true_iff, Nat.lt_sub_iff_add_lt']

/-- A session times out at some time unless its timeout is zero. -/
theorem Progress.exists_timedOut_iff {p : Progress} :
    (∃ later, p.timedOut later = true) ↔ p.limits.timeout ≠ .zero := by
  simp only [timedOut_eq_true_iff]
  exact ⟨fun ⟨_, hbounded, _⟩ => hbounded, fun hbounded => ⟨_, hbounded, Nat.lt_succ_self _⟩⟩

/-! ## The table of sessions -/

namespace Sessions

theorem get?_erase (s : Sessions) (root other : Name) :
    (s.erase root).get? other = if other = root then none else s.get? other := by
  obtain ⟨entries⟩ := s
  simp only [get?, erase]
  induction entries with
  | nil => simp
  | cons entry rest ih =>
    obtain ⟨name, session⟩ := entry
    rw [List.filter_cons]
    by_cases hname : name = root
    · subst hname
      rw [if_neg (by simp), ih, List.lookup_cons]
      by_cases hother : other = name
      · rw [if_pos hother, if_pos hother]
      · rw [if_neg hother, if_neg hother, beq_false_of_ne hother]
    · rw [if_pos (by simpa using hname), List.lookup_cons, List.lookup_cons, ih]
      by_cases hother : other = name
      · have hne : other ≠ root := hother ▸ hname
        rw [beq_iff_eq.2 hother, if_neg hne, if_neg hne]
      · rw [beq_false_of_ne hother]

theorem get?_erase_self (s : Sessions) (root : Name) : (s.erase root).get? root = none := by
  rw [get?_erase, if_pos rfl]

theorem get?_erase_of_ne (s : Sessions) {root other : Name} (h : other ≠ root) :
    (s.erase root).get? other = s.get? other := by
  rw [get?_erase, if_neg h]

theorem get?_put_self (s : Sessions) (root : Name) (session : Session) :
    (s.put root session).get? root = some session := by
  rw [get?, put, List.lookup_cons, beq_self_eq_true]

theorem get?_put_of_ne (s : Sessions) {root other : Name} (session : Session)
    (h : other ≠ root) : (s.put root session).get? other = s.get? other := by
  rw [← get?_erase_of_ne s h, get?, put, List.lookup_cons, beq_false_of_ne h]
  rfl

theorem running?_eq_some_iff {s : Sessions} {root : Name} {generation : Nat} {session : Session}
    {progress : Progress} :
    s.running? root generation = some (session, progress) ↔
      s.get? root = some session ∧ session.phase = .running progress ∧
        session.generation = generation := by
  unfold running?
  constructor
  · intro h
    split at h
    · next found hfound =>
      split at h
      · next going hphase =>
        split at h
        · next hgeneration =>
          cases h
          exact ⟨hfound, hphase, hgeneration⟩
        · cases h
      · cases h
    · cases h
  · rintro ⟨hfound, hphase, hgeneration⟩
    simp only [hfound, hphase, if_pos hgeneration]

/-- At most one generation runs under a root name. -/
theorem generation_eq_of_running? {s : Sessions} {root : Name} {generation other : Nat}
    {running : Session × Progress} (runs : s.running? root generation ≠ none)
    (found : s.running? root other = some running) : other = generation := by
  obtain ⟨⟨session, progress⟩, hruns⟩ := Option.ne_none_iff_exists'.1 runs
  obtain ⟨hsession, _, rfl⟩ := running?_eq_some_iff.1 hruns
  obtain ⟨hsame, _, rfl⟩ := running?_eq_some_iff.1 found
  rw [Option.some.inj (hsame.symm.trans hsession)]

/-- Where a stopped session was put, none runs. -/
theorem running?_put_stopped (s : Sessions) (root : Name) {session : Session} {expiry : Nat}
    (stopped : session.phase = .stopped expiry) (generation : Nat) :
    (s.put root session).running? root generation = none := by
  rw [running?, get?_put_self]
  simp only [stopped]

theorem running?_erase_self (s : Sessions) (root : Name) (generation : Nat) :
    (s.erase root).running? root generation = none := by
  rw [running?, get?_erase_self]

/-- Where a running session was put, it runs under its generation. -/
theorem running?_put_running (s : Sessions) (root : Name) {session : Session} {progress : Progress}
    (running : session.phase = .running progress) (generation : Nat) :
    (s.put root session).running? root generation =
      if session.generation = generation then some (session, progress) else none := by
  rw [running?, get?_put_self]
  simp only [running]

end Sessions

/-- The root name that a message is about. -/
def Message.root : Message → Name
  | .start root _ | .check root | .stop root => root
  | .missing root _ _ | .fetched root _ _ _ | .expire root _ => root

/-- A request for a name, made for the session of a generation. -/
structure Request where
  root : Name
  generation : Nat
  name : Name
deriving DecidableEq, Repr

/-- The request that is to be sent, if that is what is to be done. -/
def Effect.request? : Effect → Option Request
  | .fetch root generation interest => some ⟨root, generation, interest.name⟩
  | _ => none

namespace Manager

/-! ## Moves -/

/-- The manager with a session that goes on as told. -/
def resume (m : Manager) (root : Name) (session : Session) (progress : Progress) : Manager :=
  { m with sessions := m.sessions.put root { session with phase := .running progress } }

/-- Whether there is nothing to do for a message: it asks, or the session it is for does not run,
or is not there, or is not to be forgotten. -/
def Idle (m : Manager) : Message → Prop
  | .start _ _ => False
  | .check _ => True
  | .stop root => m.sessions.get? root = none
  | .missing root generation _ => m.sessions.running? root generation = none
  | .fetched root generation _ _ => m.sessions.running? root generation = none
  | .expire root generation => ∀ session, m.sessions.get? root = some session →
      session.generation = generation → ∃ progress, session.phase = .running progress

/-- What the manager makes of a message, and what it wants done. -/
inductive Move (m : Manager) : Message → Manager → List Effect → Prop where
  | idle {message : Message} : m.Idle message → Move m message m []
  | start (now : Nat) (root : Name) (parameter : Command.Parameter) :
    Move m (.start root parameter) (m.begin now root parameter).1 (m.begin now root parameter).2
  | stop {root : Name} {session : Session} : m.sessions.get? root = some session →
    Move m (.stop root) (m.halt root session).1 (m.halt root session).2
  /-- Every name that is reported is asked for. -/
  | pursue {root : Name} {generation : Nat} {session : Session} {progress : Progress}
    (ranges : List Range) (lastReport : Nat) :
    m.sessions.running? root generation = some (session, progress) →
    Move m (.missing root generation ranges)
      (m.resume root session ⟨progress.limits, lastReport,
        progress.issued + (ranges.flatMap Range.names).length⟩)
      ((ranges.flatMap Range.names).map fun name =>
        .fetch root generation (progress.request name))
  /-- The name is asked for again. -/
  | again {root : Name} {generation : Nat} {session : Session} {progress : Progress}
    (name : Name) (outcome : Outcome) (stored : Nat) :
    m.sessions.running? root generation = some (session, progress) →
    Move m (.fetched root generation name outcome)
      (m.resume root { session with stored } { progress with issued := progress.issued + 1 })
      [.fetch root generation (progress.request name)]
  /-- A limit is reached. -/
  | exhaust {root : Name} {generation : Nat} {session : Session} {progress : Progress}
    (name : Name) (outcome : Outcome) (stored : Nat) :
    m.sessions.running? root generation = some (session, progress) →
    Move m (.fetched root generation name outcome)
      (m.halt root { session with stored }).1 (m.halt root { session with stored }).2
  | forget {root : Name} {session : Session} {expiry : Nat} :
    m.sessions.get? root = some session → session.phase = .stopped expiry →
    Move m (.expire root session.generation) { m with sessions := m.sessions.erase root } []

/-- After a request is over, the name is asked for again or the session stops. -/
theorem move_proceed {m : Manager} {root : Name} {generation : Nat} {session : Session}
    {progress : Progress} (runs : m.sessions.running? root generation = some (session, progress))
    (now : Nat) (name : Name) (outcome : Outcome) (stored : Nat) :
    Move m (.fetched root generation name outcome)
      (m.proceed now root { session with stored } progress name).1
      (m.proceed now root { session with stored } progress name).2 := by
  obtain rfl := (Sessions.running?_eq_some_iff.1 runs).2.2
  unfold proceed
  split
  · exact .exhaust name outcome stored runs
  · exact .again name outcome stored runs

variable {σ : Type} [Store.Backend σ]

theorem move_handle (m : Manager) (now : Nat) (repo : Repo σ) (message : Message)
    (going : (m.handle now repo message).failure = none) :
    Move m message (m.handle now repo message).manager (m.handle now repo message).effects := by
  cases message with
  | start root parameter => exact .start now root parameter
  | check root => exact .idle trivial
  | stop root =>
    simp only [handle]
    split
    · next habsent => exact .idle habsent
    · next session hfound => exact .stop hfound
  | missing root generation ranges =>
    simp only [handle, pursue]
    split
    · next hnone => exact .idle hnone
    · next session progress hruns => exact .pursue ranges _ hruns
  | fetched root generation name outcome =>
    simp only [handle, conclude] at going ⊢
    split at going
    · next hnone => exact .idle hnone
    · next session progress hruns =>
      split at going
      · split at going
        · cases going
        · exact move_proceed hruns now name _ _
      · exact move_proceed hruns now name _ session.stored
      · exact move_proceed hruns now name _ session.stored
  | expire root generation =>
    simp only [handle, Manager.forget]
    split
    · next habsent => exact .idle fun session hfound => by rw [habsent] at hfound; cases hfound
    · next session hfound =>
      split
      · next progress hphase =>
        apply Move.idle
        intro other hother _
        rw [hfound] at hother
        cases hother
        exact ⟨progress, hphase⟩
      · next expiry hphase =>
        split
        · next hgeneration => exact hgeneration ▸ .forget hfound hphase
        · next hgeneration =>
          apply Move.idle
          intro other hother hsame
          rw [hfound] at hother
          cases hother
          exact absurd hsame hgeneration

/-- A manager that cannot go on has its sessions as before. -/
theorem manager_of_failure (m : Manager) (now : Nat) (repo : Repo σ) (message : Message)
    (failed : (m.handle now repo message).failure ≠ none) :
    (m.handle now repo message).manager = m := by
  cases message with
  | fetched root generation name outcome =>
    revert failed
    simp only [handle, conclude]
    split
    · exact fun _ => rfl
    · split
      · split
        · exact fun _ => rfl
        · exact fun failed => absurd rfl failed
      · exact fun failed => absurd rfl failed
      · exact fun failed => absurd rfl failed
  | _ => exact absurd rfl failed

variable {m next : Manager} {message : Message} {effects : List Effect}

/-! ## What moves want done -/

theorem request?_release (session : Session) : (release session).request? = none := by
  unfold release
  split <;> rfl

/-- A start asks for nothing yet. -/
theorem requests_begin (m : Manager) (now : Nat) (root : Name) (parameter : Command.Parameter) :
    (m.begin now root parameter).2.filterMap Effect.request? = [] := by
  rw [begin, List.filterMap_append]
  cases m.sessions.get? root with
  | none => rfl
  | some session =>
    rw [Option.toList_some, List.map_singleton, List.filterMap_cons_none (request?_release session)]
    rfl

theorem requests_halt (m : Manager) (root : Name) (session : Session) :
    (m.halt root session).2.filterMap Effect.request? = [] := by
  rw [halt, List.filterMap_cons_none (request?_release session)]
  rfl

/-- Only a session that runs sends requests, and only on a message under its root name. -/
theorem runs_of_request (move : Move m message next effects) {request : Request}
    (sent : request ∈ effects.filterMap Effect.request?) :
    request.root = message.root ∧
      m.sessions.running? request.root request.generation ≠ none := by
  cases move with
  | idle _ => cases sent
  | start now root parameter => rw [requests_begin] at sent; cases sent
  | stop _ => rw [requests_halt] at sent; cases sent
  | pursue ranges _ runs =>
    rw [List.filterMap_map] at sent
    obtain ⟨name, _, hname⟩ := List.mem_filterMap.1 sent
    cases hname
    rw [runs]
    exact ⟨rfl, nofun⟩
  | again _ _ _ runs =>
    obtain rfl := List.mem_singleton.1 sent
    rw [runs]
    exact ⟨rfl, nofun⟩
  | exhaust _ _ _ _ => rw [requests_halt] at sent; cases sent
  | forget _ _ => cases sent

theorem release_ne_subscribe (session : Session) (root : Name) (generation : Nat) :
    release session ≠ .subscribe root generation := by
  unfold release
  split <;> nofun

/-- A stop subscribes to nothing. -/
theorem subscribe_not_mem_halt (m : Manager) (other : Name) (session : Session) (root : Name)
    (generation : Nat) : Effect.subscribe root generation ∉ (m.halt other session).2 := by
  rw [halt, List.mem_cons, List.mem_singleton]
  rintro (h | h)
  · exact release_ne_subscribe session root generation h.symm
  · cases h

/-- A generation is begun under the root name of the message, and its number is then used up. -/
theorem generation_of_subscribe (move : Move m message next effects) {root : Name}
    {generation : Nat} (begun : Effect.subscribe root generation ∈ effects) :
    root = message.root ∧ generation = m.nextGeneration ∧
      next.nextGeneration = m.nextGeneration + 1 := by
  cases move with
  | idle _ => cases begun
  | start now other parameter =>
    rcases List.mem_append.1 begun with h | h
    · obtain ⟨session, _, hrelease⟩ := List.mem_map.1 h
      exact absurd hrelease (release_ne_subscribe session root generation)
    · cases List.mem_singleton.1 h
      exact ⟨rfl, rfl, rfl⟩
  | stop _ => exact absurd begun (subscribe_not_mem_halt _ _ _ _ _)
  | pursue ranges _ runs =>
    obtain ⟨name, _, hname⟩ := List.mem_map.1 begun
    cases hname
  | again _ _ _ runs => cases List.mem_singleton.1 begun
  | exhaust _ _ _ _ => exact absurd begun (subscribe_not_mem_halt _ _ _ _ _)
  | forget _ _ => cases begun

/-! ## What moves leave as it is -/

theorem nextGeneration_le_of_move (move : Move m message next effects) :
    m.nextGeneration ≤ next.nextGeneration := by
  cases move with
  | start now root parameter => exact Nat.le_succ _
  | _ => exact Nat.le_refl _

/-- A move is about the sessions under one root name. -/
theorem get?_of_move_of_ne (move : Move m message next effects) {other : Name}
    (h : other ≠ message.root) : next.sessions.get? other = m.sessions.get? other := by
  cases move with
  | idle _ => rfl
  | start _ _ _ => exact Sessions.get?_put_of_ne _ _ h
  | stop _ => exact Sessions.get?_put_of_ne _ _ h
  | pursue _ _ _ => exact Sessions.get?_put_of_ne _ _ h
  | again _ _ _ _ => exact Sessions.get?_put_of_ne _ _ h
  | exhaust _ _ _ _ => exact Sessions.get?_put_of_ne _ _ h
  | forget _ _ => exact Sessions.get?_erase_of_ne _ h

/-- A message is about the session under one root name, also if the manager cannot go on. -/
theorem get?_handle_of_ne (m : Manager) (now : Nat) (repo : Repo σ) (message : Message)
    {other : Name} (h : other ≠ message.root) :
    (m.handle now repo message).manager.sessions.get? other = m.sessions.get? other := by
  by_cases going : (m.handle now repo message).failure = none
  · exact get?_of_move_of_ne (m.move_handle now repo message going) h
  · rw [m.manager_of_failure now repo message going]

theorem running?_of_move_of_ne (move : Move m message next effects) {other : Name}
    (h : other ≠ message.root) (generation : Nat) :
    next.sessions.running? other generation = m.sessions.running? other generation := by
  rw [Sessions.running?, Sessions.running?, get?_of_move_of_ne move h]

/-- A session is of the generation that was there before, or of one that the move begins. -/
theorem generation_of_move (move : Move m message next effects) {root : Name} {session : Session}
    (found : next.sessions.get? root = some session) :
    (∃ was, m.sessions.get? root = some was ∧ was.generation = session.generation) ∨
      Effect.subscribe root session.generation ∈ effects := by
  by_cases h : root = message.root
  · subst h
    cases move with
    | idle _ => exact Or.inl ⟨session, found, rfl⟩
    | start now root parameter =>
      obtain rfl := Option.some.inj ((Sessions.get?_put_self _ _ _).symm.trans found)
      exact Or.inr (List.mem_append_right _ List.mem_cons_self)
    | stop was =>
      obtain rfl := Option.some.inj ((Sessions.get?_put_self _ _ _).symm.trans found)
      exact Or.inl ⟨_, was, rfl⟩
    | pursue _ _ runs =>
      obtain rfl := Option.some.inj ((Sessions.get?_put_self _ _ _).symm.trans found)
      exact Or.inl ⟨_, (Sessions.running?_eq_some_iff.1 runs).1, rfl⟩
    | again _ _ _ runs =>
      obtain rfl := Option.some.inj ((Sessions.get?_put_self _ _ _).symm.trans found)
      exact Or.inl ⟨_, (Sessions.running?_eq_some_iff.1 runs).1, rfl⟩
    | exhaust _ _ _ runs =>
      obtain rfl := Option.some.inj ((Sessions.get?_put_self _ _ _).symm.trans found)
      exact Or.inl ⟨_, (Sessions.running?_eq_some_iff.1 runs).1, rfl⟩
    | forget _ _ => exact absurd ((Sessions.get?_erase_self _ _).symm.trans found) nofun
  · exact Or.inl ⟨session, (get?_of_move_of_ne move h).symm.trans found, rfl⟩

/-- A session that goes on is the one that runs. -/
theorem running?_resume {root : Name} {ran : Nat} {session : Session} {was : Progress}
    (runs : m.sessions.running? root ran = some (session, was)) (stored : Nat)
    (progress : Progress) (generation : Nat) :
    (m.resume root { session with stored } progress).sessions.running? root generation =
      if ran = generation then
        some ({ session with stored, phase := .running progress }, progress)
      else none := by
  obtain rfl := (Sessions.running?_eq_some_iff.1 runs).2.2
  exact Sessions.running?_put_running _ _ rfl _

/-- No other generation runs where a session goes on. -/
theorem eq_of_running?_resume {root : Name} {ran generation : Nat} {session : Session}
    {was progress : Progress} {stored : Nat} {found : Session × Progress}
    (before : m.sessions.running? root ran = some (session, was))
    (runs : (m.resume root { session with stored } progress).sessions.running? root generation =
      some found) :
    ran = generation ∧ found = ({ session with stored, phase := .running progress }, progress) := by
  rw [running?_resume before] at runs
  split at runs
  · next hsame => exact ⟨hsame, (Option.some.inj runs).symm⟩
  · cases runs

theorem runs_of_resume {root : Name} {ran generation : Nat} {session : Session}
    {was progress : Progress} {stored : Nat}
    (before : m.sessions.running? root ran = some (session, was))
    (runs : (m.resume root { session with stored } progress).sessions.running? root generation ≠
      none) : m.sessions.running? root generation ≠ none := by
  obtain ⟨found, hfound⟩ := Option.ne_none_iff_exists'.1 runs
  obtain ⟨rfl, _⟩ := eq_of_running?_resume before hfound
  rw [before]
  nofun

/-- What runs after a move ran before, but for what a start begins. -/
theorem runs_of_move (move : Move m message next effects) {root : Name} {generation : Nat}
    (runs : next.sessions.running? root generation ≠ none) :
    m.sessions.running? root generation ≠ none ∨ generation = m.nextGeneration := by
  by_cases h : root = message.root
  · subst h
    cases move with
    | idle _ => exact Or.inl runs
    | start now root parameter =>
      refine Or.inr (Decidable.byContradiction fun hne => runs ?_)
      exact (Sessions.running?_put_running _ _ rfl _).trans (if_neg (Ne.symm hne))
    | stop _ => exact absurd (Sessions.running?_put_stopped _ _ rfl _) runs
    | pursue _ _ was => exact Or.inl (runs_of_resume was runs)
    | again _ _ _ was => exact Or.inl (runs_of_resume was runs)
    | exhaust _ _ _ _ => exact absurd (Sessions.running?_put_stopped _ _ rfl _) runs
    | forget _ _ => exact absurd (Sessions.running?_erase_self _ _ _) runs
  · rw [running?_of_move_of_ne move h] at runs
    exact Or.inl runs

/-- What is stopped before a move is stopped after it, with as much stored, unless it is replaced
or forgotten. -/
theorem stopped_of_move (move : Move m message next effects) {root : Name} {session : Session}
    {expiry : Nat} (found : m.sessions.get? root = some session)
    (stopped : session.phase = .stopped expiry) :
    (∃ ticket, next.sessions.get? root = some { session with phase := .stopped ticket }) ∨
      (∃ parameter, message = .start root parameter) ∨
      message = .expire root session.generation := by
  have hkept : some session = some { session with phase := .stopped expiry } := by rw [← stopped]
  have hnot : ∀ generation, m.sessions.running? root generation = none := fun generation => by
    rw [Sessions.running?, found]
    simp only [stopped]
  by_cases h : root = message.root
  · subst h
    cases move with
    | idle _ => exact Or.inl ⟨expiry, found.trans hkept⟩
    | start now root parameter => exact Or.inr (Or.inl ⟨parameter, rfl⟩)
    | @stop root other hother =>
      obtain rfl := Option.some.inj (hother.symm.trans found)
      exact Or.inl ⟨m.nextTicket, Sessions.get?_put_self _ _ _⟩
    | pursue _ _ was => exact absurd ((hnot _).symm.trans was) nofun
    | again _ _ _ was => exact absurd ((hnot _).symm.trans was) nofun
    | exhaust _ _ _ was => exact absurd ((hnot _).symm.trans was) nofun
    | forget hother _ =>
      obtain rfl := Option.some.inj (hother.symm.trans found)
      exact Or.inr (Or.inr rfl)
  · rw [get?_of_move_of_ne move h]
    exact Or.inl ⟨expiry, found.trans hkept⟩

end Manager

end NamedData.Sync
