import Mathlib.Data.List.Induction
import NamedData.Proofs.Sync.Inert
import NamedData.Proofs.Sync.Log
/-!
# The grace of a stopped session

A session that is stopped is remembered until its grace is over. The timer is set again by every
further stop, and one that was set for an earlier session may still go off, or its message may
have waited; but a timer forgets nothing but a stopped session of its own generation, and it is not
set before that session stops for the first time.

    o arms a timer for g → g runs no more                                 (Lapses.retired)
    stop stops g → o arms a timer for g → stop.now ≤ o.now                  (Lapses.first)
    a session that leaves was replaced, or its grace is over    (stopped_session_is_remembered)
-/

namespace NamedData.Sync

namespace Manager

variable {m next : Manager} {message : Message} {effects : List Effect} {root : Name}
  {generation : Nat}

theorem release_ne_arm (session : Session) (ticket : Nat) (root : Name) (generation : Nat) :
    release session ≠ .arm ticket root generation := by
  unfold release
  split <;> nofun

theorem mem_halt_arm {other : Name} {session : Session} {ticket : Nat}
    (armed : Effect.arm ticket root generation ∈ (m.halt other session).2) :
    root = other ∧ generation = session.generation := by
  rw [halt, List.mem_cons, List.mem_singleton] at armed
  rcases armed with h | h
  · exact absurd h.symm (release_ne_arm _ _ _ _)
  · cases h
    exact ⟨rfl, rfl⟩

/-- A timer is set for a session that is stopped then. -/
theorem stopped_of_arm (move : Move m message next effects) {ticket : Nat}
    (armed : Effect.arm ticket root generation ∈ effects) :
    ∃ session expiry, next.sessions.get? root = some session ∧
      session.generation = generation ∧ session.phase = .stopped expiry := by
  cases move with
  | idle _ => cases armed
  | start now other parameter =>
    rcases List.mem_append.1 armed with h | h
    · obtain ⟨session, _, hrelease⟩ := List.mem_map.1 h
      exact absurd hrelease (release_ne_arm _ _ _ _)
    · cases List.mem_singleton.1 h
  | stop _ =>
    obtain ⟨rfl, rfl⟩ := mem_halt_arm armed
    exact ⟨_, _, Sessions.get?_put_self _ _ _, rfl, rfl⟩
  | pursue ranges _ _ =>
    obtain ⟨name, _, hname⟩ := List.mem_map.1 armed
    cases hname
  | again _ _ _ _ => cases List.mem_singleton.1 armed
  | exhaust _ _ _ _ =>
    obtain ⟨rfl, rfl⟩ := mem_halt_arm armed
    exact ⟨_, _, Sessions.get?_put_self _ _ _, rfl, rfl⟩
  | forget _ _ => cases armed

/-- A session that is stopped after a move ran before it or was stopped before it. -/
theorem was_of_stopped (move : Move m message next effects) {session : Session} {expiry : Nat}
    (found : next.sessions.get? root = some session) (stopped : session.phase = .stopped expiry) :
    ∃ was, m.sessions.get? root = some was ∧ was.generation = session.generation := by
  by_cases h : root = message.root
  · subst h
    cases move with
    | idle _ => exact ⟨session, found, rfl⟩
    | start _ _ _ =>
      obtain rfl := Option.some.inj ((Sessions.get?_put_self _ _ _).symm.trans found)
      cases stopped
    | stop was =>
      obtain rfl := Option.some.inj ((Sessions.get?_put_self _ _ _).symm.trans found)
      exact ⟨_, was, rfl⟩
    | pursue _ _ _ =>
      obtain rfl := Option.some.inj ((Sessions.get?_put_self _ _ _).symm.trans found)
      cases stopped
    | again _ _ _ _ =>
      obtain rfl := Option.some.inj ((Sessions.get?_put_self _ _ _).symm.trans found)
      cases stopped
    | exhaust _ _ _ runs =>
      obtain rfl := Option.some.inj ((Sessions.get?_put_self _ _ _).symm.trans found)
      exact ⟨_, (Sessions.running?_eq_some_iff.1 runs).1, rfl⟩
    | forget _ _ => exact absurd ((Sessions.get?_erase_self _ _).symm.trans found) nofun
  · exact ⟨session, (get?_of_move_of_ne move h).symm.trans found, rfl⟩

/-- A session leaves when another is started in its place, or when it is stopped and its timer goes
off. -/
theorem message_of_leaving (move : Move m message next effects) {session : Session}
    (found : m.sessions.get? root = some session)
    (gone : ∀ later, next.sessions.get? root = some later →
      later.generation ≠ session.generation) :
    (∃ parameter, message = .start root parameter) ∨
      message = .expire root session.generation ∧ ∃ expiry, session.phase = .stopped expiry := by
  by_cases h : root = message.root
  · subst h
    have hstays : ∀ {was later : Session}, m.sessions.get? message.root = some was →
        next.sessions.get? message.root = some later → later.generation = was.generation →
          False := by
      intro was later hwas hlater hsame
      obtain rfl := Option.some.inj (found.symm.trans hwas)
      exact gone later hlater hsame
    cases move with
    | idle _ => exact absurd rfl (gone session found)
    | start now root parameter => exact Or.inl ⟨parameter, rfl⟩
    | stop was => exact (hstays was (Sessions.get?_put_self _ _ _) rfl).elim
    | pursue _ _ runs =>
      exact (hstays (Sessions.running?_eq_some_iff.1 runs).1 (Sessions.get?_put_self _ _ _)
        rfl).elim
    | again _ _ _ runs =>
      exact (hstays (Sessions.running?_eq_some_iff.1 runs).1 (Sessions.get?_put_self _ _ _)
        rfl).elim
    | exhaust _ _ _ runs =>
      exact (hstays (Sessions.running?_eq_some_iff.1 runs).1 (Sessions.get?_put_self _ _ _)
        rfl).elim
    | @forget _ _ expiry was stopped =>
      obtain rfl := Option.some.inj (found.symm.trans was)
      exact Or.inr ⟨rfl, expiry, stopped⟩
  · exact absurd rfl (gone session ((get?_of_move_of_ne move h).trans found))

end Manager

namespace Occasion

variable {σ : Type} [Store.Backend σ]

/-- Whether a turn stops a session: it ran, and is there after the turn, stopped. -/
def Stops (root : Name) (generation : Nat) (o : Occasion σ) : Prop :=
  o.manager.sessions.running? root generation ≠ none ∧
    ∃ session expiry, o.result.manager.sessions.get? root = some session ∧
      session.generation = generation ∧ session.phase = .stopped expiry

/-- Whether a turn sets a timer that forgets a session. -/
def Arms (root : Name) (generation : Nat) (o : Occasion σ) : Prop :=
  ∃ ticket, Effect.arm ticket root generation ∈ o.result.effects

/-- Whether a message can come after a log: not before those in it; and that a timer has gone off,
not before the grace is over since a turn that set such a timer. -/
structure Timely (grace : Duration) (log : List (Occasion σ)) (o : Occasion σ) : Prop where
  ordered : ∀ past ∈ log, past.now ≤ o.now
  graced : ∀ root generation, o.message = .expire root generation →
    ∃ past ∈ log, past.Arms root generation ∧ past.now + grace.nanoseconds ≤ o.now

/-- A turn that sets a timer leaves a generation that runs no more. -/
theorem retired_of_arms {o : Occasion σ} (numbered : o.manager.Numbered)
    (going : o.result.failure = none) {root : Name} {generation : Nat}
    (arms : o.Arms root generation) : generation < o.result.manager.nextGeneration ∧
      ∀ other, o.result.manager.sessions.running? other generation = none := by
  have hmove := o.manager.move_handle o.now o.repo o.message going
  have hafter : o.result.manager.Numbered := numbered.move hmove
  obtain ⟨ticket, harm⟩ := arms
  obtain ⟨session, expiry, hfound, rfl, hstopped⟩ := Manager.stopped_of_arm hmove harm
  refine ⟨hafter.below hfound, ?_⟩
  intro other
  apply Decidable.byContradiction
  intro runs
  obtain rfl := hafter.root_of_runs hfound runs
  apply runs
  rw [Sessions.running?, Occasion.result, hfound]
  simp only [hstopped]

end Occasion

namespace Run

open Occasion

variable {σ : Type} [Store.Backend σ] {grace : Duration} {log : List (Occasion σ)} {m : Manager}

/-! ## What a log says of timers -/

/-- Whether all timers of a log were set for sessions that had stopped, none before its session
stopped for the first time; and every session that is stopped was stopped in the log. -/
structure Lapses (log : List (Occasion σ)) (m : Manager) : Prop where
  retired : ∀ o ∈ log, ∀ root generation, o.Arms root generation →
    generation < m.nextGeneration ∧ ∀ other, m.sessions.running? other generation = none
  first : ∀ stop ∈ log, ∀ o ∈ log, ∀ root generation, stop.Stops root generation →
    o.Arms root generation → stop.now ≤ o.now
  stopped : ∀ root session expiry, m.sessions.get? root = some session →
    session.phase = .stopped expiry → ∃ stop ∈ log, stop.Stops root session.generation

theorem Lapses.turn {o : Occasion σ} (h : Lapses log o.manager) (numbered : o.manager.Numbered)
    (timely : Timely grace log o) (going : o.result.failure = none) :
    Lapses (log ++ [o]) o.result.manager := by
  have hmove := o.manager.move_handle o.now o.repo o.message going
  refine ⟨?_, ?_, ?_⟩
  · intro past hpast root generation harms
    rcases List.mem_append.1 hpast with hold | hlast
    · obtain ⟨hbelow, hnone⟩ := h.retired past hold root generation harms
      refine ⟨Nat.lt_of_lt_of_le hbelow (Manager.nextGeneration_le_of_move hmove), ?_⟩
      intro other
      apply Decidable.byContradiction
      intro runs
      rcases Manager.runs_of_move hmove runs with ran | hnew
      · exact ran (hnone other)
      · exact Nat.ne_of_lt hbelow hnew
    · obtain rfl := List.mem_singleton.1 hlast
      exact retired_of_arms numbered going harms
  · intro stop hstop past hpast root generation hstops harms
    rcases List.mem_append.1 hpast with hold | hlast
    · rcases List.mem_append.1 hstop with hearlier | hlast
      · exact h.first stop hearlier past hold root generation hstops harms
      · -- for what still runs no timer was set
        obtain rfl := List.mem_singleton.1 hlast
        exact absurd ((h.retired past hold root generation harms).2 root) hstops.1
    · obtain rfl := List.mem_singleton.1 hlast
      rcases List.mem_append.1 hstop with hearlier | hlast
      · exact timely.ordered stop hearlier
      · exact Nat.le_of_eq (congrArg Occasion.now (List.mem_singleton.1 hlast))
  · intro root session expiry hfound hstopped
    by_cases runs : o.manager.sessions.running? root session.generation = none
    · obtain ⟨was, hwas, hsame⟩ := Manager.was_of_stopped hmove hfound hstopped
      cases hphase : was.phase with
      | running progress =>
        rw [Sessions.running?_eq_some_iff.2 ⟨hwas, hphase, hsame⟩] at runs
        cases runs
      | stopped earlier =>
        obtain ⟨stop, hstop, hstops⟩ := h.stopped root was earlier hwas hphase
        exact ⟨stop, List.mem_append_left _ hstop, hsame ▸ hstops⟩
    · exact ⟨o, List.mem_append_right _ List.mem_cons_self, runs, session, expiry, hfound, rfl,
        hstopped⟩

theorem lapses (run : Run (Timely grace) log m) : Lapses log m := by
  induction run with
  | fresh => exact ⟨nofun, nofun, nofun⟩
  | turn before timely going ih => exact ih.turn before.numbered timely going

/-- When a timer goes off, the grace is over since its session stopped. -/
theorem graced_of_expire (run : Run (Timely grace) log m) {o stop : Occasion σ}
    (timely : Timely grace log o) {root : Name} {generation : Nat}
    (expires : o.message = .expire root generation) (hstop : stop ∈ log)
    (stops : stop.Stops root generation) : stop.now + grace.nanoseconds ≤ o.now := by
  obtain ⟨past, hpast, harms, hgraced⟩ := timely.graced root generation expires
  have hfirst := run.lapses.first stop hstop past hpast root generation stops harms
  omega

/-! ## Whole runs -/

/-- A session that is not replaced stays while its grace is not over. -/
theorem stays {before between : List (Occasion σ)} {stop : Occasion σ} {root : Name}
    {generation : Nat} (stops : stop.Stops root generation) {session : Session}
    (found : stop.result.manager.sessions.get? root = some session)
    (unreplaced : ∀ o ∈ between, ∀ parameter, o.message ≠ .start root parameter)
    (early : ∀ o ∈ between, o.now < stop.now + grace.nanoseconds)
    (run : Run (Timely grace) (before ++ stop :: between) m) :
    ∃ expiry, m.sessions.get? root = some { session with phase := .stopped expiry } := by
  obtain ⟨_, _, expiry, hfound, rfl, hstopped⟩ := id stops
  obtain rfl := Option.some.inj (found.symm.trans hfound)
  induction between using List.reverseRecOn generalizing m with
  | nil =>
    obtain ⟨_, _, _, rfl⟩ := run.of_snoc
    refine ⟨expiry, found.trans ?_⟩
    rw [← hstopped]
  | append_singleton between o ih =>
    rw [← List.cons_append, ← List.append_assoc] at run
    obtain ⟨hrun, htimely, going, rfl⟩ := run.of_snoc
    obtain ⟨ticket, hstays⟩ := ih
      (fun past hpast => unreplaced past (List.mem_append_left _ hpast))
      (fun past hpast => early past (List.mem_append_left _ hpast)) hrun
    have hmove := o.manager.move_handle o.now o.repo o.message going
    have hlast : o ∈ between ++ [o] := List.mem_append_right _ List.mem_cons_self
    rcases Manager.stopped_of_move hmove hstays rfl with hkept | ⟨parameter, hstart⟩ | hexpire
    · exact hkept
    · exact absurd hstart (unreplaced o hlast parameter)
    · have hover := hrun.graced_of_expire htimely hexpire
        (List.mem_append_right _ List.mem_cons_self) stops
      exact absurd (early o hlast) (Nat.not_lt.2 hover)

/-- A session leaves the table when another is started in its place, or when it is stopped and a
timer of its own goes off, the grace being over since it stopped. So a check that comes before,
unless another session was started, reports that it is stopped, and the count with which it
stopped. -/
theorem stopped_session_is_remembered (run : Run (Timely grace) log m) :
    (∀ (o : Occasion σ) (root : Name) (session : Session), o.manager = m →
      Timely grace log o → m.sessions.get? root = some session →
      (∀ later, o.result.manager.sessions.get? root = some later →
        later.generation ≠ session.generation) →
      (∃ parameter, o.message = .start root parameter) ∨
        o.message = .expire root session.generation ∧
        (∃ expiry, session.phase = .stopped expiry) ∧
        (∃ stop ∈ log, stop.Stops root session.generation) ∧
        ∀ stop ∈ log, stop.Stops root session.generation →
          stop.now + grace.nanoseconds ≤ o.now) ∧
    ∀ (before between : List (Occasion σ)) (stop : Occasion σ) (root : Name) (generation : Nat)
      (session : Session), log = before ++ stop :: between → stop.Stops root generation →
      stop.result.manager.sessions.get? root = some session →
      (∀ o ∈ between, ∀ parameter, o.message ≠ .start root parameter) →
      ∀ check : Occasion σ, check.manager = m → check.message = .check root →
        Timely grace log check → check.now < stop.now + grace.nanoseconds →
        check.result.reply = some ⟨101, session.stored⟩ := by
  constructor
  · rintro o root session rfl timely found gone
    by_cases going : o.result.failure = none
    · have hmove := o.manager.move_handle o.now o.repo o.message going
      rcases Manager.message_of_leaving hmove found gone with hstart | ⟨hexpire, expiry, hstopped⟩
      · exact Or.inl hstart
      · exact Or.inr ⟨hexpire, ⟨expiry, hstopped⟩,
          run.lapses.stopped root session expiry found hstopped,
          fun stop hstop stops => run.graced_of_expire timely hexpire hstop stops⟩
    · have hsame := o.manager.manager_of_failure o.now o.repo o.message going
      rw [Occasion.result, hsame] at gone
      exact absurd rfl (gone session found)
  · rintro before between stop root generation session rfl stops found unreplaced check rfl asks
      timely early
    have hearly : ∀ o ∈ between, o.now < stop.now + grace.nanoseconds := fun o ho =>
      Nat.lt_of_le_of_lt (timely.ordered o (List.mem_append_right _ (List.mem_cons_of_mem _ ho)))
        early
    obtain ⟨expiry, hstays⟩ := run.stays stops found unreplaced hearly
    have hreport := Manager.report_eq hstays rfl
    rw [Occasion.result, asks]
    exact congrArg some hreport

/-- A session that is stopped twice is remembered when the timer of an earlier session goes off, and
forgotten when one of its own does. -/
theorem stopped_session_is_remembered_of_restart :
    let repo : Repo Store.MemoryStore := .ofBackend (.empty 1)
    let start : Message := .start .empty (.ofName .empty)
    let begun : Occasion Store.MemoryStore := ⟨.empty, 0, repo, start⟩
    let ended : Occasion Store.MemoryStore := ⟨begun.result.manager, 1, repo, .stop .empty⟩
    let restarted : Occasion Store.MemoryStore := ⟨ended.result.manager, 2, repo, start⟩
    let stopped : Occasion Store.MemoryStore := ⟨restarted.result.manager, 3, repo, .stop .empty⟩
    let again : Occasion Store.MemoryStore := ⟨stopped.result.manager, 9, repo, .stop .empty⟩
    let old : Occasion Store.MemoryStore := ⟨again.result.manager, 11, repo, .expire .empty 1⟩
    let check : Occasion Store.MemoryStore := ⟨old.result.manager, 12, repo, .check .empty⟩
    let last : Occasion Store.MemoryStore := ⟨old.result.manager, 19, repo, .expire .empty 2⟩
    stopped.Stops .empty 2 ∧ check.result.reply = some ⟨101, 0⟩ ∧
      last.result.manager.sessions.get? .empty = none ∧ stopped.now + 10 ≤ last.now := by
  intro repo start begun ended restarted stopped again old check last
  have hbegun : Timely ⟨10⟩ [] begun := ⟨nofun, nofun⟩
  have hended : Timely ⟨10⟩ [begun] ended := ⟨by simp [begun], nofun⟩
  have hrestarted : Timely ⟨10⟩ [begun, ended] restarted :=
    ⟨by simp [begun, ended, restarted], nofun⟩
  have hstopped : Timely ⟨10⟩ [begun, ended, restarted] stopped :=
    ⟨by simp [begun, ended, restarted, stopped], nofun⟩
  have hagain : Timely ⟨10⟩ [begun, ended, restarted, stopped] again :=
    ⟨by simp [begun, ended, restarted, stopped, again], nofun⟩
  have hold : Timely ⟨10⟩ [begun, ended, restarted, stopped, again] old := by
    refine ⟨by simp [begun, ended, restarted, stopped, again, old], ?_⟩
    rintro root generation ⟨⟩
    exact ⟨ended, by simp, ⟨1, by decide⟩, by decide⟩
  have hcheck : Timely ⟨10⟩ [begun, ended, restarted, stopped, again, old] check :=
    ⟨by simp [begun, ended, restarted, stopped, again, old, check], nofun⟩
  have hlast : Timely ⟨10⟩ [begun, ended, restarted, stopped, again, old] last := by
    refine ⟨by simp [begun, ended, restarted, stopped, again, old, last], ?_⟩
    rintro root generation ⟨⟩
    exact ⟨again, by simp, ⟨3, by decide⟩, by decide⟩
  have run : Run (Timely ⟨10⟩) [begun, ended, restarted, stopped, again, old] old.result.manager :=
    (((((Run.fresh.turn hbegun rfl).turn hended rfl).turn hrestarted rfl).turn hstopped rfl).turn
      hagain rfl).turn hold rfl
  have hstops : stopped.Stops .empty 2 := ⟨by decide, ⟨2, 0, .stopped 2⟩, 2, rfl, rfl, rfl⟩
  obtain ⟨hleaves, hreports⟩ := stopped_session_is_remembered run
  refine ⟨hstops, ?_, rfl, ?_⟩
  · exact hreports [begun, ended, restarted] [again, old] stopped .empty 2 ⟨2, 0, .stopped 2⟩ rfl
      hstops rfl (by simp [again, old]) check rfl rfl hcheck (by decide)
  · obtain ⟨_, ⟨⟩⟩ | ⟨_, _, _, hover⟩ :=
      hleaves last .empty ⟨2, 0, .stopped 3⟩ rfl hlast rfl nofun
    exact hover stopped (by simp) hstops

end Run

end NamedData.Sync
