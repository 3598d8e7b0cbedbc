import NamedData.Proofs.Sync.Budget
import NamedData.Proofs.Sync.Failure
import NamedData.Proofs.Sync.Grace
import NamedData.Proofs.Sync.Ingest
/-!
# What a timeout is counted from

The period of a session starts when the session does, and again with every report that names
something missing to it. What comes of its requests starts no new one, so however many of them are
made again, the first outcome after the period stops the session. Only an outcome does: a session
that waits for nothing can outlast its period and go on with the next report.

    o.Renews root g → after o the last report of g is at o.now, else where it was
                                                                      (lastReport_of_turn)
    Run Later log m → m runs g → the last report of g is the latest in log          (latest)
    g runs, its time is up, an outcome comes → g stops                      (stops_of_timedOut)
-/

namespace NamedData.Sync

/-! ## One turn -/

namespace Manager

variable {σ : Type} [Store.Backend σ] {m : Manager} {root : Name} {generation : Nat}
  {session : Session} {progress : Progress}

/-- Whatever comes of a request, the session goes on or stops as its limits say. -/
theorem handle_outcome (now : Nat) (repo : Repo σ) (name : Name) (outcome : Outcome)
    (runs : m.sessions.running? root generation = some (session, progress))
    (going : (m.handle now repo (.fetched root generation name outcome)).failure = none) :
    ∃ stored after,
      let went := m.proceed now root { session with stored } progress name
      m.handle now repo (.fetched root generation name outcome) =
        ⟨went.1, after, none, went.2, none⟩ := by
  cases outcome with
  | valid data =>
    obtain ⟨_, after, _, hhandle⟩ := handle_valid now repo name data runs going
    exact ⟨session.stored + 1, after, hhandle⟩
  | invalid cause =>
    refine ⟨session.stored, repo, ?_⟩
    simp only [handle, conclude, runs]
  | failed cause =>
    refine ⟨session.stored, repo, ?_⟩
    simp only [handle, conclude, runs]

theorem proceed_of_timedOut {now : Nat} (late : progress.timedOut now = true) (session : Session)
    (name : Name) : m.proceed now root session progress name = m.halt root session := by
  rw [proceed, late, Bool.true_or, if_pos rfl]

theorem proceed_of_not_timedOut {now : Nat} (early : progress.timedOut now = false)
    (unspent : progress.spent = false) (session : Session) (name : Name) :
    m.proceed now root session progress name =
      (m.resume root session { progress with issued := progress.issued + 1 },
        [.fetch root session.generation (progress.request name)]) := by
  rw [proceed, early, unspent]
  rfl

end Manager

namespace Occasion

variable {σ : Type} {root : Name} {generation : Nat} {o : Occasion σ}

/-- Whether a turn comes no earlier than those of a log. -/
def Later (log : List (Occasion σ)) (o : Occasion σ) : Prop := ∀ past ∈ log, past.now ≤ o.now

/-- Whether the period of a session starts with a turn: it starts the session, or is on a report of
something missing to it. -/
def Renews (root : Name) (generation : Nat) (o : Occasion σ) : Prop :=
  o.given? = some (root, generation) ∨
    ∃ ranges, o.message = .missing root generation ranges ∧ ranges.flatMap Range.names ≠ []

variable [Store.Backend σ]

/-- What is asked for on no report is asked for again. -/
theorem fetched_of_fetch {interest : Interest}
    (sent : Effect.fetch root generation interest ∈ o.result.effects)
    (unreported : ∀ ranges, o.message ≠ .missing root generation ranges) :
    ∃ name outcome, o.message = .fetched root generation name outcome := by
  have hrequest : ⟨root, generation, interest.name⟩ ∈ o.result.effects.filterMap Effect.request? :=
    List.mem_filterMap.2 ⟨_, sent, rfl⟩
  have hsends : o.manager.Sends o.message (o.result.effects.filterMap Effect.request?) :=
    o.manager.sends_handle o.now o.repo o.message
  generalize o.result.effects.filterMap Effect.request? = requests at hsends hrequest
  generalize o.message = message at hsends unreported ⊢
  cases hsends with
  | nothing => cases hrequest
  | report ranges _ =>
    obtain ⟨name, _, hname⟩ := List.mem_map.1 hrequest
    cases hname
    exact absurd rfl (unreported ranges)
  | retry name outcome _ _ =>
    cases List.mem_singleton.1 hrequest
    exact ⟨_, outcome, rfl⟩

/-- An outcome that is not refused when the time is up stops the session, and one that is refused
leads to no request either. -/
theorem stops_of_timedOut {name : Name} {outcome : Outcome}
    (ends : o.message = .fetched root generation name outcome) {session : Session}
    {progress : Progress}
    (runs : o.manager.sessions.running? root generation = some (session, progress))
    (late : progress.timedOut o.now = true) :
    o.result.effects.filterMap Effect.request? = [] ∧
      (o.result.failure = none → o.Stops root generation) := by
  obtain rfl := (Sessions.running?_eq_some_iff.1 runs).2.2
  cases going : o.result.failure with
  | some cause =>
    obtain ⟨_, _, _, _, _, _, _, hresult⟩ := Manager.handle_of_failure going
    rw [result, hresult]
    exact ⟨Manager.requests_releaseAll _, by rintro ⟨⟩⟩
  | none =>
    rw [result, ends] at going
    obtain ⟨stored, after, hresult⟩ := Manager.handle_outcome _ _ _ _ runs going
    rw [← ends, Manager.proceed_of_timedOut late] at hresult
    refine ⟨?_, fun _ => ⟨runs ▸ Option.some_ne_none _, ?_⟩⟩
    · rw [result, hresult, Manager.requests_halt]
    · rw [result, hresult]
      exact ⟨_, _, Sessions.get?_put_self _ _ _, rfl, rfl⟩

/-- An outcome that is not refused while there is time is asked for again, if the session may send
more. -/
theorem fetch_of_not_timedOut {name : Name} {outcome : Outcome}
    (ends : o.message = .fetched root generation name outcome) {session : Session}
    {progress : Progress}
    (runs : o.manager.sessions.running? root generation = some (session, progress))
    (early : progress.timedOut o.now = false) (unspent : progress.spent = false)
    (going : o.result.failure = none) :
    Effect.fetch root generation (progress.request name) ∈ o.result.effects := by
  obtain rfl := (Sessions.running?_eq_some_iff.1 runs).2.2
  rw [result, ends] at going
  obtain ⟨stored, after, hresult⟩ := Manager.handle_outcome _ _ _ _ runs going
  rw [← ends, Manager.proceed_of_not_timedOut early unspent] at hresult
  rw [result, hresult]
  exact List.mem_cons_self

/-- A report is the last of a session that runs if it names something. -/
theorem lastReport_of_report {ranges : List Range}
    (reports : o.message = .missing root generation ranges) {session : Session}
    {progress : Progress}
    (runs : o.result.manager.sessions.running? root generation = some (session, progress)) :
    ∃ before was, o.manager.sessions.running? root generation = some (before, was) ∧
      progress.lastReport =
        if (ranges.flatMap Range.names).isEmpty then was.lastReport else o.now := by
  rw [result, reports, Manager.handle, Manager.pursue] at runs
  cases hran : o.manager.sessions.running? root generation with
  | none =>
    rw [hran] at runs
    exact absurd (runs.symm.trans hran) (Option.some_ne_none _)
  | some found =>
    obtain ⟨before, was⟩ := found
    rw [hran] at runs
    obtain ⟨_, hfound⟩ := Manager.eq_of_running?_resume hran runs
    cases hfound
    exact ⟨before, was, rfl, rfl⟩

/-- After a turn a session that runs has had its last report then, or when it had it before. -/
theorem lastReport_of_turn (going : o.result.failure = none) {session : Session}
    {progress : Progress}
    (runs : o.result.manager.sessions.running? root generation = some (session, progress)) :
    o.Renews root generation ∧ progress.lastReport = o.now ∨
      ¬o.Renews root generation ∧ ∃ before was,
        o.manager.sessions.running? root generation = some (before, was) ∧
          was.lastReport = progress.lastReport := by
  by_cases starts : ∃ parameter, o.message = .start root parameter
  · left
    obtain ⟨parameter, hstart⟩ := id starts
    rw [result, hstart, Manager.handle, Manager.begin,
      Sessions.running?_put_running _ _ rfl] at runs
    split at runs
    · next hgeneration =>
      cases runs
      exact ⟨Or.inl (given?_eq_some_iff.2 ⟨starts, hgeneration⟩), rfl⟩
    · cases runs
  by_cases reports : ∃ ranges, o.message = .missing root generation ranges
  · obtain ⟨ranges, hreport⟩ := reports
    obtain ⟨before, was, hran, hlast⟩ := lastReport_of_report hreport runs
    cases hnames : (ranges.flatMap Range.names).isEmpty with
    | false =>
      rw [hnames] at hlast
      exact Or.inl ⟨Or.inr ⟨ranges, hreport, by simpa using hnames⟩, hlast⟩
    | true =>
      rw [hnames] at hlast
      refine Or.inr ⟨?_, before, was, hran, hlast.symm⟩
      rintro (hgiven | ⟨others, hothers, hne⟩)
      · exact starts (given?_eq_some_iff.1 hgiven).1
      · obtain rfl : ranges = others := by
          cases hreport.symm.trans hothers
          rfl
        exact hne (List.isEmpty_iff.1 hnames)
  · right
    have hmove := o.manager.move_handle o.now o.repo o.message going
    rcases Manager.progress_of_move hmove runs with
      ⟨before, was, hran, _, hlast⟩ | ⟨parameter, hstart, _⟩
    · refine ⟨?_, before, was, hran, hlast (not_exists.1 reports)⟩
      rintro (hgiven | ⟨ranges, hreport, _⟩)
      · exact starts (given?_eq_some_iff.1 hgiven).1
      · exact reports ⟨ranges, hreport⟩
    · exact absurd ⟨parameter, hstart⟩ starts

end Occasion

/-! ## Whole runs -/

/-- Whether a point in time is that of the last turn in a log with which the period of a session
starts. -/
structure Latest {σ : Type} (root : Name) (generation : Nat) (log : List (Occasion σ))
    (since : Nat) : Prop where
  attained : ∃ o ∈ log, o.Renews root generation ∧ o.now = since
  latest : ∀ o ∈ log, o.Renews root generation → o.now ≤ since

namespace Latest

variable {σ : Type} {root : Name} {generation since : Nat} {log quiet : List (Occasion σ)}
  {o : Occasion σ}

theorem renew (later : Occasion.Later log o) (renews : o.Renews root generation) :
    Latest root generation (log ++ [o]) o.now := by
  refine ⟨⟨o, List.mem_append_right _ List.mem_cons_self, renews, rfl⟩, fun past hpast _ => ?_⟩
  rcases List.mem_append.1 hpast with hold | hlast
  · exact later past hold
  · rw [List.mem_singleton.1 hlast]

/-- Turns that start no period have no part in it. -/
theorem append_iff (unrenewed : ∀ o ∈ quiet, ¬o.Renews root generation) :
    Latest root generation (log ++ quiet) since ↔ Latest root generation log since := by
  have hmem : ∀ o, o.Renews root generation → (o ∈ log ++ quiet ↔ o ∈ log) := fun o renews =>
    List.mem_append.trans (or_iff_left fun hquiet => unrenewed o hquiet renews)
  constructor
  · rintro ⟨⟨o, ho, renews, hnow⟩, latest⟩
    exact ⟨⟨o, (hmem o renews).1 ho, renews, hnow⟩,
      fun past hpast hrenews => latest past ((hmem past hrenews).2 hpast) hrenews⟩
  · rintro ⟨⟨o, ho, renews, hnow⟩, latest⟩
    exact ⟨⟨o, (hmem o renews).2 ho, renews, hnow⟩,
      fun past hpast hrenews => latest past ((hmem past hrenews).1 hpast) hrenews⟩

end Latest

namespace Run

open Occasion

variable {σ : Type} [Store.Backend σ] {log : List (Occasion σ)} {m : Manager} {root : Name}
  {generation : Nat}

/-- What a session takes for its last report is the last in the log. -/
theorem latest (run : Run Later log m) {session : Session} {progress : Progress}
    (runs : m.sessions.running? root generation = some (session, progress)) :
    Latest root generation log progress.lastReport := by
  induction run generalizing session progress with
  | fresh => cases runs
  | turn before later going ih =>
    rcases lastReport_of_turn going runs with ⟨renews, hlast⟩ | ⟨unrenewed, _, was, hran, hlast⟩
    · exact hlast ▸ .renew later renews
    · exact (Latest.append_iff (by simpa using unrenewed)).2 (hlast ▸ ih hran)

/-- A session runs under the limits of the command that started it. -/
theorem limits_of_start {allowed : List (Occasion σ) → Occasion σ → Prop}
    (run : Run allowed log m) {begun : Occasion σ} (hbegun : begun ∈ log)
    {parameter : Command.Parameter} (starts : begun.message = .start root parameter)
    {session : Session} {progress : Progress} (runs : m.sessions.running? root
      begun.manager.nextGeneration = some (session, progress)) :
    progress.limits = .ofParameter parameter := by
  induction run generalizing session progress with
  | fresh => cases hbegun
  | @turn log o before _ going ih =>
    have hmove := o.manager.move_handle o.now o.repo o.message going
    rcases Manager.progress_of_move hmove runs with
      ⟨_, was, hran, hsame, _⟩ | ⟨_, hstart, hnew, hlimits⟩
    · rcases List.mem_append.1 hbegun with hold | hlast
      · exact hsame ▸ ih hold hran
      · -- it did not run before it was started
        obtain rfl := List.mem_singleton.1 hlast
        have hbelow := before.numbered.below_of_runs (hran ▸ Option.some_ne_none _)
        exact absurd hbelow (Nat.lt_irrefl _)
    · rcases List.mem_append.1 hbegun with hold | hlast
      · -- its number was used up when it was started
        have hgiven : begun.given? = some (root, begun.manager.nextGeneration) :=
          given?_eq_some_iff.2 ⟨⟨parameter, starts⟩, rfl⟩
        have hbelow := before.accounts.below _ (List.mem_filterMap.2 ⟨begun, hold, hgiven⟩)
        exact absurd hnew (Nat.ne_of_lt hbelow)
      · obtain rfl := List.mem_singleton.1 hlast
        cases starts.symm.trans hstart
        exact hlimits

/-- The period of a session that has a timeout is counted from the last turn with which one starts:
its start, or a report of something missing. Whatever has come in since, a request is made again
only within the period, and the first outcome of a request after it stops the session, unless the
repository refuses the packet. Within the period an outcome stops no session but one whose requests
are bounded. -/
theorem timeout_counts_from_last_report {quiet : List (Occasion σ)}
    (run : Run Later (log ++ quiet) m) {begun : Occasion σ} (hbegun : begun ∈ log)
    {parameter : Command.Parameter} (starts : begun.message = .start root parameter)
    (bounded : (Limits.ofParameter parameter).timeout ≠ .zero)
    (unrenewed : ∀ o ∈ quiet, ¬o.Renews root begun.manager.nextGeneration)
    (runs : m.sessions.running? root begun.manager.nextGeneration ≠ none) :
    ∃ since, Latest root begun.manager.nextGeneration log since ∧
      ∀ o : Occasion σ, o.manager = m →
        (∀ interest,
          (∀ ranges, o.message ≠ .missing root begun.manager.nextGeneration ranges) →
          Effect.fetch root begun.manager.nextGeneration interest ∈ o.result.effects →
          o.now ≤ since + (Limits.ofParameter parameter).timeout.nanoseconds) ∧
        ∀ name outcome, o.message = .fetched root begun.manager.nextGeneration name outcome →
          (∀ cause, ¬o.Refused cause) →
          (since + (Limits.ofParameter parameter).timeout.nanoseconds < o.now →
            o.Stops root begun.manager.nextGeneration) ∧
          (o.now ≤ since + (Limits.ofParameter parameter).timeout.nanoseconds →
            (Limits.ofParameter parameter).budget = 0 → ∃ interest, interest.name = name ∧
              Effect.fetch root begun.manager.nextGeneration interest ∈ o.result.effects) := by
  obtain ⟨⟨session, progress⟩, hruns⟩ := Option.ne_none_iff_exists'.1 runs
  have hlimits := run.limits_of_start (List.mem_append_left quiet hbegun) starts hruns
  rw [← hlimits] at bounded ⊢
  refine ⟨progress.lastReport, (Latest.append_iff unrenewed).1 (run.latest hruns), ?_⟩
  rintro o rfl
  have hlate : progress.timedOut o.now = true ↔
      progress.lastReport + progress.limits.timeout.nanoseconds < o.now :=
    Progress.timedOut_eq_true_iff.trans (and_iff_right bounded)
  constructor
  · intro interest unreported sent
    obtain ⟨name, outcome, hends⟩ := fetched_of_fetch sent unreported
    refine Nat.le_of_not_lt fun late => ?_
    have hnone := List.filterMap_eq_nil_iff.1 (stops_of_timedOut hends hruns (hlate.2 late)).1
    exact absurd (hnone _ sent) (Option.some_ne_none _)
  · intro name outcome hends unrefused
    have going : o.result.failure = none := by
      rw [Option.eq_none_iff_forall_ne_some]
      exact fun cause failed => unrefused cause (failure_eq_some_iff.1 failed)
    refine ⟨fun late => (stops_of_timedOut hends hruns (hlate.2 late)).2 going, ?_⟩
    intro early unbounded
    have hearly : progress.timedOut o.now = false :=
      Bool.eq_false_iff.2 (mt hlate.1 (Nat.not_lt.2 early))
    have hunspent : progress.spent = false := by simp [Progress.spent, unbounded]
    exact ⟨progress.request name, rfl, fetch_of_not_timedOut hends hruns hearly hunspent going⟩

/-- With a timeout of ten, a session that was started at zero and had a report at five asks again at
fourteen, and stops at sixteen: neither that nor an empty report has given it more time. -/
theorem timeout_counts_from_last_report_of_retry :
    let repo : Repo Store.MemoryStore := .ofBackend (.empty 1)
    let parameter : Command.Parameter :=
      { Command.Parameter.ofName .empty with syncTimeout := some ⟨10⟩ }
    let failed : Message := .fetched .empty 1 (Name.empty.pushNumber 1) (.failed .timeout)
    let begun : Occasion Store.MemoryStore := ⟨.empty, 0, repo, .start .empty parameter⟩
    let report : Occasion Store.MemoryStore :=
      ⟨begun.result.manager, 5, repo, .missing .empty 1 [⟨.empty, 1, 1⟩]⟩
    let retry : Occasion Store.MemoryStore := ⟨report.result.manager, 14, repo, failed⟩
    let silent : Occasion Store.MemoryStore :=
      ⟨retry.result.manager, 15, repo, .missing .empty 1 []⟩
    let last : Occasion Store.MemoryStore := ⟨silent.result.manager, 16, repo, failed⟩
    (∃ interest, interest.name = Name.empty.pushNumber 1 ∧
        Effect.fetch .empty 1 interest ∈ retry.result.effects) ∧ last.Stops .empty 1 := by
  intro repo parameter failed begun report retry silent last
  have hbegun : Later [] begun := nofun
  have hreport : Later [begun] report := by simp [Later, begun, report]
  have hretry : Later [begun, report] retry := by simp [Later, begun, report, retry]
  have hsilent : Later [begun, report, retry] silent := by
    simp [Later, begun, report, retry, silent]
  have earlier : Run Later ([begun, report] ++ []) report.result.manager :=
    (Run.fresh.turn hbegun rfl).turn hreport rfl
  have run : Run Later ([begun, report] ++ [retry, silent]) silent.result.manager :=
    (earlier.turn hretry rfl).turn hsilent rfl
  have hquiet : ∀ o ∈ [retry, silent], ¬o.Renews .empty 1 := by
    intro o ho
    simp only [List.mem_cons, List.not_mem_nil, or_false] at ho
    rcases ho with rfl | rfl
    · rintro (⟨⟨⟩⟩ | ⟨_, ⟨⟩, _⟩)
    · rintro (⟨⟨⟩⟩ | ⟨_, ⟨⟩, hne⟩)
      exact hne rfl
  have hstarts : begun.message = .start .empty parameter := rfl
  have hrenews : report.Renews .empty 1 := Or.inr ⟨_, rfl, by decide⟩
  have hunrefused : ∀ (o : Occasion Store.MemoryStore) cause, o.message = failed →
      ¬o.Refused cause := by
    rintro o cause hfailed ⟨_, _, _, _, hvalid, _⟩
    exact absurd (hfailed.symm.trans hvalid) (by simp [failed])
  constructor
  · obtain ⟨since, ⟨_, hlatest⟩, hnext⟩ := earlier.timeout_counts_from_last_report
      List.mem_cons_self hstarts nofun nofun (by decide)
    have hsince : 5 ≤ since := hlatest report (by simp) hrenews
    have hearly : 14 ≤ since + 10 := by omega
    exact ((hnext retry rfl).2 _ _ rfl fun cause => hunrefused retry cause rfl).2 hearly rfl
  · obtain ⟨since, ⟨⟨o, ho, _, hsince⟩, _⟩, hnext⟩ := run.timeout_counts_from_last_report
      List.mem_cons_self hstarts nofun hquiet (by decide)
    have hlate : since + 10 < 16 := by
      simp only [List.mem_cons, List.not_mem_nil, or_false] at ho
      rcases ho with rfl | rfl <;> (rw [← hsince]; decide)
    exact ((hnext last rfl).2 _ _ rfl fun cause => hunrefused last cause rfl).1 hlate

end Run

end NamedData.Sync
