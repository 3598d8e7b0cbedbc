import NamedData.Proofs.Sync.Bookkeeping
/-!
# How a manager fails

There is one way for a manager to fail: a session that runs has fetched a valid packet, and the
repository refuses it for another reason than that it has it. A manager that has failed has no turn
any more. Nothing is left that could bring it one, and commands are turned away.

    the repository refuses a packet ↔ repo.Rejects data cause                (insert_eq_error_iff)
    a turn fails ↔ it is on a packet that is refused                         (failure_eq_some_iff)
    Tells log n.life → a step of n to t → Tells (log ++ its turns) t.life             (Tells.step)
    n is no more → n runs to t → there was no turn                         (Kept.dead_of_reaches)
-/

namespace NamedData

open Store

/-! ## What a repository refuses -/

namespace Repo

variable {σ : Type} [Backend σ]

/-- Whether a repository refuses a packet, and not because it has it: the store cannot be asked, or
does not take it for another reason than that its full name is taken. -/
inductive Rejects (repo : Repo σ) (data : Data) : Error → Prop where
  | unasked {cause : Store.Error} : Backend.has repo.backend data.fullName = .error cause →
    Rejects repo data (.storage cause)
  | untaken {cause : Store.Error} : Backend.has repo.backend data.fullName = .ok false →
    (Backend.insert repo.backend data).1 = .error cause →
    (∀ name, cause ≠ .duplicateName name) → Rejects repo data (.insert data.fullName cause)

theorem insert_eq_error_iff {repo : Repo σ} {data : Data} {cause : Error} :
    (repo.insert data).1 = .error cause ↔ repo.Rejects data cause := by
  constructor
  · intro refused
    unfold insert at refused
    split at refused
    · next hhas =>
      cases refused
      exact .unasked hhas
    · cases refused
    · next hhas =>
      split at refused
      · cases refused
      · cases refused
      · next cause _ hother hinsert =>
        cases refused
        exact .untaken hhas (by rw [hinsert]) fun name hname => hother name hname
  · rintro (hhas | ⟨hhas, hinsert, hother⟩)
    · simp only [insert, hhas]
    · rcases hresult : Backend.insert repo.backend data with ⟨result, after⟩
      rw [hresult] at hinsert
      obtain rfl := hinsert
      simp only [insert, hhas, hresult]

end Repo

namespace Sync

variable {σ : Type} [Backend σ]

/-! ## Turns that the manager does not survive -/

/-- Whether a turn is on a valid packet, fetched by a session that runs, which the repository
refuses. -/
def Occasion.Refused (o : Occasion σ) (cause : Repo.Error) : Prop :=
  ∃ root generation name data, o.message = .fetched root generation name (.valid data) ∧
    o.manager.sessions.running? root generation ≠ none ∧ o.repo.Rejects data cause

theorem Occasion.failure_eq_some_iff {o : Occasion σ} {cause : Repo.Error} :
    o.result.failure = some cause ↔ o.Refused cause := by
  constructor
  · intro failed
    obtain ⟨root, generation, name, data, hmessage, hruns, hrefused, _⟩ :=
      Manager.handle_of_failure failed
    exact ⟨root, generation, name, data, hmessage, hruns, Repo.insert_eq_error_iff.1 hrefused⟩
  · rintro ⟨root, generation, name, data, hmessage, hruns, hrejects⟩
    have hrefused := Repo.insert_eq_error_iff.2 hrejects
    obtain ⟨⟨session, progress⟩, hrunning⟩ := Option.ne_none_iff_exists'.1 hruns
    rcases hinsert : o.repo.insert data with ⟨result, after⟩
    rw [hinsert] at hrefused
    obtain rfl := hrefused
    simp only [Occasion.result, hmessage, Manager.handle, Manager.conclude, hrunning, hinsert]

namespace Node

variable {node next : Node σ} {log turns : List (Occasion σ)}

theorem life_turn (node : Node σ) (message : Message) :
    (node.turn message).2.life =
      match (node.occasion message).result.failure with
      | none => node.life
      | some cause => .failed cause := by
  cases failed : (node.occasion message).result.failure with
  | none =>
    obtain ⟨_, _, _, hdone⟩ := node.done_eq message
    rw [turn_of_going failed, hdone]
  | some cause => rw [turn_of_failure failed]

/-- Whether the life of a manager is told by its log: it has failed on the last turn, or survived
every turn. -/
def Tells (log : List (Occasion σ)) : Life → Prop
  | .failed cause => ∃ before last, log = before ++ [last] ∧ last.result.failure = some cause ∧
      ∀ o ∈ before, o.result.failure = none
  | _ => ∀ o ∈ log, o.result.failure = none

/-- A turn of a manager at work is told by its log. -/
theorem Tells.turn (node : Node σ) (tells : Tells log node.life) (live : node.life = .running)
    (message : Message) :
    Tells (log ++ [node.occasion message]) (node.turn message).2.life := by
  rw [live] at tells
  rw [life_turn]
  split
  · next going =>
    rw [live]
    intro o ho
    rcases List.mem_append.1 ho with hold | hlast
    · exact tells o hold
    · rw [List.mem_singleton.1 hlast, going]
  · next cause failed => exact ⟨log, _, rfl, failed, tells⟩

theorem Tells.close (tells : Tells log node.life) : Tells log node.close.life := by
  simp only [Node.close]
  cases hlife : node.life <;> rw [hlife] at tells <;> exact tells

theorem Tells.step (tells : Tells log node.life) (kept : Kept log node)
    (step : Step node turns next) : Tells (log ++ turns) next.life := by
  cases step with
  | @handle message rest waits =>
    exact Tells.turn { node with queue := rest } tells (kept.live_of_queue waits) message
  | command verb root parameter live => exact Tells.turn node tells live _
  | close => exact (List.append_nil log).symm ▸ tells.close
  | _ =>
    rw [List.append_nil]
    exact tells

/-- What a node does when its manager is no more: it has no turn, and the repository and the life
are as they were. -/
theorem Step.of_bare (step : Step node turns next) (bare : node.Bare)
    (dead : node.life ≠ .running) :
    turns = [] ∧ next.repo = node.repo ∧ next.life = node.life := by
  cases step with
  | handle waits => exact absurd (bare.queue.symm.trans waits) nofun
  | command verb root parameter live => exact absurd live dead
  | answer root generation name outcome live => exact absurd live dead
  | close =>
    obtain ⟨_, hrepo, _, hlife⟩ := node.close_eq
    exact ⟨rfl, hrepo, hlife dead⟩
  | _ => exact ⟨rfl, rfl, rfl⟩

theorem Tells.reaches {setting : Setting} {now : Nat} {network : Network} {repo : Repo σ}
    (unsubscribed : network.subscriptions.live = [])
    (run : Reaches (fresh setting now network repo) log node) : Tells log node.life := by
  have kept := kept_fresh setting now repo unsubscribed
  induction run with
  | refl => exact fun _ => nofun
  | step run step ih => exact ih.step (kept.reaches run) step
  | meanwhile _ _ _ _ ih => exact ih

/-- A manager that has failed did so on the one turn of its log that it could not survive. -/
theorem Tells.failed_iff {life : Life} (tells : Tells log life) (cause : Repo.Error) :
    life = .failed cause ↔ ∃ o ∈ log, o.result.failure = some cause := by
  constructor
  · rintro rfl
    obtain ⟨before, last, rfl, failed, _⟩ := tells
    exact ⟨last, List.mem_append_right _ List.mem_cons_self, failed⟩
  · rintro ⟨o, ho, failed⟩
    cases life with
    | failed other =>
      obtain ⟨before, last, rfl, hlast, hbefore⟩ := tells
      rcases List.mem_append.1 ho with hold | hnew
      · cases failed.symm.trans (hbefore o hold)
      · rw [List.mem_singleton.1 hnew] at failed
        cases failed.symm.trans hlast
        rfl
    | _ => cases failed.symm.trans (tells o ho)

/-- A manager that is no more stays so, whatever goes on around it. -/
theorem Kept.dead_of_reaches (kept : Kept log node) (dead : node.life ≠ .running)
    {later : List (Occasion σ)} (run : Reaches node later next) :
    later = [] ∧ next.life = node.life ∧ next.Bare := by
  induction run with
  | refl => exact ⟨rfl, rfl, kept.bare dead⟩
  | step run step ih =>
    obtain ⟨rfl, hlife, hbare⟩ := ih
    obtain ⟨rfl, _, hsame⟩ := step.of_bare hbare (hlife ▸ dead)
    have hdead := hsame.trans hlife
    exact ⟨rfl, hdead, (kept.reaches (run.step step)).bare (hdead ▸ dead)⟩
  | meanwhile _ _ _ _ ih =>
    obtain ⟨rfl, hlife, hbare⟩ := ih
    exact ⟨rfl, hlife, hbare.live, hbare.queue, hbare.timers⟩

theorem command_of_dead (dead : node.life ≠ .running) (verb : Command.Verb)
    {parameter : Command.Parameter} (named : parameter.name ≠ none) :
    node.command verb parameter = (.error .channelClosed, node) := by
  obtain ⟨root, hroot⟩ := Option.ne_none_iff_exists'.1 named
  rw [node.command_of_name verb hroot, request]
  split
  · next live => exact absurd live dead
  · rfl

/-! ## Whole runs -/

/-- However a node goes on from a fresh manager, the manager fails if and only if it has a turn on a
valid packet, fetched by a session that runs, that the repository refuses other than as a duplicate.
What was fetched for a session that does not run is dropped, whatever it is and however late it
comes. A manager that has failed has no turn any more, stores nothing, and leaves every command that
names a session without a reply. -/
theorem fails_only_on_refusal {setting : Setting} {now : Nat} {network : Network} {repo : Repo σ}
    (unsubscribed : network.subscriptions.live = [])
    (run : Reaches (fresh setting now network repo) log node) :
    (∀ cause, node.life = .failed cause ↔ ∃ o ∈ log, o.Refused cause) ∧
      (∀ o ∈ log, ∀ root generation name outcome,
        o.message = .fetched root generation name outcome →
        o.manager.sessions.running? root generation = none →
        o.result = ⟨o.manager, o.repo, none, [], none⟩) ∧
      ∀ cause, node.life = .failed cause → ∀ later next, Reaches node later next →
        later = [] ∧ next.life = .failed cause ∧
        (∀ turns after, Step next turns after → turns = [] ∧ after.repo = next.repo) ∧
        ∀ verb parameter, parameter.name ≠ none →
          next.command verb parameter = (.error .channelClosed, next) := by
  have kept := (kept_fresh setting now repo unsubscribed).reaches run
  refine ⟨fun cause => ?_, ?_, ?_⟩
  · rw [(Tells.reaches unsubscribed run).failed_iff]
    exact exists_congr fun o => and_congr_right fun _ => Occasion.failure_eq_some_iff
  · intro o _ root generation name outcome fetched idle
    rw [Occasion.result, fetched]
    exact o.manager.handle_fetched_eq o.now o.repo name outcome idle
  · intro cause failed later next hnext
    have hdead : node.life ≠ .running := by
      rw [failed]
      exact nofun
    obtain ⟨hlater, hlife, hbare⟩ := kept.dead_of_reaches hdead hnext
    have hdead' := hlife ▸ hdead
    refine ⟨hlater, hlife.trans failed, ?_, fun verb _ => command_of_dead hdead' verb⟩
    intro turns after step
    obtain ⟨hturns, hrepo, _⟩ := step.of_bare hbare hdead'
    exact ⟨hturns, hrepo⟩

/-- With no room in the store a packet is dropped while the session that asked for it is forgotten,
and while another has taken its place. When that one fetches it the manager is at its end, and a
check that comes after it gets no reply. -/
theorem fails_only_on_refusal_of_full :
    let repo : Repo MemoryStore := .ofBackend (.empty 0)
    let packet := Network.publication [] .zero 1 .empty
    let late (node : Node MemoryStore) : Node MemoryStore :=
      (node.later .zero none (.fetched .empty 1 packet.name (.valid packet))).settle
    let idle := fresh ⟨.empty, .digest .empty, ⟨10⟩⟩ 0 (.empty .empty true) repo
    let started := (idle.turn (.start .empty (.ofName .empty))).2
    let forgotten := late ((started.turn (.stop .empty)).2.wait 1)
    let replaced := late (forgotten.turn (.start .empty (.ofName .empty))).2
    let node := replaced.after (.publish [] .zero 1 .empty)
    let cause : Repo.Error := .insert packet.fullName (.index (.full 0))
    (forgotten.life = .running ∧ forgotten.manager.report .empty = ⟨404, 0⟩) ∧
      (replaced.life = .running ∧ replaced.manager.report .empty = ⟨300, 0⟩) ∧
      (∃ log, Reaches idle log node ∧ ∃ o ∈ log, o.Refused cause) ∧
      node.life = .failed cause ∧
      node.command .check (.ofName .empty) = (.error .channelClosed, node) := by
  intro repo packet late idle started forgotten replaced node cause
  have hlate : ∀ {node : Node MemoryStore} {log}, Reaches idle log node → node.life = .running →
      ∃ log, Reaches idle log (late node) :=
    fun run live => (run.step (.answer .empty 1 packet.name (.valid packet) live)).settle
  have hstarted : Reaches idle _ started := .single (.command .start .empty (.ofName .empty) rfl)
  have hstopped := hstarted.step (.command .stop .empty (.ofName .empty) (by decide +kernel))
  obtain ⟨_, hwaited⟩ := (started.turn (.stop .empty)).2.reaches_after_call (.wait 1)
  obtain ⟨_, hforgotten⟩ := hlate (hstopped.trans hwaited) (by decide +kernel)
  have hlive : forgotten.life = .running := by decide +kernel
  obtain ⟨_, hreplaced⟩ := hlate
    (hforgotten.step (.command .start .empty (.ofName .empty) hlive)) (by decide +kernel)
  obtain ⟨_, hpublished⟩ := replaced.reaches_after_call (.publish [] .zero 1 .empty)
  have hrun : Reaches idle _ node := hreplaced.trans hpublished
  have hfailed : node.life = .failed cause := by decide +kernel
  obtain ⟨hends, _, hafter⟩ := fails_only_on_refusal rfl hrun
  obtain ⟨_, _, _, hcommand⟩ := hafter cause hfailed [] node .refl
  exact ⟨⟨hlive, by decide +kernel⟩, ⟨by decide +kernel, by decide +kernel⟩,
    ⟨_, hrun, (hends cause).1 hfailed⟩, hfailed, hcommand .check _ nofun⟩

end Node

end Sync

end NamedData
