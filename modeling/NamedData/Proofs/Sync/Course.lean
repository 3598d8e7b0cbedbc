import NamedData.Proofs.Sync.Command
import NamedData.Proofs.Sync.Log
/-!
# The course of a node

A node goes on in small steps: it handles the first message in its queue, or a command at once;
batches come to its subscriptions and from there into the queue; timers go off; it is closed. The
face and the validator of a node answer a request at once or on a timer; others take as long as they
like, so outcomes of requests also come of themselves, when the session that asked may be long gone.
In between time goes by, and others use the face and the repository. The log of a course has the
turns of the manager, each with what it found. All that can be asked of a node is a course of such
steps.

    one step, whatever it is                                                              (Step)
    any steps, with others at work in between                                          (Reaches)
    every call is a course                                                   (reaches_after_call)
-/

namespace NamedData.Sync

namespace Node

open Command

variable {σ : Type} [Store.Backend σ]

/-- The occasion on which a message is handled now. -/
def occasion (node : Node σ) (message : Message) : Occasion σ :=
  ⟨node.manager, node.now, node.repo, message⟩

/-- The node with the effects of a turn done, the manager still at work. -/
def done (node : Node σ) (message : Message) : Node σ :=
  (node.occasion message).result.effects.foldl perform
    { node with
      manager := (node.occasion message).result.manager
      repo := (node.occasion message).result.repo }

/-- The timers of a tick go off. -/
def strike (node : Node σ) (due : Nat) : Node σ :=
  { node with
    now := due
    timers := (node.timers.partition fun timer => timer.due = due).2
    queue := node.queue ++ (node.timers.partition fun timer => timer.due = due).1.map
      Timer.message }

theorem turn_of_going {node : Node σ} {message : Message}
    (going : (node.occasion message).result.failure = none) :
    (node.turn message).2 = node.done message := by
  unfold turn
  simp only
  split
  · rfl
  · next cause failed => exact absurd (going.symm.trans failed) nofun

theorem turn_of_failure {node : Node σ} {message : Message} {cause : Repo.Error}
    (failed : (node.occasion message).result.failure = some cause) :
    (node.turn message).2 =
      { node.done message with life := .failed cause, queue := [], timers := [] } := by
  unfold turn
  simp only
  split
  · next going => exact absurd (going.symm.trans failed) nofun
  · next other found =>
    cases found.symm.trans failed
    rfl

/-! ## Steps -/

/-- What a node does in one step, with the turn of the manager if there is one. -/
inductive Step (node : Node σ) : List (Occasion σ) → Node σ → Prop where
  | handle {message : Message} {rest : List Message} : node.queue = message :: rest →
    Step node [node.occasion message] (({ node with queue := rest }).turn message).2
  /-- A command does not wait in the queue. -/
  | command (verb : Verb) (root : Name) (parameter : Parameter) : node.life = .running →
    Step node [node.occasion (verb.message root parameter)]
      (node.turn (verb.message root parameter)).2
  /-- What comes of a request comes at any time, whatever has become of the session since. -/
  | answer (root : Name) (generation : Nat) (name : Name) (outcome : Outcome) :
    node.life = .running →
    Step node [] (node.later .zero none (.fetched root generation name outcome))
  | report (root : Name) (batch : List Range) :
    Step node [] { node with network := (node.network.report root batch).2 }
  | collect : Step node [] node.collect
  | strike (due : Nat) : Step node [] (node.strike due)
  | close : Step node [] node.close

/-- What a node comes to, with the turns of the manager on the way, oldest first. Time goes by in
between, and others use the face and the repository. -/
inductive Reaches (start : Node σ) : List (Occasion σ) → Node σ → Prop where
  | refl : Reaches start [] start
  | step {log turns : List (Occasion σ)} {node next : Node σ} : Reaches start log node →
    Step node turns next → Reaches start (log ++ turns) next
  | meanwhile {log : List (Occasion σ)} {node : Node σ} (now : Nat) (face : Face)
    (repo : Repo σ) : Reaches start log node →
    Reaches start log { node with now, network.face := face, repo }

namespace Reaches

variable {start node next last : Node σ} {log later : List (Occasion σ)}

theorem trans (first : Reaches start log node) (second : Reaches node later next) :
    Reaches start (log ++ later) next := by
  induction second with
  | refl => rwa [List.append_nil]
  | step _ step ih =>
    rw [← List.append_assoc]
    exact ih.step step
  | meanwhile now face repo _ ih => exact ih.meanwhile now face repo

theorem single (step : Step start later next) : Reaches start later next := refl.step step

end Reaches

/-! ## Calls -/

/-- What can be asked of a node. -/
inductive Call where
  | report (root : Name) (batch : List Range)
  | publish (payload : Bytes) (freshness : Duration) (seq : UInt64) (producer : Name)
  | command (verb : Verb) (parameter : Parameter)
  | interest (interest : Interest)
  | wait (millis : Nat)
  | close

/-- A node after a call. -/
def after (node : Node σ) : Call → Node σ
  | .report root batch => (node.report root batch).2
  | .publish payload freshness seq producer => (node.publish payload freshness seq producer).2
  | .command verb parameter => (node.command verb parameter).2
  | .interest interest => (node.onInterest interest).2
  | .wait millis => node.wait millis
  | .close => node.close

theorem reaches_settleWithin (turns : Nat) (node : Node σ) :
    ∃ log, Reaches node log (node.settleWithin turns) := by
  induction turns generalizing node with
  | zero => exact ⟨[], .refl⟩
  | succ turns ih =>
    unfold settleWithin
    split
    · exact ⟨[], .refl⟩
    · next message rest hqueue =>
      obtain ⟨log, hlog⟩ := ih (({ node with queue := rest }).turn message).2
      exact ⟨_, (Reaches.single (.handle hqueue)).trans hlog⟩

/-- What a node comes to once it has come to rest. -/
theorem Reaches.settle {start node : Node σ} {log : List (Occasion σ)}
    (run : Reaches start log node) : ∃ log, Reaches start log node.settle := by
  obtain ⟨_, hrest⟩ := node.reaches_settleWithin patience
  exact ⟨_, run.trans hrest⟩

theorem reaches_request (node : Node σ) (verb : Verb) (root : Name) (parameter : Parameter) :
    ∃ log, Reaches node log (node.request (verb.message root parameter)).2 := by
  unfold request
  split
  · next live =>
    have hturn : Reaches node _ (node.turn (verb.message root parameter)).2 :=
      .single (.command verb root parameter live)
    split
    · next hreply => exact (hreply ▸ hturn).settle
    · next hreply => exact (hreply ▸ hturn).settle
  · exact ⟨[], .refl⟩

/-- A command that names a session is the message of its verb. -/
theorem command_of_name (node : Node σ) (verb : Verb) {parameter : Parameter} {root : Name}
    (named : parameter.name = some root) :
    node.command verb parameter = node.request (verb.message root parameter) := by
  unfold command
  rw [named]
  cases verb <;> rfl

theorem reaches_command (node : Node σ) (verb : Verb) (parameter : Parameter) :
    ∃ log, Reaches node log (node.command verb parameter).2 := by
  cases named : parameter.name with
  | none =>
    refine ⟨[], ?_⟩
    rw [command, named]
    exact .refl
  | some root =>
    rw [node.command_of_name verb named]
    exact node.reaches_request verb root parameter

theorem reaches_onInterest (node : Node σ) (interest : Interest) :
    ∃ log, Reaches node log (node.onInterest interest).2 := by
  unfold onInterest
  split
  · exact ⟨[], .refl⟩
  · split
    · exact ⟨[], .refl⟩
    · exact node.reaches_command _ _

theorem reaches_waitWithin (ticks : Nat) (node : Node σ) (target : Nat) :
    ∃ log, Reaches node log (node.waitWithin ticks target) := by
  have helapse : ∀ node : Node σ, Reaches node [] { node with now := target } := fun node =>
    Reaches.refl.meanwhile target node.network.face node.repo
  induction ticks generalizing node with
  | zero => exact ⟨[], helapse node⟩
  | succ ticks ih =>
    unfold waitWithin
    split
    · exact ⟨[], helapse node⟩
    · next due _ =>
      split
      · have hstrike : Reaches node [] (node.strike due) := .single (.strike due)
        obtain ⟨_, hring⟩ := hstrike.settle
        obtain ⟨_, hrest⟩ := ih (node.ring due)
        exact ⟨_, hring.trans hrest⟩
      · exact ⟨[], helapse node⟩

/-- Every call of a node is a course of steps. -/
theorem reaches_after_call (node : Node σ) (call : Call) :
    ∃ log, Reaches node log (node.after call) := by
  cases call with
  | report root batch => exact ((Reaches.single (.report root batch)).step .collect).settle
  | publish payload freshness seq producer =>
    let data := Network.publication payload freshness seq producer
    let face := if node.network.attached then node.network.face.put data else node.network.face
    have hface : Reaches node [] { node with network.face := face } :=
      Reaches.refl.meanwhile node.now face node.repo
    exact ((hface.step (.report node.network.group [⟨producer, seq, seq⟩])).step .collect).settle
  | command verb parameter => exact node.reaches_command verb parameter
  | interest interest => exact node.reaches_onInterest interest
  | wait millis => exact node.reaches_waitWithin _ _
  | close => exact ⟨_, .single .close⟩

end Node

end NamedData.Sync
