import NamedData.Proofs.Command.Wire
import NamedData.Proofs.Sync.Manager
import NamedData.Store.Memory
import NamedData.Sync.Node
/-!
# Commands to a running manager

A request commands a manager if it stands under the command root, verifies, and tells what is to be
done with which group. Any other is turned away, with a status that tells why, and leaves everything
as it is. One that commands does what its message does. What comes of a message is about the same
root name, so that, however the node comes to rest, the sessions of other groups are not touched.

    ¬ n.Admits i → n.onInterest i = (.ok 401, n)                            (onInterest_refused)
    n.Admits i → n.Conveys i m → n.onInterest i = n.request m              (onInterest_conveys)
    n is quiet about g → n comes to rest with the session of g    (QuietAbout.get?_settleWithin)
-/

namespace NamedData

/-- The message that a verb is to a manager. -/
def Command.Verb.message (verb : Verb) (group : Name) (parameter : Parameter) : Sync.Message :=
  match verb with
  | .start => .start group parameter
  | .check => .check group
  | .stop => .stop group

/-- Whether a reply is about a session, and not that a command was turned away. -/
def Command.Response.Reports (reply : Response) : Prop :=
  ∃ status ∈ [Status.inProgress, .stopped, .fetching, .notFound], reply.statusCode = status.code

theorem Command.Response.Reports.ne {reply : Response} (h : reply.Reports) :
    reply.statusCode ≠ Status.unauthorized.code ∧ reply.statusCode ≠ Status.malformed.code := by
  obtain ⟨status, hstatus, hcode⟩ := h
  have hothers : ∀ status ∈ [Status.inProgress, .stopped, .fetching, .notFound],
      status.code ≠ Status.unauthorized.code ∧ status.code ≠ Status.malformed.code := by decide
  rw [hcode]
  exact hothers status hstatus

namespace Sync

/-! ## What comes of effects -/

/-- The root name of the message that comes of an effect, if one does. -/
def Effect.tells? : Effect → Option Name
  | .arm _ root _ | .fetch root _ _ => some root
  | _ => none

theorem Manager.tells?_release (session : Session) : (release session).tells? = none := by
  unfold release
  split <;> rfl

theorem Manager.tells?_of_mem_halt {m : Manager} {root : Name} {session : Session}
    {effect : Effect} (wanted : effect ∈ (m.halt root session).2) {told : Name}
    (tells : effect.tells? = some told) : told = root := by
  rw [halt, List.mem_cons, List.mem_singleton] at wanted
  rcases wanted with rfl | rfl
  · rw [tells?_release] at tells
    cases tells
  · exact (Option.some.inj tells).symm

/-- What comes of a move is about the same root name. -/
theorem Manager.tells?_of_move {m next : Manager} {message : Message} {effects : List Effect}
    (move : Move m message next effects) {effect : Effect} (wanted : effect ∈ effects)
    {told : Name} (tells : effect.tells? = some told) : told = message.root := by
  cases move with
  | idle _ => cases wanted
  | start now root parameter =>
    rcases List.mem_append.1 wanted with h | h
    · obtain ⟨session, _, rfl⟩ := List.mem_map.1 h
      rw [tells?_release] at tells
      cases tells
    · rw [List.mem_singleton.1 h] at tells
      cases tells
  | stop _ => exact tells?_of_mem_halt wanted tells
  | pursue ranges _ _ =>
    obtain ⟨name, _, rfl⟩ := List.mem_map.1 wanted
    exact (Option.some.inj tells).symm
  | again _ _ _ _ =>
    rw [List.mem_singleton.1 wanted] at tells
    exact (Option.some.inj tells).symm
  | exhaust _ _ _ _ => exact tells?_of_mem_halt wanted tells
  | forget _ _ => cases wanted

/-- A verb is replied to with what becomes of the session, and fails at nothing. -/
theorem Manager.handle_verb {σ : Type} [Store.Backend σ] (m : Manager) (now : Nat) (repo : Repo σ)
    (verb : Command.Verb) (group : Name) (parameter : Command.Parameter) :
    let t := m.handle now repo (verb.message group parameter)
    t.repo = repo ∧ t.failure = none ∧ ∃ reply, t.reply = some reply ∧ reply.Reports := by
  cases verb with
  | start => exact ⟨rfl, rfl, _, rfl, .inProgress, by decide, rfl⟩
  | stop => exact ⟨rfl, rfl, _, rfl, .stopped, by decide, rfl⟩
  | check =>
    refine ⟨rfl, rfl, _, rfl, ?_⟩
    unfold report
    split
    · exact ⟨.notFound, by decide, rfl⟩
    · split
      · exact ⟨.fetching, by decide, rfl⟩
      · exact ⟨.stopped, by decide, rfl⟩

namespace Node

open Command

variable {σ : Type}

theorem later_eq (node : Node σ) (delay : Duration) (ticket : Option Nat) (message : Message) :
    ∃ queue timers, node.later delay ticket message = { node with queue, timers } := by
  unfold later
  split <;> exact ⟨_, _, rfl⟩

theorem mem_later_queue {node : Node σ} {delay : Duration} {ticket : Option Nat}
    {message waiting : Message} (h : waiting ∈ (node.later delay ticket message).queue) :
    waiting ∈ node.queue ∨ waiting = message := by
  unfold later at h
  split at h
  · rcases List.mem_append.1 h with h | h
    · exact Or.inl h
    · exact Or.inr (List.mem_singleton.1 h)
  · exact Or.inl h

/-- A request that is sent is over at some time, with some outcome. -/
theorem perform_fetch (node : Node σ) (root : Name) (generation : Nat) (interest : Interest) :
    ∃ face delay outcome, node.perform (.fetch root generation interest) =
      later { node with network.face := face } delay none
        (.fetched root generation interest.name outcome) := by
  simp only [perform]
  rcases node.network.face.express interest with ⟨answer, face⟩
  cases answer <;> exact ⟨face, _, _, rfl⟩

/-- What a turn wants done is done around the manager. -/
theorem perform_eq (node : Node σ) (effect : Effect) :
    ∃ network queue timers, node.perform effect = { node with network, queue, timers } := by
  cases effect with
  | arm ticket root generation =>
    obtain ⟨queue, timers, hlater⟩ :=
      node.later_eq node.setting.grace (some ticket) (.expire root generation)
    exact ⟨node.network, queue, timers, hlater⟩
  | fetch root generation interest =>
    obtain ⟨face, delay, outcome, hfetch⟩ := node.perform_fetch root generation interest
    obtain ⟨queue, timers, hlater⟩ := later_eq { node with network.face := face } delay none
      (.fetched root generation interest.name outcome)
    exact ⟨_, queue, timers, hfetch.trans hlater⟩
  | _ => exact ⟨_, _, _, rfl⟩

theorem root_of_mem_perform_queue {node : Node σ} {effect : Effect} {waiting : Message}
    (h : waiting ∈ (node.perform effect).queue) :
    waiting ∈ node.queue ∨ effect.tells? = some waiting.root := by
  cases effect with
  | arm ticket root generation =>
    rcases mem_later_queue h with h | rfl
    · exact Or.inl h
    · exact Or.inr rfl
  | fetch root generation interest =>
    obtain ⟨face, delay, outcome, hlater⟩ := node.perform_fetch root generation interest
    rw [hlater] at h
    rcases mem_later_queue h with h | rfl
    · exact Or.inl h
    · exact Or.inr rfl
  | _ => exact Or.inl h

theorem foldl_perform_eq (effects : List Effect) (node : Node σ) :
    ∃ network queue timers,
      effects.foldl perform node = { node with network, queue, timers } := by
  induction effects generalizing node with
  | nil => exact ⟨_, _, _, rfl⟩
  | cons effect effects ih =>
    obtain ⟨network, queue, timers, hfirst⟩ := node.perform_eq effect
    obtain ⟨_, _, _, hothers⟩ := ih { node with network, queue, timers }
    rw [List.foldl_cons, hfirst, hothers]
    exact ⟨_, _, _, rfl⟩

theorem root_of_mem_foldl_perform_queue {effects : List Effect} {node : Node σ}
    {waiting : Message} (h : waiting ∈ (effects.foldl perform node).queue) :
    waiting ∈ node.queue ∨ ∃ effect ∈ effects, effect.tells? = some waiting.root := by
  induction effects generalizing node with
  | nil => exact Or.inl h
  | cons effect effects ih =>
    rcases ih h with h | ⟨later, hlater, htells⟩
    · rcases root_of_mem_perform_queue h with h | htells
      · exact Or.inl h
      · exact Or.inr ⟨effect, List.mem_cons_self, htells⟩
    · exact Or.inr ⟨later, List.mem_cons_of_mem _ hlater, htells⟩

/-! ## What requests convey -/

/-- Whether a request may command: it stands under the command root and verifies. -/
structure Admits (node : Node σ) (interest : Interest) : Prop where
  under : node.setting.commandRoot.isPrefixOf interest.name = true
  verifies : interest.verifiesDigest = true

/-- Whether a request conveys a message: its name is a command under the command root, with a block
that names a group. -/
def Conveys (node : Node σ) (interest : Interest) (message : Message) : Prop :=
  ∃ verb parameter group, Carries node.setting.commandRoot interest.name verb parameter ∧
    parameter.name = some group ∧ message = verb.message group parameter

/-- A request conveys one message at most. -/
theorem Conveys.eq {node : Node σ} {interest : Interest} {message other : Message}
    (h : node.Conveys interest message) (also : node.Conveys interest other) : message = other := by
  obtain ⟨verb, parameter, group, hcarries, hgroup, rfl⟩ := h
  obtain ⟨_, _, _, hcarries', hgroup', rfl⟩ := also
  cases (parse_eq_ok_iff.2 hcarries).symm.trans (parse_eq_ok_iff.2 hcarries')
  cases hgroup.symm.trans hgroup'
  rfl

theorem checkCommand_eq_ok_iff {node : Node σ}
    (policy : node.setting.validator = .digest node.setting.commandRoot) {interest : Interest} :
    node.setting.validator.checkCommand interest = .ok () ↔ node.Admits interest := by
  rw [policy, Validator.checkCommand_digest_eq_ok_iff]
  exact ⟨fun ⟨hunder, hverifies⟩ => ⟨hunder, hverifies⟩, fun h => ⟨h.under, h.verifies⟩⟩

/-! ## Turns -/

variable [Store.Backend σ]

theorem turn_manager (node : Node σ) (message : Message) :
    (node.turn message).2.manager = (node.manager.handle node.now node.repo message).manager := by
  let t := node.manager.handle node.now node.repo message
  obtain ⟨network, queue, timers, hperformed⟩ :=
    foldl_perform_eq t.effects { node with manager := t.manager, repo := t.repo }
  simp only [turn]
  split <;> exact congrArg Node.manager hperformed

/-- A turn is about the session under one root name. -/
theorem get?_turn_of_ne (node : Node σ) (message : Message) {other : Name}
    (h : other ≠ message.root) :
    (node.turn message).2.manager.sessions.get? other = node.manager.sessions.get? other := by
  rw [turn_manager]
  exact node.manager.get?_handle_of_ne node.now node.repo message h

/-- The messages that a turn puts in the queue are about the same root name. -/
theorem root_of_mem_turn_queue {node : Node σ} {message waiting : Message}
    (h : waiting ∈ (node.turn message).2.queue) :
    waiting ∈ node.queue ∨ waiting.root = message.root := by
  simp only [turn] at h
  split at h
  · next going =>
    rcases root_of_mem_foldl_perform_queue h with h | ⟨effect, heffect, htells⟩
    · exact Or.inl h
    · have hmove := node.manager.move_handle node.now node.repo message going
      exact Or.inr (Manager.tells?_of_move hmove heffect htells)
  · cases h

/-- Whether no message that waits is about a root name. -/
def QuietAbout (node : Node σ) (root : Name) : Prop := ∀ message ∈ node.queue, message.root ≠ root

theorem QuietAbout.turn {node : Node σ} {message : Message} {root : Name}
    (h : node.QuietAbout root) (away : message.root ≠ root) :
    (node.turn message).2.QuietAbout root := by
  intro waiting hwaiting
  rcases root_of_mem_turn_queue hwaiting with hbefore | hsame
  · exact h waiting hbefore
  · exact hsame ▸ away

/-- However many messages are handled, a session that none of them is about stays as it is. -/
theorem QuietAbout.get?_settleWithin {root : Name} (turns : Nat) {node : Node σ}
    (h : node.QuietAbout root) :
    (node.settleWithin turns).manager.sessions.get? root = node.manager.sessions.get? root := by
  induction turns generalizing node with
  | zero => rfl
  | succ turns ih =>
    unfold settleWithin
    split
    · rfl
    · next message rest hqueue =>
      have haway : message.root ≠ root := h message (hqueue ▸ List.mem_cons_self)
      have hrest : QuietAbout { node with queue := rest } root := fun waiting hwaiting =>
        h waiting (hqueue ▸ List.mem_cons_of_mem _ hwaiting)
      rw [ih (hrest.turn haway), get?_turn_of_ne _ _ haway.symm]

/-! ## Requests -/

theorem onInterest_refused {node : Node σ}
    (policy : node.setting.validator = .digest node.setting.commandRoot) {interest : Interest}
    (refused : ¬ node.Admits interest) :
    node.onInterest interest = (.ok (.ofStatus .unauthorized), node) := by
  unfold onInterest
  split
  · rfl
  · next hchecked => exact absurd ((checkCommand_eq_ok_iff policy).1 hchecked) refused

theorem onInterest_unreadable {node : Node σ}
    (policy : node.setting.validator = .digest node.setting.commandRoot) {interest : Interest}
    (admitted : node.Admits interest) (unreadable : ∀ message, ¬ node.Conveys interest message) :
    node.onInterest interest = (.ok (.ofStatus .malformed), node) := by
  unfold onInterest
  rw [(checkCommand_eq_ok_iff policy).2 admitted]
  simp only
  split
  · rfl
  · next verb parameter hparse =>
    unfold command
    split
    · rfl
    · next group hgroup =>
      exact absurd ⟨verb, parameter, group, parse_eq_ok_iff.1 hparse, hgroup, rfl⟩ (unreadable _)

/-- A request that conveys a message asks for what the message does. -/
theorem onInterest_conveys {node : Node σ}
    (policy : node.setting.validator = .digest node.setting.commandRoot) {interest : Interest}
    (admitted : node.Admits interest) {message : Message}
    (conveyed : node.Conveys interest message) :
    node.onInterest interest = node.request message := by
  obtain ⟨verb, parameter, group, hcarries, hgroup, rfl⟩ := conveyed
  unfold onInterest
  rw [(checkCommand_eq_ok_iff policy).2 admitted, parse_eq_ok_iff.2 hcarries]
  simp only [command, hgroup]
  cases verb <;> rfl

/-- A verb is replied to, and changes nothing but the sessions and what is around the manager. -/
theorem turn_verb (node : Node σ) (verb : Verb) (group : Name) (parameter : Parameter) :
    let t := node.manager.handle node.now node.repo (verb.message group parameter)
    ∃ reply network queue timers, reply.Reports ∧
      node.turn (verb.message group parameter) =
        (some reply, { node with manager := t.manager, network, queue, timers }) := by
  intro t
  obtain ⟨hrepo, hfailure, reply, hreply, hreports⟩ :=
    node.manager.handle_verb node.now node.repo verb group parameter
  obtain ⟨network, queue, timers, hperformed⟩ :=
    foldl_perform_eq t.effects { node with manager := t.manager, repo := t.repo }
  refine ⟨reply, network, queue, timers, hreports, ?_⟩
  simp only [turn, hfailure, hreply]
  rw [hperformed, hrepo]

/-- What a request conveys is replied to, and does not touch the repository. -/
theorem Conveys.request {node : Node σ} {interest : Interest} {message : Message}
    (h : node.Conveys interest message) (live : node.life = .running) :
    ∃ reply, reply.Reports ∧ (node.turn message).1 = some reply ∧
      (node.turn message).2.repo = node.repo ∧
      node.request message = (.ok reply, (node.turn message).2.settle) := by
  obtain ⟨verb, parameter, group, _, _, rfl⟩ := h
  obtain ⟨reply, network, queue, timers, hreports, hturn⟩ := node.turn_verb verb group parameter
  refine ⟨reply, hreports, ?_, ?_, ?_⟩
  · rw [hturn]
  · rw [hturn]
  · simp only [Node.request, live, hturn]

/-- A manager at work whose validator asks for commands under its command root replies to every
request. One that does not stand there or does not verify is turned away as not authorized, and one
that verifies and conveys no message as malformed; neither changes anything. A request that conveys
a message gets the reply to that message and has its effect, and none on the sessions of the other
groups: not at once, and if no message about them waits, not when the node is at rest either. -/
theorem commands_act_when_signed_and_readable {node : Node σ} (live : node.life = .running)
    (policy : node.setting.validator = .digest node.setting.commandRoot) (interest : Interest) :
    ∃ reply after, node.onInterest interest = (.ok reply, after) ∧
      (reply.statusCode = Status.unauthorized.code ↔ ¬ node.Admits interest) ∧
      (node.Admits interest → (reply.statusCode = Status.malformed.code ↔
        ∀ message, ¬ node.Conveys interest message)) ∧
      (reply.statusCode = Status.unauthorized.code ∨ reply.statusCode = Status.malformed.code →
        reply.insertNum = 0 ∧ after = node) ∧
      ∀ message, node.Admits interest → node.Conveys interest message →
        let turned := node.turn message
        turned.1 = some reply ∧ after = turned.2.settle ∧ turned.2.repo = node.repo ∧
          ∀ group, group ≠ message.root →
            turned.2.manager.sessions.get? group = node.manager.sessions.get? group ∧
              (node.QuietAbout group →
                after.manager.sessions.get? group = node.manager.sessions.get? group) := by
  by_cases admitted : node.Admits interest
  case neg =>
    exact ⟨_, node, onInterest_refused policy admitted, iff_of_true rfl admitted,
      fun h => absurd h admitted, fun _ => ⟨rfl, rfl⟩, fun _ h => absurd h admitted⟩
  by_cases conveyed : ∃ message, node.Conveys interest message
  case neg =>
    have hnothing : ∀ message, ¬ node.Conveys interest message := not_exists.1 conveyed
    have hne : (Response.ofStatus .malformed).statusCode ≠ Status.unauthorized.code := by decide
    exact ⟨_, node, onInterest_unreadable policy admitted hnothing,
      iff_of_false hne (not_not_intro admitted), fun _ => iff_of_true rfl hnothing,
      fun _ => ⟨rfl, rfl⟩, fun message _ h => absurd h (hnothing message)⟩
  obtain ⟨message, hconveyed⟩ := conveyed
  obtain ⟨reply, hreports, hreply, hrepo, hrequest⟩ := hconveyed.request live
  obtain ⟨hauthorized, hreadable⟩ := hreports.ne
  refine ⟨reply, (node.turn message).2.settle,
    (onInterest_conveys policy admitted hconveyed).trans hrequest,
    iff_of_false hauthorized (not_not_intro admitted),
    fun _ => iff_of_false hreadable fun hnothing => hnothing message hconveyed,
    fun hcode => absurd hcode (not_or.2 ⟨hauthorized, hreadable⟩), ?_⟩
  rintro other _ hother
  obtain rfl := hother.eq hconveyed
  refine ⟨hreply, rfl, hrepo, fun group hgroup => ⟨get?_turn_of_ne _ _ hgroup, fun quiet => ?_⟩⟩
  exact ((quiet.turn hgroup.symm).get?_settleWithin patience).trans (get?_turn_of_ne _ _ hgroup)

/-- Of two sessions a signed command stops one and leaves the other. -/
theorem commands_act_when_signed_and_readable_of_two_sessions :
    let repo : Repo Store.MemoryStore := .ofBackend (.empty 1)
    let first : Name := ⟨[.ofText "a"]⟩
    let second : Name := ⟨[.ofText "b"]⟩
    let root : Name := ⟨[.ofText "repo"]⟩
    let idle := fresh ⟨root, .digest root, .zero⟩ 0 (.empty first false) repo
    let node := ((idle.turn (.start first (.ofName first))).2.turn
      (.start second (.ofName second))).2
    node.life = .running ∧ node.setting.validator = .digest node.setting.commandRoot ∧
      ∃ after, node.onInterest (interest root .stop (.ofName first)) =
          (.ok (.ofStatus .stopped), after) ∧
        after.manager.sessions.get? second = node.manager.sessions.get? second ∧
        (node.manager.sessions.get? second).isSome := by
  intro repo first second root idle node
  have hsound : ∀ name ∈ (Parameter.ofName first).name, name.Sound := by
    rintro _ ⟨rfl⟩
    exact Name.sound_singleton (by decide)
  have hread : Parameter.decode (Parameter.ofName first).encode = .ok (.onWire (.ofName first)) :=
    (Parameter.decode_encode_eq_ok_iff (by decide)).2 ⟨hsound, rfl⟩
  have hadmitted : node.Admits (interest root .stop (.ofName first)) :=
    ⟨isPrefixOf_interest _ _ _, Interest.verifiesDigest_sign _⟩
  have hconveyed : node.Conveys (interest root .stop (.ofName first)) (.stop first) :=
    ⟨.stop, _, first, carries_interest hread, rfl, rfl⟩
  have hlive : node.life = .running := rfl
  have hpolicy : node.setting.validator = .digest node.setting.commandRoot := rfl
  have hempty : node.queue = [] := rfl
  have hquiet : node.QuietAbout second := by
    intro waiting hwaiting
    rw [hempty] at hwaiting
    cases hwaiting
  have hthere : (node.manager.sessions.get? second).isSome := rfl
  obtain ⟨reply, after, hanswer, _, _, _, hacts⟩ :=
    commands_act_when_signed_and_readable hlive hpolicy (interest root .stop (.ofName first))
  obtain ⟨hreply, _, _, hothers⟩ := hacts _ hadmitted hconveyed
  cases hreply
  exact ⟨hlive, hpolicy, after, hanswer, (hothers second (by decide)).2 hquiet, hthere⟩

end Node

end Sync

end NamedData
