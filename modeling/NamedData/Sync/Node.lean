import NamedData.Command.Request
import NamedData.Sync.Manager
import NamedData.Sync.Network
/-!
# A running manager

A `Node` is a manager at work: a clock, a network, a repository, a queue of messages and a list of
timers. Messages are handled one after another; what a turn wants done is done at once, and what
comes of it is put at the end of the queue. Only `wait` moves the clock, from timer to timer;
timers due at the same tick go off together, in the order in which they were set.

A node comes to rest (`settle`) before anything else is asked of it.
-/

namespace NamedData.Sync

open Command

/-- Why a command got no reply, or how a manager came to its end. -/
inductive Error where
  /-- The manager is gone. -/
  | channelClosed
  /-- The repository refused a fetched packet. -/
  | insert (cause : Repo.Error)
deriving DecidableEq, Repr

/-- The text shown for an error. -/
def Error.message : Error → String
  | channelClosed => "sync actor channel closed"
  | insert cause => "fatal insert failure: " ++ cause.message

/-- Whether a manager is at work. -/
inductive Life where
  | running
  /-- Nobody can command it any more. -/
  | ended
  | failed (cause : Repo.Error)
deriving DecidableEq, Repr

/-- A message to come. -/
structure Timer where
  /-- The point in time at which it goes off. -/
  due : Nat
  /-- The ticket under which it can be called off. -/
  ticket : Option Nat
  message : Message
deriving DecidableEq

/-- What a node is given to work with. -/
structure Setting where
  /-- The name under which commands stand. -/
  commandRoot : Name
  validator : Validator
  /-- How long a stopped session is remembered. -/
  grace : Duration

/-- A manager and all around it. -/
structure Node (σ : Type) where
  setting : Setting
  /-- The present point in time. -/
  now : Nat
  network : Network
  repo : Repo σ
  manager : Manager
  life : Life
  queue : List Message
  /-- The timers in the order in which they were set. -/
  timers : List Timer

namespace Node

/-- A node with a fresh manager. -/
def fresh (setting : Setting) (now : Nat) (network : Network) (repo : Repo σ) : Node σ :=
  ⟨setting, now, network, repo, .empty, .running, [], []⟩

/-! ## Effects -/

/-- Puts a message at the end of the queue after a while, at once if the while is nothing. -/
def later (node : Node σ) (delay : Duration) (ticket : Option Nat) (message : Message) : Node σ :=
  if delay = .zero then { node with queue := node.queue ++ [message] }
  else { node with
    timers := node.timers ++ [⟨Clock.deadline node.now delay, ticket, message⟩] }

/-- The outcome of a request that brought a packet. -/
def judge (node : Node σ) (data : Data) : Outcome :=
  match node.setting.validator.checkData data with
  | .ok () => .valid data
  | .error cause => .invalid cause

/-- Does what a turn wants done. -/
def perform (node : Node σ) : Effect → Node σ
  | .subscribe root generation =>
    { node with network.subscriptions := node.network.subscriptions.subscribe generation root }
  | .unsubscribe generation =>
    { node with network.subscriptions := node.network.subscriptions.unsubscribe generation }
  | .arm ticket root generation =>
    node.later node.setting.grace (some ticket) (.expire root generation)
  | .disarm ticket =>
    { node with timers := node.timers.filter fun timer => timer.ticket ≠ some ticket }
  | .fetch root generation interest =>
    let (answer, face) := node.network.face.express interest
    let node := { node with network.face := face }
    let tell := Message.fetched root generation interest.name
    match answer with
    | .delivered data => node.later .zero none (tell (node.judge data))
    | .refused => node.later .zero none (tell (.failed Face.refusal))
    | .silence => node.later interest.lifetime none (tell (.failed .timeout))

/-! ## Turns -/

variable [Store.Backend σ]

/-- Handles one message. A manager that fails drops its queue and its timers. -/
def turn (node : Node σ) (message : Message) : Option Response × Node σ :=
  let t := node.manager.handle node.now node.repo message
  let node := t.effects.foldl perform { node with manager := t.manager, repo := t.repo }
  match t.failure with
  | none => (t.reply, node)
  | some cause => (t.reply, { node with life := .failed cause, queue := [], timers := [] })

/-- Handles the messages in the queue, `turns` of them at most, until none is left. -/
def settleWithin : (turns : Nat) → Node σ → Node σ
  | 0, node => node
  | turns + 1, node =>
    match node.queue with
    | [] => node
    | message :: rest => settleWithin turns (({ node with queue := rest }).turn message).2

/-- The number of turns after which a node is taken never to come to rest. -/
def patience : Nat := 10000000

/-- Handles messages until the queue is empty. -/
def settle (node : Node σ) : Node σ := settleWithin patience node

/-- Turns the batches that wait in the subscriptions into messages. -/
def collect (node : Node σ) : Node σ :=
  let subs := node.network.subscriptions.live
  { node with
    queue := node.queue ++ subs.flatMap fun sub =>
      sub.waiting.map fun batch => .missing sub.root sub.id batch
    network.subscriptions := ⟨subs.map fun sub => { sub with waiting := [] }⟩ }

/-! ## What can be asked of a node -/

/-- Reports a batch for a root name, and counts those who get it. -/
def report (node : Node σ) (root : Name) (batch : List Range) : Nat × Node σ :=
  let (heard, network) := node.network.report root batch
  (heard, ({ node with network }).collect.settle)

/-- Publishes a payload to the group. -/
def publish (node : Node σ) (payload : Bytes) (freshness : Duration) (seq : UInt64)
    (producer : Name) : Data × Node σ :=
  let (data, network) := node.network.publish payload freshness seq producer
  (data, ({ node with network }).collect.settle)

/-- Hands the manager a message that calls for a reply. -/
def request (node : Node σ) (message : Message) : Except Error Response × Node σ :=
  match node.life with
  | .running =>
    match node.turn message with
    | (some reply, node) => (.ok reply, node.settle)
    | (none, node) => (.error .channelClosed, node.settle)
  | _ => (.error .channelClosed, node)

/-- Takes up a command; one that names no session is malformed. -/
def command (node : Node σ) (verb : Verb) (parameter : Parameter) :
    Except Error Response × Node σ :=
  match parameter.name with
  | none => (.ok (.ofStatus .malformed), node)
  | some root =>
    match verb with
    | .start => node.request (.start root parameter)
    | .check => node.request (.check root)
    | .stop => node.request (.stop root)

/-- Takes up a command that comes as a signed request. -/
def onInterest (node : Node σ) (interest : Interest) : Except Error Response × Node σ :=
  match node.setting.validator.checkCommand interest with
  | .error _ => (.ok (.ofStatus .unauthorized), node)
  | .ok () =>
    match parse node.setting.commandRoot interest.name with
    | .error _ => (.ok (.ofStatus .malformed), node)
    | .ok (verb, parameter) => node.command verb parameter

/-- Ends the manager: its subscriptions and timers go, and what its requests bring is lost. -/
def close (node : Node σ) : Node σ :=
  let released := node.manager.releaseAll.foldl perform node
  { released with
    life := match node.life with
      | .running => .ended
      | life => life
    queue := []
    timers := [] }

/-! ## Waiting -/

/-- The time at which the next timer goes off. -/
def nextDue? (node : Node σ) : Option Nat := (node.timers.map Timer.due).min?

/-- Lets all timers go off that are due at a point in time, and comes to rest. -/
def ring (node : Node σ) (due : Nat) : Node σ :=
  let (ringing, others) := node.timers.partition fun timer => timer.due = due
  settle { node with
    now := due, timers := others, queue := node.queue ++ ringing.map Timer.message }

/-- Lets the timers go off one tick after another until a point in time, `ticks` ticks at most. -/
def waitWithin : (ticks : Nat) → Node σ → Nat → Node σ
  | 0, node, target => { node with now := target }
  | ticks + 1, node, target =>
    match node.nextDue? with
    | none => { node with now := target }
    | some due =>
      if due ≤ target then waitWithin ticks (node.ring due) target
      else { node with now := target }

/-- Lets milliseconds go by, as many as a timer can wait. Every tick is a millisecond later than
the one before, so there are no more ticks than milliseconds. -/
def wait (node : Node σ) (millis : Nat) : Node σ :=
  waitWithin (millis + 1) node (Clock.deadline node.now ⟨millis * Clock.tick⟩)

end Node

end NamedData.Sync
