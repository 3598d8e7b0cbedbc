import NamedData.Command.Response
import NamedData.Repo.Basic
import NamedData.Sync.Face
import NamedData.Sync.Range
import NamedData.Sync.Session
import NamedData.Validator
/-!
# The session manager

The manager handles one message at a time. `Manager.handle` takes the time, the repository and a
message, and gives back the manager and the repository, a reply where one is due, and what is to
be done outside: subscriptions, timers and requests. Commands start, check and stop sessions;
reports and the outcomes of requests drive them; timers forget stopped ones.

A message that belongs to a session carries its generation, and one of a session that no longer
runs changes nothing. The manager fails only when the repository refuses a packet that a running
session has fetched.
-/

namespace NamedData.Sync

open Command

/-! ## Messages and effects -/

/-- What came of a request. -/
inductive Outcome where
  | valid (data : Data)
  | invalid (cause : ValidationError)
  | failed (cause : FetchError)
deriving DecidableEq, Repr

/-- What the manager is told. -/
inductive Message where
  | start (root : Name) (parameter : Parameter)
  | check (root : Name)
  | stop (root : Name)
  /-- Ranges are reported missing to the subscription of a generation. -/
  | missing (root : Name) (generation : Nat) (ranges : List Range)
  /-- A request of a generation for a name is over. -/
  | fetched (root : Name) (generation : Nat) (name : Name) (outcome : Outcome)
  /-- The timer of a stopped session has gone off. -/
  | expire (root : Name) (generation : Nat)
deriving DecidableEq, Repr

/-- What the manager wants done. -/
inductive Effect where
  /-- Subscribe to a root name; the generation names the subscription. -/
  | subscribe (root : Name) (generation : Nat)
  | unsubscribe (generation : Nat)
  /-- Set the timer that forgets a stopped session; the ticket names the timer. -/
  | arm (ticket : Nat) (root : Name) (generation : Nat)
  | disarm (ticket : Nat)
  /-- Send a request. -/
  | fetch (root : Name) (generation : Nat) (interest : Interest)
deriving DecidableEq

/-- The sessions, and the numbers for the next generation and the next timer. -/
structure Manager where
  sessions : Sessions
  nextGeneration : Nat
  nextTicket : Nat
deriving DecidableEq, Repr

/-- What handling a message gives. -/
structure Turn (σ : Type) where
  manager : Manager
  repo : Repo σ
  reply : Option Response
  effects : List Effect
  /-- Why the manager cannot go on. -/
  failure : Option Repo.Error

namespace Manager

/-- A manager without sessions. -/
def empty : Manager := ⟨.empty, 1, 1⟩

/-! ## Parts of a turn -/

/-- Lets go of what a session holds: its subscription while it runs, its timer after that. -/
def release (session : Session) : Effect :=
  match session.phase with
  | .running _ => .unsubscribe session.generation
  | .stopped expiry => .disarm expiry

/-- Lets go of what all sessions hold. -/
def releaseAll (m : Manager) : List Effect :=
  m.sessions.entries.map fun entry => release entry.2

/-- Stops a session, or stops it again, and sets the timer that forgets it. -/
def halt (m : Manager) (root : Name) (session : Session) : Manager × List Effect :=
  ({ m with
     sessions := m.sessions.put root { session with phase := .stopped m.nextTicket }
     nextTicket := m.nextTicket + 1 },
   [release session, .arm m.nextTicket root session.generation])

/-- Starts a session, in place of any other under the same root name. -/
def begin (m : Manager) (now : Nat) (root : Name) (parameter : Parameter) :
    Manager × List Effect :=
  let generation := m.nextGeneration
  let session : Session := ⟨generation, 0, .running ⟨.ofParameter parameter, now, 0⟩⟩
  ({ m with sessions := m.sessions.put root session, nextGeneration := generation + 1 },
   (m.sessions.get? root).toList.map release ++ [.subscribe root generation])

/-- The reply to a check. -/
def report (m : Manager) (root : Name) : Response :=
  match m.sessions.get? root with
  | none => .ofStatus .notFound
  | some session =>
    match session.phase with
    | .running _ => ⟨Status.fetching.code, session.stored⟩
    | .stopped _ => ⟨Status.stopped.code, session.stored⟩

/-- Sends a request for every name that is reported missing. -/
def pursue (m : Manager) (now : Nat) (root : Name) (generation : Nat) (ranges : List Range) :
    Manager × List Effect :=
  match m.sessions.running? root generation with
  | none => (m, [])
  | some (session, progress) =>
    let names := ranges.flatMap Range.names
    let progress := { progress with
      lastReport := if names.isEmpty then progress.lastReport else now
      issued := progress.issued + names.length }
    ({ m with sessions := m.sessions.put root { session with phase := .running progress } },
     names.map fun name => .fetch root generation (progress.request name))

/-- After a request is over: stops the session if a limit is reached, else asks again. -/
def proceed (m : Manager) (now : Nat) (root : Name) (session : Session) (progress : Progress)
    (name : Name) : Manager × List Effect :=
  if progress.timedOut now || progress.spent then m.halt root session
  else
    let progress := { progress with issued := progress.issued + 1 }
    ({ m with sessions := m.sessions.put root { session with phase := .running progress } },
     [.fetch root session.generation (progress.request name)])

/-- Forgets a session of a generation, if it is stopped. -/
def forget (m : Manager) (root : Name) (generation : Nat) : Manager :=
  match m.sessions.get? root with
  | none => m
  | some session =>
    match session.phase with
    | .running _ => m
    | .stopped _ =>
      if session.generation = generation then { m with sessions := m.sessions.erase root } else m

/-! ## Handling a message -/

variable {σ : Type} [Store.Backend σ]

/-- Takes up the outcome of a request: stores a valid packet, then goes on or stops. -/
def conclude (m : Manager) (now : Nat) (repo : Repo σ) (root : Name) (generation : Nat)
    (name : Name) (outcome : Outcome) : Turn σ :=
  match m.sessions.running? root generation with
  | none => ⟨m, repo, none, [], none⟩
  | some (session, progress) =>
    match outcome with
    | .valid data =>
      match repo.insert data with
      | (.error cause, repo) => ⟨m, repo, none, m.releaseAll, some cause⟩
      | (.ok _, repo) =>
        let session := { session with stored := session.stored + 1 }
        let (m, effects) := m.proceed now root session progress name
        ⟨m, repo, none, effects, none⟩
    | .invalid _ | .failed _ =>
      let (m, effects) := m.proceed now root session progress name
      ⟨m, repo, none, effects, none⟩

/-- Handles a message that arrives at a point in time. -/
def handle (m : Manager) (now : Nat) (repo : Repo σ) : Message → Turn σ
  | .start root parameter =>
    let (m, effects) := m.begin now root parameter
    ⟨m, repo, some (.ofStatus .inProgress), effects, none⟩
  | .check root => ⟨m, repo, some (m.report root), [], none⟩
  | .stop root =>
    let (m, effects) := match m.sessions.get? root with
      | none => (m, [])
      | some session => m.halt root session
    ⟨m, repo, some (.ofStatus .stopped), effects, none⟩
  | .missing root generation ranges =>
    let (m, effects) := m.pursue now root generation ranges
    ⟨m, repo, none, effects, none⟩
  | .fetched root generation name outcome => m.conclude now repo root generation name outcome
  | .expire root generation => ⟨m.forget root generation, repo, none, [], none⟩

end Manager

end NamedData.Sync
