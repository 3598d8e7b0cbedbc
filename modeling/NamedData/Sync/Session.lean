import NamedData.Command.Parameter
import NamedData.Packet.Interest
import NamedData.Sync.Clock
/-!
# Sync sessions

A session fetches what is reported missing under a root name. While it runs it has limits and
keeps count of the requests it has sent; once it is stopped it only waits to be forgotten. The
number of objects it has stored outlives the stop, so that it can still be asked for.

A new session under the same root name is a new generation, and no two sessions share one.
-/

namespace NamedData.Sync

/-- What bounds a session. -/
structure Limits where
  /-- How long the session goes on after the last report; zero for ever. -/
  timeout : Duration
  /-- How many requests it may send; zero for no bound. -/
  budget : Nat
  /-- How long each request waits. -/
  lifetime : Duration
deriving DecidableEq, Repr

/-- The limits that a command sets, with what holds where it is silent. -/
def Limits.ofParameter (p : Command.Parameter) : Limits where
  timeout := p.syncTimeout.getD .zero
  budget := (p.maxInterestNum.getD 0).toNat
  lifetime := p.interestLifetime.getD Interest.defaultLifetime

/-- How a running session is getting on. -/
structure Progress where
  limits : Limits
  /-- When the session started, or last had something reported missing. -/
  lastReport : Nat
  /-- How many requests it has sent. -/
  issued : Nat
deriving DecidableEq, Repr

namespace Progress

/-- Whether the time since the last report is up. -/
def timedOut (p : Progress) (now : Nat) : Bool :=
  p.limits.timeout ≠ .zero && p.limits.timeout.nanoseconds < now - p.lastReport

/-- Whether the requests are used up. -/
def spent (p : Progress) : Bool := p.limits.budget ≠ 0 && p.limits.budget ≤ p.issued

/-- The request for one object: it waits as the limits say and takes no stale answer. -/
def request (p : Progress) (name : Name) : Interest := ⟨name, p.limits.lifetime, true, none⟩

end Progress

/-- Whether a session runs. -/
inductive Phase where
  | running (progress : Progress)
  /-- Stopped, and forgotten when the timer with this ticket goes off. -/
  | stopped (expiry : Nat)
deriving DecidableEq, Repr

/-- A session. -/
structure Session where
  generation : Nat
  /-- How many fetched objects it has stored. -/
  stored : Nat
  phase : Phase
deriving DecidableEq, Repr

/-- The sessions by root name, at most one under each. -/
structure Sessions where
  entries : List (Name × Session)
deriving DecidableEq, Repr

namespace Sessions

/-- No session. -/
def empty : Sessions := ⟨[]⟩

/-- The session under a root name. -/
def get? (s : Sessions) (root : Name) : Option Session := s.entries.lookup root

/-- Forgets the session under a root name. -/
def erase (s : Sessions) (root : Name) : Sessions :=
  ⟨s.entries.filter fun entry => entry.1 ≠ root⟩

/-- Puts a session under a root name, in place of any other. -/
def put (s : Sessions) (root : Name) (session : Session) : Sessions :=
  ⟨(root, session) :: (s.erase root).entries⟩

/-- The session of a generation under a root name with its progress, if it runs. -/
def running? (s : Sessions) (root : Name) (generation : Nat) : Option (Session × Progress) :=
  match s.get? root with
  | some session =>
    match session.phase with
    | .running progress =>
      if session.generation = generation then some (session, progress) else none
    | .stopped _ => none
  | none => none

end Sessions

end NamedData.Sync
