import NamedData.Name.Basic
/-!
# What a repository tells its subscribers

Every packet stored and every packet removed is an event. A subscriber that falls behind by more
than the window loses the oldest events and learns how many.
-/

namespace NamedData.Repo

/-- A change to the repository, under the name of the packet without its digest. -/
inductive Event where
  | inserted (name : Name)
  | deleted (name : Name)
deriving DecidableEq, Repr

/-- How many events wait for a subscriber at most. -/
def window : Nat := 256

/-- What a subscriber receives: how many events it has lost, and those that still wait. -/
structure Delivery where
  lost : Nat
  events : List Event
deriving DecidableEq, Repr

/-- What waits for a subscriber that has seen the first `seen` of the events sent so far. -/
def deliver (sent : List Event) (seen : Nat) : Delivery :=
  let fresh := sent.drop seen
  let lost := fresh.length - window
  ⟨lost, fresh.drop lost⟩

end NamedData.Repo
