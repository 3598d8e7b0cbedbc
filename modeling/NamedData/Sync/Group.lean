import NamedData.Sync.Range
/-!
# Subscriptions to a sync group

Whoever subscribes to a root name receives every batch of missing ranges that is reported for
exactly that name, in order, until the subscription ends.
-/

namespace NamedData.Sync

/-- A subscription and the batches that wait in it. -/
structure Subscription where
  id : Nat
  root : Name
  waiting : List (List Range)
deriving DecidableEq, Repr

/-- The live subscriptions, oldest first. -/
structure Subscriptions where
  live : List Subscription
deriving DecidableEq, Repr

namespace Subscriptions

/-- No subscription. -/
def empty : Subscriptions := ⟨[]⟩

/-- Adds a subscription under an id of the caller's choice. -/
def subscribe (s : Subscriptions) (id : Nat) (root : Name) : Subscriptions :=
  ⟨s.live ++ [⟨id, root, []⟩]⟩

/-- Ends a subscription. -/
def unsubscribe (s : Subscriptions) (id : Nat) : Subscriptions :=
  ⟨s.live.filter fun sub => sub.id ≠ id⟩

/-- How many subscriptions there are to a root name. -/
def count (s : Subscriptions) (root : Name) : Nat := s.live.countP fun sub => sub.root = root

/-- Gives a batch to every subscription to a root name. -/
def report (s : Subscriptions) (root : Name) (batch : List Range) : Subscriptions :=
  ⟨s.live.map fun sub =>
    if sub.root = root then { sub with waiting := sub.waiting ++ [batch] } else sub⟩

/-- Takes the first batch that waits in a subscription. -/
def receive? (s : Subscriptions) (id : Nat) : Option (List Range × Subscriptions) := do
  let sub ← s.live.find? fun sub => sub.id = id
  match sub.waiting with
  | [] => none
  | batch :: later =>
    pure (batch, ⟨s.live.map fun other =>
      if other.id = id then { other with waiting := later } else other⟩)

end Subscriptions

end NamedData.Sync
