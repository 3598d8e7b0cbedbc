import NamedData.Packet.Data
import NamedData.Store.Error
/-!
# What every store does

A backend keeps packets under their full names and hands out an id for each. Looking up by name
comes in two modes: the exact full name, or the least full name that extends a name.

An operation that changes a store returns the store in either case, so whether a failure leaves
it as it was is a fact about each backend and not built in.
-/

namespace NamedData.Store

/-- How a name is to be matched. -/
inductive Match where
  | exactly
  | extending
deriving DecidableEq, Repr

/-- A stored packet by its id and its full name. -/
structure Found where
  id : Int
  name : Name
deriving DecidableEq, Repr

/-- A store of packets. -/
class Backend (σ : Type) where
  /-- Stores a packet and gives its id. -/
  insert : σ → Data → Except Error Int × σ
  /-- Removes the packet of a full name, and tells whether there was one. -/
  erase : σ → Name → Except Error Bool × σ
  /-- The first packet whose full name extends a name. -/
  read : σ → Name → Except Error (Option Data)
  /-- Whether a packet is stored under a full name. -/
  has : σ → Name → Except Error Bool
  find : σ → Name → Match → Except Error (Option Found)
  /-- How many packets the store reports. -/
  size : σ → Except Error Int
  /-- How many packets the store holds. -/
  count : σ → Nat
  /-- Removing a packet leaves fewer. -/
  count_erase : ∀ store name, (erase store name).1 = .ok true →
    count (erase store name).2 < count store

/-- The fingerprint of the key of a packet. -/
def fingerprint (data : Data) : Except Error Digest :=
  match data.fingerprint? with
  | some digest => .ok digest
  | none => .error .noKeyLocator

end NamedData.Store
