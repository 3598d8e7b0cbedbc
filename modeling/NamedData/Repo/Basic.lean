import NamedData.Packet.Interest
import NamedData.Repo.Event
import NamedData.Store.Backend
/-!
# The repository

A `Repo` is a store together with the events it has sent. Storing a packet twice is no failure;
deleting a name removes, one after another, all packets whose full names extend it, and stops at
the first that cannot be removed. Every change to the store sends one event.
-/

namespace NamedData

open Store

/-- A store and the events sent so far, oldest first. -/
structure Repo (σ : Type) where
  backend : σ
  sent : List Repo.Event

namespace Repo

/-- Why the repository refuses an operation. -/
inductive Error where
  /-- A packet cannot be stored. -/
  | insert (fullName : Name) (cause : Store.Error)
  /-- The store cannot be asked. -/
  | storage (cause : Store.Error)
deriving DecidableEq, Repr

/-- The text shown for an error. -/
def Error.message : Error → String
  | insert fullName cause => "failed to insert " ++ fullName.toUri ++ ": " ++ cause.message
  | storage cause => "storage error: " ++ cause.message

/-- What came of storing a packet. -/
inductive InsertOutcome where
  | inserted (id : Int)
  | alreadyPresent
deriving DecidableEq, Repr

/-- What came of deleting a name: how many packets went, and whether that was all of them. -/
inductive DeleteOutcome where
  | erased (count : Nat)
  | failed (erased : Nat)
deriving DecidableEq, Repr

/-- The count reported for a deletion: the packets removed, or minus one if one stayed. -/
def DeleteOutcome.count : DeleteOutcome → Int
  | erased n => n
  | failed _ => -1

variable {σ : Type} [Backend σ]

/-- A repository over a store, with nothing sent. -/
def ofBackend (backend : σ) : Repo σ := ⟨backend, []⟩

/-- Stores a packet unless it is there. -/
def insert (repo : Repo σ) (data : Data) : Except Error InsertOutcome × Repo σ :=
  match Backend.has repo.backend data.fullName with
  | .error cause => (.error (.storage cause), repo)
  | .ok true => (.ok .alreadyPresent, repo)
  | .ok false =>
    match Backend.insert repo.backend data with
    | (.ok id, backend) => (.ok (.inserted id), ⟨backend, repo.sent ++ [.inserted data.name]⟩)
    | (.error (.duplicateName _), backend) => (.ok .alreadyPresent, { repo with backend })
    | (.error cause, backend) => (.error (.insert data.fullName cause), { repo with backend })

/-- Removes the packets under a name, `erased` of them being gone already. -/
def deleteFrom (repo : Repo σ) (name : Name) (erased : Nat) : DeleteOutcome × Repo σ :=
  match Backend.find repo.backend name .extending with
  | .error _ => (.failed erased, repo)
  | .ok none => (.erased erased, repo)
  | .ok (some found) =>
    match _gone : Backend.erase repo.backend found.name with
    | (.ok true, backend) =>
      deleteFrom ⟨backend, repo.sent ++ [.deleted found.name.withoutDigest]⟩ name (erased + 1)
    | (_, backend) => (.failed erased, { repo with backend })
termination_by Backend.count repo.backend
decreasing_by
  have fewer := Backend.count_erase repo.backend found.name (by rw [_gone])
  rw [_gone] at fewer
  exact fewer

/-- Removes all packets whose full names extend a name. -/
def delete (repo : Repo σ) (name : Name) : DeleteOutcome × Repo σ := repo.deleteFrom name 0

/-- A packet under a name. -/
def read (repo : Repo σ) (name : Name) : Except Error (Option Data) :=
  (Backend.read repo.backend name).mapError .storage

/-- A packet under the name of a request. -/
def readInterest (repo : Repo σ) (interest : Interest) : Except Error (Option Data) :=
  repo.read interest.name

/-- Whether a packet is stored under a full name. -/
def has (repo : Repo σ) (fullName : Name) : Except Error Bool :=
  (Backend.has repo.backend fullName).mapError .storage

/-- How many packets the store reports. -/
def size (repo : Repo σ) : Except Error Int :=
  (Backend.size repo.backend).mapError .storage

end Repo

end NamedData
