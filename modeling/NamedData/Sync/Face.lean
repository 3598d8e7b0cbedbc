import NamedData.Packet.Data
import NamedData.Packet.Interest
/-!
# A face in memory

Requests go out through a face and packets come back. This one holds packets in a queue: a
request takes the first packet whose name extends its own, so every packet is given out at most
once. A request under a refused name is turned down at once; one that nothing answers times out
after its lifetime. All requests are recorded in order.
-/

namespace NamedData.Sync

/-- Why a request brought no packet. -/
inductive FetchError where
  | timeout
  | nack (reason : String)
deriving DecidableEq, Repr

/-- The text shown for an error. -/
def FetchError.message : FetchError → String
  | timeout => "interest timed out"
  | nack reason => "interest nacked: " ++ reason

/-- Packets to give out, names to refuse, and the requests so far. -/
structure Face where
  queued : List Data
  refused : List Name
  expressed : List Interest
deriving DecidableEq

namespace Face

/-- A face that nothing was done with. -/
def empty : Face := ⟨[], [], []⟩

/-- Adds a packet at the end of the queue. -/
def put (face : Face) (data : Data) : Face := { face with queued := face.queued ++ [data] }

/-- Refuses requests under a name from now on. -/
def refuse (face : Face) (name : Name) : Face := { face with refused := face.refused ++ [name] }

/-- What a face does with a request. -/
inductive Answer where
  | delivered (data : Data)
  | refused
  /-- Nothing comes, and the request times out. -/
  | silence
deriving DecidableEq

/-- The first packet that answers a name, and the queue without it. -/
def take? (name : Name) : List Data → Option (Data × List Data)
  | [] => none
  | data :: rest =>
    if name.isPrefixOf data.name then some (data, rest)
    else (take? name rest).map fun (found, others) => (found, data :: others)

/-- Sends a request out. -/
def express (face : Face) (interest : Interest) : Answer × Face :=
  let face := { face with expressed := face.expressed ++ [interest] }
  if face.refused.any fun name => name.isPrefixOf interest.name then (.refused, face)
  else
    match take? interest.name face.queued with
    | some (data, queued) => (.delivered data, { face with queued })
    | none => (.silence, face)

/-- The error of a refused request. -/
def refusal : FetchError := .nack "no route"

end Face

end NamedData.Sync
