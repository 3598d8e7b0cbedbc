import NamedData.Sync.Face
import NamedData.Sync.Group
/-!
# A network in memory

A face and the subscriptions of a sync group. What is published goes to the face, if the group is
attached to one, and is reported to the subscribers of the group as a range of one number.
-/

namespace NamedData.Sync

/-- A face, the name of a group, and the subscriptions. -/
structure Network where
  face : Face
  group : Name
  /-- Whether published packets go to the face. -/
  attached : Bool
  subscriptions : Subscriptions
deriving DecidableEq

namespace Network

/-- A network that nothing was done with. -/
def empty (group : Name) (attached : Bool) : Network := ⟨.empty, group, attached, .empty⟩

/-- The packet of a producer under a sequence number. -/
def publication (payload : Bytes) (freshness : Duration) (seq : UInt64) (producer : Name) : Data :=
  Data.Draft.sign ⟨producer.pushNumber seq, ⟨none, some freshness⟩, payload, none⟩

/-- Reports a batch for a root name, and counts those who get it. -/
def report (network : Network) (root : Name) (batch : List Range) : Nat × Network :=
  (network.subscriptions.count root,
   { network with subscriptions := network.subscriptions.report root batch })

/-- Publishes a payload. -/
def publish (network : Network) (payload : Bytes) (freshness : Duration) (seq : UInt64)
    (producer : Name) : Data × Network :=
  let data := publication payload freshness seq producer
  let face := if network.attached then network.face.put data else network.face
  (data, ({ network with face }.report network.group [⟨producer, seq, seq⟩]).2)

end Network

end NamedData.Sync
