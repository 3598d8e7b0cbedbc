import NamedData.Store.Storage
import NamedData.Sync.Node
/-!
# The server

A server is a repository over a store of either kind, together with the manager that fills it. It
can be closed, after which the repository can still be looked into but nobody commands the
manager; and it can be opened again, with a fresh manager over the store that comes back.
-/

namespace NamedData

open Store Sync

/-- What a server is opened with. -/
structure Server.Setting where
  kind : Kind
  capacity : Nat
  sync : Sync.Setting

/-- A node, and whether anyone still holds the handle of its manager. -/
structure Server where
  setting : Server.Setting
  node : Node Storage
  held : Bool

namespace Server

/-- What a server says about itself. -/
structure Status where
  commandRoot : Name
  kind : Kind
  packets : Int
  capacity : Nat
deriving DecidableEq, Repr

/-- A server with nothing stored. -/
def create (setting : Server.Setting) (network : Network) : Server where
  setting
  node := .fresh setting.sync 0 network (.ofBackend (.empty setting.kind setting.capacity))
  held := true

def status (server : Server) : Except Repo.Error Status :=
  server.node.repo.size.map fun packets =>
    ⟨server.setting.sync.commandRoot, server.setting.kind, packets, server.setting.capacity⟩

/-- Lets go of the manager. -/
def close (server : Server) : Server :=
  { server with node := server.node.close, held := false }

/-- Closes the server and opens it anew; the network and the clock go on. -/
def reopen (server : Server) : Except Store.Error Unit × Server :=
  let closed := server.close
  match (Handle.opened closed.node.repo.backend).reopen server.setting.capacity with
  | (.ok (), .opened storage) =>
    (.ok (), { server with
      node := .fresh server.setting.sync closed.node.now closed.node.network (.ofBackend storage)
      held := true })
  | (.ok (), .closed _) => (.ok (), closed)
  | (.error cause, _) => (.error cause, closed)

/-- A change to the node of the server. -/
def update (server : Server) (change : Node Storage → α × Node Storage) : α × Server :=
  let (result, node) := change server.node
  (result, { server with node })

end Server

end NamedData
