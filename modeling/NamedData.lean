import NamedData.Bulk
import NamedData.Bytes
import NamedData.Command.Parameter
import NamedData.Command.Request
import NamedData.Command.Response
import NamedData.Config
import NamedData.Duration
import NamedData.Name.Basic
import NamedData.Name.Component
import NamedData.Name.Order
import NamedData.Name.Uri
import NamedData.Net.SocketAddress
import NamedData.Packet.Data
import NamedData.Packet.Interest
import NamedData.Packet.MetaInfo
import NamedData.Packet.Signature
import NamedData.Repo.Basic
import NamedData.Repo.Event
import NamedData.Server
import NamedData.Sha256
import NamedData.Store.Backend
import NamedData.Store.Durable
import NamedData.Store.Error
import NamedData.Store.Fault
import NamedData.Store.Index
import NamedData.Store.Memory
import NamedData.Store.Storage
import NamedData.Store.Table
import NamedData.Sync.Clock
import NamedData.Sync.Face
import NamedData.Sync.Group
import NamedData.Sync.Manager
import NamedData.Sync.Network
import NamedData.Sync.Node
import NamedData.Sync.Range
import NamedData.Sync.Session
import NamedData.Text.Decimal
import NamedData.Tlv.Code
import NamedData.Tlv.Element
import NamedData.Tlv.Error
import NamedData.Tlv.Number
import NamedData.Tlv.Reader
import NamedData.Validator
import NamedData.Proofs.Tlv.Element
import NamedData.Proofs.Tlv.Number
import NamedData.Proofs.Tlv.Reader
import NamedData.Proofs.Tlv.Stability
import NamedData.Proofs.Name.ByteOrder
import NamedData.Proofs.Name.Canonical
import NamedData.Proofs.Name.Extension
import NamedData.Proofs.Name.Path
import NamedData.Proofs.Name.Uri
import NamedData.Proofs.Name.Wire
import NamedData.Proofs.Packet.Blocks
import NamedData.Proofs.Packet.Grammar
import NamedData.Proofs.Packet.Signature
import NamedData.Proofs.Packet.Wire
import NamedData.Proofs.Command.Block
import NamedData.Proofs.Command.Wire
import NamedData.Proofs.Store.Durable
import NamedData.Proofs.Store.Index
import NamedData.Proofs.Store.Interchange
import NamedData.Proofs.Store.Lookup
import NamedData.Proofs.Store.Objects
import NamedData.Proofs.Store.Orphan
import NamedData.Proofs.Store.Presence
import NamedData.Proofs.Store.Reading
import NamedData.Proofs.Store.Refusal
import NamedData.Proofs.Store.Scan
import NamedData.Proofs.Store.Verdict
import NamedData.Proofs.Repo.Covers
import NamedData.Proofs.Repo.Damage
import NamedData.Proofs.Repo.Deletion
import NamedData.Proofs.Repo.Events
import NamedData.Proofs.Repo.Ingestion
import NamedData.Proofs.Repo.Retention
import NamedData.Proofs.Sync.Bookkeeping
import NamedData.Proofs.Sync.Budget
import NamedData.Proofs.Sync.Command
import NamedData.Proofs.Sync.Conservation
import NamedData.Proofs.Sync.Course
import NamedData.Proofs.Sync.Face
import NamedData.Proofs.Sync.Failure
import NamedData.Proofs.Sync.Grace
import NamedData.Proofs.Sync.Holdings
import NamedData.Proofs.Sync.Inert
import NamedData.Proofs.Sync.Ingest
import NamedData.Proofs.Sync.Isolation
import NamedData.Proofs.Sync.Log
import NamedData.Proofs.Sync.Manager
import NamedData.Proofs.Sync.Provenance
import NamedData.Proofs.Sync.Range
import NamedData.Proofs.Sync.Report
import NamedData.Proofs.Sync.Start
import NamedData.Proofs.Sync.System
import NamedData.Proofs.Sync.Timeout
import NamedData.Proofs.Bulk.Stream
