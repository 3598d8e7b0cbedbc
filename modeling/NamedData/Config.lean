import NamedData.Duration
import NamedData.Name.Uri
import NamedData.Net.SocketAddress
import NamedData.Store.Storage
/-!
# Configuration

A server is configured by environment variables, each with a value that holds where it is not
set. `Config.ofEnvironment` reads them in a fixed order and reports the first that is wrong.
-/

namespace NamedData

open Net Store

/-- What a server is configured to. -/
structure Config where
  /-- The directory of a durable store. -/
  directory : String
  /-- The name under which commands stand. -/
  commandRoot : Name
  /-- How many packets the store may hold. -/
  capacity : Nat
  kind : Kind
  /-- Where to listen for streams of packets. -/
  bulkAddress : Option SocketAddress
  /-- How long a stopped session is remembered. -/
  grace : Duration
deriving DecidableEq, Repr

namespace Config

/-- Which variable is wrong, and its value. -/
inductive Error where
  | commandRoot (value : String)
  | capacity (value : String)
  | kind (value : String)
  | bulkAddress (value : String)
  | grace (value : String)
deriving DecidableEq, Repr

/-- The text shown for an error. -/
def Error.message : Error → String
  | commandRoot value => "NDNREPO_COMMAND_PREFIX is not a valid name: " ++ value
  | capacity value => "NDNREPO_MAX_PACKETS must be a positive integer: " ++ value
  | kind value => "NDNREPO_STORAGE must be `sqlite` or `memory`: " ++ value
  | bulkAddress value => "NDNREPO_BULK_INSERT_ADDR is not a valid socket address: " ++ value
  | grace value => "NDNREPO_SESSION_GRACE_MS must be a non-negative integer: " ++ value

/-- The values of the variables that are set. -/
abbrev Environment := String → Option String

/-- The word for a kind of store. -/
def kindText : Kind → String
  | .durable => "sqlite"
  | .memory => "memory"

/-- The time for which a stopped session is remembered where nothing is said: ten seconds. -/
def defaultGrace : Duration := .ofMillis 10000

/-- A file or directory inside a directory, one slash between them; no slash after the empty
path. -/
def within (directory file : String) : String :=
  if directory.toList.getLast?.all (· = '/') then directory ++ file else directory ++ "/" ++ file

/-- A variable with a value that holds where it is not set, read by `read?`. -/
def setting (env : Environment) (key : String) (default : α) (error : String → Error)
    (read? : String → Option α) : Except Error α :=
  match env key with
  | none => .ok default
  | some value =>
    match read? value with
    | some a => .ok a
    | none => .error (error value)

/-- The directory: as set, or one in the home directory, or one under `/tmp`. -/
def directoryOf (env : Environment) : String :=
  (env "NDNREPO_DB_DIR").getD (within ((env "HOME").getD "/tmp") ".ndnrepo")

/-- Reads the path of a name that is not empty. -/
def readRoot? (value : String) : Option Name :=
  (Name.ofUri value).toOption.filter fun name => !name.isEmpty

/-- Reads a number that fits into 64 bits. -/
def readWord? (value : String) : Option Nat := Text.Decimal.parse? UInt64.size value.toList

/-- Reads the word for a kind of store. -/
def readKind? (value : String) : Option Kind :=
  [Kind.durable, Kind.memory].find? fun kind => kindText kind = value

/-- Reads an address; an empty value says that there is none. -/
def readAddress? (value : String) : Option (Option SocketAddress) :=
  if value = "" then some none else (SocketAddress.parse? value).map some

/-- The configuration that an environment gives. -/
def ofEnvironment (env : Environment) : Except Error Config := do
  let root ← setting env "NDNREPO_COMMAND_PREFIX" ((⟨[.ofText "repo", .ofText "command"]⟩ : Name))
    .commandRoot readRoot?
  let capacity ← setting env "NDNREPO_MAX_PACKETS" 100000 .capacity
    fun value => (readWord? value).filter (0 < ·)
  let kind ← setting env "NDNREPO_STORAGE" .durable .kind readKind?
  let bulkAddress ← setting env "NDNREPO_BULK_INSERT_ADDR" none .bulkAddress readAddress?
  let grace ← setting env "NDNREPO_SESSION_GRACE_MS" defaultGrace .grace
    fun value => (readWord? value).map fun n => .ofMillis (UInt64.ofNat n)
  pure { directory := directoryOf env, commandRoot := root, capacity, kind, bulkAddress, grace }

end Config

end NamedData
