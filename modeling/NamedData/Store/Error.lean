import NamedData.Name.Uri
/-!
# Ways in which a store can refuse
-/

namespace NamedData.Store

open Tlv

/-- Why an index refuses an entry. -/
inductive IndexError where
  /-- The index holds as many entries as it may. -/
  | full (capacity : Nat)
  /-- An id that is not positive. -/
  | invalidId (id : Int)
deriving DecidableEq, Repr

/-- The text shown for an error of the index. -/
def IndexError.message : IndexError → String
  | full capacity => s!"index is full: capacity {capacity} entries"
  | invalidId id => s!"index ids must be positive, got {id}"

/-- Why a store refuses an operation. -/
inductive Error where
  | emptyName
  | duplicateName (fullName : Name)
  | noKeyLocator
  | index (cause : IndexError)
  /-- Stored bytes are no packet. -/
  | decode (cause : DecodeError)
  /-- The medium failed. -/
  | io (reason : String)
deriving DecidableEq, Repr

/-- The text shown for an error of a store. -/
def Error.message : Error → String
  | emptyName => "cannot store data with an empty name"
  | duplicateName fullName => "data already stored under " ++ fullName.toUri
  | noKeyLocator => "data has no key locator"
  | index cause => "index error: " ++ cause.message
  | decode cause => "decode error: " ++ cause.message
  | io reason => "io error: " ++ reason

end NamedData.Store
