/-!
# Ways in which reading an element can fail
-/

namespace NamedData.Tlv

/-- Why bytes are not the element, number or block that a reader looked for. -/
inductive DecodeError where
  /-- The bytes end inside a number or a value. -/
  | truncated
  /-- An element of another type stands where one of type `expected` is required. -/
  | unexpectedType (expected found : UInt64)
  /-- No element stands where `what` is required. -/
  | missing (what : String)
  /-- A number is written in `length` bytes, which is none of the four widths. -/
  | invalidInteger (length : Nat)
  /-- A digest component has `length` bytes instead of thirty-two. -/
  | invalidDigestLength (length : Nat)
  /-- Bytes follow where nothing may follow. -/
  | trailingBytes
deriving DecidableEq, Repr

namespace DecodeError

/-- The text shown for an error. -/
def message : DecodeError → String
  | truncated => "buffer truncated while reading TLV"
  | unexpectedType expected found => s!"unexpected TLV type: expected {expected}, found {found}"
  | missing what => s!"missing required element: {what}"
  | invalidInteger length => s!"invalid non-negative integer length: {length}"
  | invalidDigestLength length => s!"implicit digest component must be 32 bytes, got {length}"
  | trailingBytes => "trailing bytes after TLV element"

end DecodeError

end NamedData.Tlv
