import NamedData.Sha256
import NamedData.Tlv.Code
import NamedData.Tlv.Element
/-!
# Name components

A component is a type number and a value. Components are ordered by type, then by the length of
the value, then by its bytes; `successor` is the next component of the same type in that order.
-/

namespace NamedData

open Tlv

/-- One step of a name. -/
structure Component where
  typ : UInt64
  value : Bytes
deriving DecidableEq, Repr

namespace Component

/-! ## Building -/

/-- A component with free content. -/
def generic (value : Bytes) : Component := ⟨Code.genericComponent, value⟩

/-- A generic component that holds the bytes of a text. -/
def ofText (text : String) : Component := generic (Bytes.ofText text)

/-- A generic component that holds a number, as sequence numbers are held. -/
def ofNumber (n : UInt64) : Component := generic (NonNeg.encode n)

/-- The component that turns the name of a packet into its full name. -/
def ofDigest (digest : Digest) : Component := ⟨Code.digestComponent, digest.bytes⟩

/-! ## Reading a component -/

def isDigest (c : Component) : Bool := c.typ = Code.digestComponent

/-- The value as a number, if it has the width of one. -/
def toNumber? (c : Component) : Option UInt64 := (NonNeg.decode c.value).toOption

/-! ## Order -/

instance : Ord Component where
  compare := compareLex (compareOn Component.typ)
    (compareLex (compareOn fun c => c.value.length) (compareOn Component.value))

instance : LT Component := ltOfOrd

/-- Adds one to a big-endian number in place; the flag tells that it ran over to all zeros. -/
def increment : Bytes → Bytes × Bool
  | [] => ([], true)
  | byte :: rest =>
    match increment rest with
    | (tail, false) => (byte :: tail, false)
    | (tail, true) => if byte = 0xFF then (0 :: tail, true) else ((byte + 1) :: tail, false)

/-- The next component of the same type: the value counted up, or zeros one byte longer. -/
def successor (c : Component) : Component :=
  match increment c.value with
  | (value, false) => ⟨c.typ, value⟩
  | (_, true) => ⟨c.typ, List.replicate (c.value.length + 1) 0⟩

/-! ## Wire form -/

/-- The element that stands for a component. -/
def encode (c : Component) : Bytes := Tlv.write c.typ c.value

/-- An element as a component; one of the digest type has to have the length of a digest. -/
def ofElement (element : Element) : Except DecodeError Component :=
  if element.typ = Code.digestComponent ∧ element.value.length ≠ 32 then
    .error (.invalidDigestLength element.value.length)
  else .ok ⟨element.typ, element.value⟩

end Component

end NamedData
