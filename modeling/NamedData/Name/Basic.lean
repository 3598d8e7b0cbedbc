import NamedData.Name.Component
/-!
# Names

A name is a list of components, ordered component by component, so that a name comes just before
all names that extend it. `successor` bounds those extensions from above. The encoding of a name
is the encodings of its components one after another.
-/

namespace NamedData

open Tlv

/-- The name of an object, or of a set of objects that extend it. -/
structure Name where
  components : List Component
deriving DecidableEq, Repr

namespace Name

instance : Inhabited Name := ⟨⟨[]⟩⟩

/-! ## Parts -/

/-- The name without components. -/
def empty : Name := ⟨[]⟩

def length (name : Name) : Nat := name.components.length

def isEmpty (name : Name) : Bool := name.components.isEmpty

/-- The component at an index, counted from the front. -/
def get? (name : Name) (index : Nat) : Option Component := name.components[index]?

def last? (name : Name) : Option Component := name.components.getLast?

/-- The first `count` components. -/
def take (name : Name) (count : Nat) : Name := ⟨name.components.take count⟩

/-- The name with one more component at its end. -/
def push (name : Name) (c : Component) : Name := ⟨name.components ++ [c]⟩

/-- The name with a text as one more generic component. -/
def pushText (name : Name) (text : String) : Name := name.push (.ofText text)

/-- The name with a number as one more generic component. -/
def pushNumber (name : Name) (n : UInt64) : Name := name.push (.ofNumber n)

/-- The name without a digest component at its end, if there is one. -/
def withoutDigest (name : Name) : Name :=
  match name.last? with
  | some c => if c.isDigest then ⟨name.components.dropLast⟩ else name
  | none => name

/-! ## Order -/

instance : Ord Name where
  compare := compareOn Name.components

instance : LT Name := ltOfOrd

/-- Whether every component of `name` stands at the front of `other`. -/
def isPrefixOf (name other : Name) : Bool := name.components.isPrefixOf other.components

/-- The least name after `name` and all its extensions: its last component counted up. The empty
name, which nothing bounds, is given the least name of one component that is a digest. -/
def successor (name : Name) : Name :=
  match name.last? with
  | some c => ⟨name.components.dropLast ++ [c.successor]⟩
  | none => ⟨[⟨Code.digestComponent, List.replicate 32 0⟩]⟩

/-! ## Wire form -/

/-- The components one after another. -/
def encodeValue (name : Name) : Bytes := name.components.flatMap Component.encode

/-- The name as one element. -/
def encode (name : Name) : Bytes := Tlv.write Code.name name.encodeValue

/-- Reads components to the end of the bytes. -/
def decodeComponents (bytes : Bytes) : Except DecodeError (List Component) :=
  if bytes.isEmpty then .ok []
  else
    match _done : Element.read bytes with
    | .error e => .error e
    | .ok element =>
      match Component.ofElement element with
      | .error e => .error e
      | .ok c => (decodeComponents (bytes.drop element.wire.length)).map (c :: ·)
termination_by bytes.length
decreasing_by
  have := Element.wire_length_of_read _done
  rw [List.length_drop]
  omega

/-- The name whose components the bytes are. -/
def decodeValue (bytes : Bytes) : Except DecodeError Name :=
  (decodeComponents bytes).map Name.mk

/-- The name that the bytes are one element of. -/
def decode (wire : Bytes) : Except DecodeError Name := do
  let element ← Element.readSingle wire
  let element ← element.expectType Code.name
  decodeValue element.value

end Name

end NamedData
