import NamedData.Duration
import NamedData.Packet.Signature
/-!
# Requests

An `Interest` asks for an object under a name. A signed one carries its signature in the last two
components of the name: how it is signed, and the digest of the name so far.
-/

namespace NamedData

open Tlv

/-- A request for an object. -/
structure Interest where
  name : Name
  /-- How long the asker waits for an answer. -/
  lifetime : Duration
  mustBeFresh : Bool
  /-- The fingerprint of the only key whose packets are wanted. -/
  publisher : Option Digest
deriving DecidableEq

namespace Interest

/-- The wait of a request that names none: four seconds. -/
def defaultLifetime : Duration := .ofMillis 4000

/-- A request with nothing but a name. -/
def ofName (name : Name) : Interest := ⟨name, defaultLifetime, false, none⟩

/-- The request with a digest signature at the end of its name. -/
def sign (interest : Interest) : Interest :=
  let signed := interest.name.push (.generic (SignatureInfo.encode ⟨digestSignature, none⟩))
  let value := (Sha256.hash signed.encodeValue).bytes
  { interest with name := signed.push (.generic (Tlv.write Code.signatureValue value)) }

/-- The value of a component that holds exactly one element of a type. -/
def soleElement? (c : Component) (typ : UInt64) : Option Bytes :=
  match Element.readSingle c.value with
  | .ok element => if element.typ = typ then some element.value else none
  | .error _ => none

/-- The signature at the end of the name, if its last two components are one. -/
def signature? (interest : Interest) : Option (SignatureInfo × Bytes) := do
  guard (2 ≤ interest.name.length)
  let info ← soleElement? (← interest.name.get? (interest.name.length - 2)) Code.signatureInfo
  let info ← (SignatureInfo.decodeValue info).toOption
  let value ← soleElement? (← interest.name.get? (interest.name.length - 1)) Code.signatureValue
  pure (info, value)

/-- Whether the name ends in the digest of all that stands before it. -/
def verifiesDigest (interest : Interest) : Bool :=
  match interest.signature? with
  | none => false
  | some (info, value) =>
    info.typ = digestSignature
      && (Sha256.hash (interest.name.take (interest.name.length - 1)).encodeValue).bytes = value

end Interest

end NamedData
