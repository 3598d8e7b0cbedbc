import NamedData.Packet.MetaInfo
import NamedData.Packet.Signature
/-!
# Packets

A `Data` is an object as it is stored and sent: a name, facts about the content, the content and
a signature over all three. It keeps its exact bytes, because its digest, and with it its full
name, is taken over them. `Data.decode` reads the bytes of a packet; a `Data.Draft` becomes a
packet once it is signed.
-/

namespace NamedData

open Tlv

/-- A packet and the bytes it stands for. -/
structure Data where
  name : Name
  metaInfo : MetaInfo
  content : Bytes
  signatureInfo : SignatureInfo
  signatureValue : Bytes
  /-- All bytes of the packet. -/
  wire : Bytes
  /-- The bytes that the signature covers: name, facts, content and how it is signed. -/
  signedPortion : Bytes
deriving DecidableEq, Repr

namespace Data

/-! ## What follows from the bytes -/

/-- The digest of the whole packet. -/
def digest (data : Data) : Digest := Sha256.hash data.wire

/-- The name that belongs to this very packet: its name and its digest. -/
def fullName (data : Data) : Name := data.name.push (.ofDigest data.digest)

/-- Whether the signature is the digest of what it covers. -/
def verifiesDigest (data : Data) : Bool :=
  data.signatureInfo.typ = digestSignature
    && (Sha256.hash data.signedPortion).bytes = data.signatureValue

/-- The fingerprint of the key, if the packet says where the key is. -/
def fingerprint? (data : Data) : Option Digest :=
  data.signatureInfo.keyLocator.map KeyLocator.fingerprint

/-! ## Reading -/

/-- Reads a packet that takes up all the bytes. -/
def decode (wire : Bytes) : Except DecodeError Data := do
  let outer ← Element.readSingle wire
  let outer ← outer.expectType Code.data
  let (nameElement, r) ← (Reader.ofBytes outer.value).expect Code.name "Name"
  let name ← Name.decodeValue nameElement.value
  let (infoElement, r) ← r.optional Code.metaInfo
  let metaInfo ← match infoElement with
    | some element => MetaInfo.decodeValue element.value
    | none => pure MetaInfo.empty
  let (contentElement, r) ← r.optional Code.content
  let content := match contentElement with
    | some element => element.value
    | none => []
  let (signatureElement, r) ← r.expect Code.signatureInfo "SignatureInfo"
  let signatureInfo ← SignatureInfo.decodeValue signatureElement.value
  let signedPortion := outer.value.take r.position
  let (valueElement, r) ← r.expect Code.signatureValue "SignatureValue"
  if r.isEmpty then
    pure { name, metaInfo, content, signatureInfo, signatureValue := valueElement.value,
           wire, signedPortion }
  else throw .trailingBytes

/-! ## Building -/

/-- A packet that is not signed yet. -/
structure Draft where
  name : Name
  metaInfo : MetaInfo
  content : Bytes
  keyLocator : Option KeyLocator
deriving DecidableEq, Repr

namespace Draft

/-- The bytes to be signed when the signature is to be of type `typ`. -/
def signedPortion (draft : Draft) (typ : UInt64) : Bytes :=
  draft.name.encode ++ draft.metaInfo.encode ++ Tlv.write Code.content draft.content
    ++ SignatureInfo.encode ⟨typ, draft.keyLocator⟩

/-- The packet with a signature of a given type, made by `signer` from what it covers. -/
def signWith (draft : Draft) (typ : UInt64) (signer : Bytes → Bytes) : Data :=
  let signedPortion := draft.signedPortion typ
  let signatureValue := signer signedPortion
  { name := draft.name
    metaInfo := draft.metaInfo
    content := draft.content
    signatureInfo := ⟨typ, draft.keyLocator⟩
    signatureValue
    wire := Tlv.write Code.data (signedPortion ++ Tlv.write Code.signatureValue signatureValue)
    signedPortion }

/-- The packet signed by the digest of what is signed. -/
def sign (draft : Draft) : Data :=
  draft.signWith digestSignature fun signed => (Sha256.hash signed).bytes

end Draft

end Data

end NamedData
