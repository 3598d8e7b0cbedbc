import NamedData.Name.Basic
import NamedData.Tlv.Reader
/-!
# Signature blocks

How a packet is signed: a type number and where the key is to be found. The one type that the
library can make and check is a plain SHA-256 digest.
-/

namespace NamedData

open Tlv

/-- Where the key of a signature is to be found. -/
inductive KeyLocator where
  | name (owner : Name)
  | digest (bytes : Bytes)
deriving DecidableEq, Repr

namespace KeyLocator

/-- The one element inside the locator. -/
def encodeValue : KeyLocator → Bytes
  | .name owner => owner.encode
  | .digest bytes => Tlv.write Code.keyDigest bytes

def encode (locator : KeyLocator) : Bytes := Tlv.write Code.keyLocator locator.encodeValue

/-- Reads a locator, which holds exactly one element. -/
def decodeValue (value : Bytes) : Except DecodeError KeyLocator := do
  let inner ← Element.readSingle value
  if inner.typ = Code.name then (Name.decodeValue inner.value).map .name
  else if inner.typ = Code.keyDigest then pure (.digest inner.value)
  else throw (.unexpectedType Code.name inner.typ)

/-- The digest by which packets of one key are told apart. -/
def fingerprint (locator : KeyLocator) : Digest := Sha256.hash locator.encode

end KeyLocator

/-- The type number of a signature that is the digest of what is signed. -/
def digestSignature : UInt64 := 0

/-- How a packet is signed. -/
structure SignatureInfo where
  typ : UInt64
  keyLocator : Option KeyLocator
deriving DecidableEq, Repr

namespace SignatureInfo

/-- The elements inside the block. -/
def encodeValue (info : SignatureInfo) : Bytes :=
  writeNumber Code.signatureType info.typ ++
  (match info.keyLocator with
    | some locator => locator.encode
    | none => [])

def encode (info : SignatureInfo) : Bytes := Tlv.write Code.signatureInfo info.encodeValue

/-- Reads the type and, if it follows, the locator. -/
def decodeValue (value : Bytes) : Except DecodeError SignatureInfo := do
  let (typ, r) ← (Reader.ofBytes value).expect Code.signatureType "SignatureType"
  let typ ← typ.number
  let (keyLocator, _) ← r.optional Code.keyLocator
  let keyLocator ← keyLocator.mapM fun element => KeyLocator.decodeValue element.value
  pure { typ, keyLocator }

end SignatureInfo

end NamedData
