import NamedData.Name.Basic
import NamedData.Duration
import NamedData.Tlv.Reader
/-!
# The parameter block of a command

Which sync group a command is about, and the limits of the session it starts. Every field is
optional; the fields stand in a fixed order and nothing else may stand in the block.
-/

namespace NamedData.Command

open Tlv

/-- What a command says. -/
structure Parameter where
  /-- The root name of the sync group. -/
  name : Option Name
  /-- How long a session goes on after the last report; zero for ever. -/
  syncTimeout : Option Duration
  /-- How many requests a session may send; zero for no bound. -/
  maxInterestNum : Option UInt64
  /-- How long each request waits. -/
  interestLifetime : Option Duration
deriving DecidableEq, Repr

namespace Parameter

/-- A block with a name and no limits. -/
def ofName (name : Name) : Parameter := ⟨some name, none, none, none⟩

/-- The fields that are there, in their order. -/
def encodeValue (p : Parameter) : Bytes :=
  (match p.name with
    | some name => name.encode
    | none => []) ++
  (match p.syncTimeout with
    | some span => writeNumber Code.syncTimeout span.wireMillis
    | none => []) ++
  (match p.maxInterestNum with
    | some n => writeNumber Code.maxInterestNum n
    | none => []) ++
  (match p.interestLifetime with
    | some span => writeNumber Code.interestLifetime span.wireMillis
    | none => [])

def encode (p : Parameter) : Bytes := Tlv.write Code.commandParameter p.encodeValue

/-- Reads a block that takes up all the bytes. -/
def decode (wire : Bytes) : Except DecodeError Parameter := do
  let outer ← Element.readSingle wire
  let outer ← outer.expectType Code.commandParameter
  let (name, r) ← (Reader.ofBytes outer.value).optional Code.name
  let name ← name.mapM fun element => Name.decodeValue element.value
  let (syncTimeout, r) ← r.optional Code.syncTimeout
  let syncTimeout ← syncTimeout.mapM Element.number
  let (maxInterestNum, r) ← r.optional Code.maxInterestNum
  let maxInterestNum ← maxInterestNum.mapM Element.number
  let (interestLifetime, r) ← r.optional Code.interestLifetime
  let interestLifetime ← interestLifetime.mapM Element.number
  if r.isEmpty then
    pure { name, syncTimeout := syncTimeout.map Duration.ofMillis, maxInterestNum,
           interestLifetime := interestLifetime.map Duration.ofMillis }
  else throw .trailingBytes

end Parameter

end NamedData.Command
