import NamedData.Packet.Data
import NamedData.Packet.Interest
import NamedData.Name.Uri
/-!
# Validation

A `Validator` decides which packets may be stored and which signed requests may command. The one
policy of substance is the digest policy: a packet has to carry its own digest as signature, and
a command has to stand under the command prefix and end in its own digest.
-/

namespace NamedData

/-- Why a packet or a command is not accepted. -/
inductive ValidationError where
  | unsupportedSignature (name : Name) (typ : UInt64)
  | digestMismatch (name : Name)
  | outsidePrefix (name root : Name)
  | badCommandSignature (name : Name)
  /-- Nothing is accepted. -/
  | rejected (name : Name)
deriving DecidableEq, Repr

namespace ValidationError

/-- What is wrong. -/
def reason : ValidationError → String
  | unsupportedSignature name typ => name.toUri ++ s!": unsupported signature type {typ}"
  | digestMismatch name => name.toUri ++ ": digest mismatch"
  | outsidePrefix name root => name.toUri ++ " is outside command prefix " ++ root.toUri
  | badCommandSignature name => name.toUri ++ ": missing or invalid command signature"
  | rejected name => "rejected " ++ name.toUri

/-- The text shown for an error. -/
def message (e : ValidationError) : String := "validation failed: " ++ e.reason

end ValidationError

/-- A policy for packets and for commands. -/
structure Validator where
  checkData : Data → Except ValidationError Unit
  checkCommand : Interest → Except ValidationError Unit

namespace Validator

/-- Packets and commands signed by their own digest, commands under `root` only. -/
def digest (root : Name) : Validator where
  checkData data :=
    if data.signatureInfo.typ ≠ digestSignature then
      .error (.unsupportedSignature data.name data.signatureInfo.typ)
    else if data.verifiesDigest then .ok ()
    else .error (.digestMismatch data.name)
  checkCommand interest :=
    if !root.isPrefixOf interest.name then .error (.outsidePrefix interest.name root)
    else if interest.verifiesDigest then .ok ()
    else .error (.badCommandSignature interest.name)

/-- Everything. -/
def acceptAll : Validator := ⟨fun _ => .ok (), fun _ => .ok ()⟩

/-- Nothing. -/
def rejectAll : Validator :=
  ⟨fun data => .error (.rejected data.name), fun interest => .error (.rejected interest.name)⟩

end Validator

end NamedData
