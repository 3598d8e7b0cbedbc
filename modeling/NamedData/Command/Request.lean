import NamedData.Command.Parameter
import NamedData.Packet.Interest
/-!
# Commands in names

A command is the name `<root>/sync/<verb>/<parameter block>` of a signed request. `interest` makes
one and `parse` reads the verb and the block back, whatever stands after them in the name.
-/

namespace NamedData.Command

open Tlv

/-- What is to be done with a sync session. -/
inductive Verb where
  | start
  | check
  | stop
deriving DecidableEq, Repr

namespace Verb

/-- The component text of a verb. -/
def text : Verb → String
  | start => "start"
  | check => "check"
  | stop => "stop"

/-- The verb that a component value spells. -/
def ofBytes? (value : Bytes) : Option Verb :=
  [start, check, stop].find? fun verb => Bytes.ofText verb.text = value

end Verb

/-- The text of the component that every command has after the root. -/
def family : String := "sync"

/-- The name of a command, not signed yet. -/
def name (root : Name) (verb : Verb) (parameter : Parameter) : Name :=
  ((root.pushText family).pushText verb.text).push (.generic parameter.encode)

/-- The signed request that carries a command. -/
def interest (root : Name) (verb : Verb) (parameter : Parameter) : Interest :=
  (Interest.ofName (name root verb parameter)).sign

/-- Why a name is no command. -/
inductive Error where
  | wrongPrefix
  | unknownVerb
  | missingParameter
  | malformed (cause : DecodeError)
deriving DecidableEq, Repr

/-- The text shown for an error. -/
def Error.message : Error → String
  | wrongPrefix => "name is not under the command prefix"
  | unknownVerb => "unknown command verb"
  | missingParameter => "missing parameter component"
  | malformed cause => "malformed parameter block: " ++ cause.message

/-- The verb and the block of a command under `root`. Only the values of the components count,
not their types. -/
def parse (root : Name) (name : Name) : Except Error (Verb × Parameter) := do
  let value? (offset : Nat) := (name.get? (root.length + offset)).map Component.value
  if !root.isPrefixOf name || value? 0 ≠ some (Bytes.ofText family) then throw .wrongPrefix
  let some verb := (value? 1).bind Verb.ofBytes? | throw .unknownVerb
  let some block := value? 2 | throw .missingParameter
  match Parameter.decode block with
  | .ok parameter => pure (verb, parameter)
  | .error cause => throw (.malformed cause)

end NamedData.Command
