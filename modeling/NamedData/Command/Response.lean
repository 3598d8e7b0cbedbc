/-!
# Replies to commands

A reply is a status code and the number of objects that the session has stored.
-/

namespace NamedData.Command

/-- The statuses that a reply can report. -/
inductive Status where
  /-- The command was taken up. -/
  | inProgress
  /-- The session is stopped. -/
  | stopped
  /-- The session is fetching. -/
  | fetching
  /-- The command is not signed as it has to be. -/
  | unauthorized
  /-- The command cannot be read, or names no session. -/
  | malformed
  /-- There is no such session. -/
  | notFound
deriving DecidableEq, Repr

/-- The code of a status. -/
def Status.code : Status → UInt32
  | inProgress => 100
  | stopped => 101
  | fetching => 300
  | unauthorized => 401
  | malformed => 403
  | notFound => 404

/-- The reply to a command. -/
structure Response where
  statusCode : UInt32
  insertNum : Nat
deriving DecidableEq, Repr

namespace Response

/-- A code, and nothing stored. -/
def ofCode (statusCode : UInt32) : Response := ⟨statusCode, 0⟩

/-- A status, and nothing stored. -/
def ofStatus (status : Status) : Response := ofCode status.code

/-- The reply as a JSON object. -/
def json (response : Response) : String :=
  "\x7b\"status_code\":" ++ toString response.statusCode
    ++ ",\"insert_num\":" ++ toString response.insertNum ++ "\x7d"

end Response

end NamedData.Command
