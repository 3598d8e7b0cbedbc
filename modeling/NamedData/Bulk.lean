import NamedData.Repo.Basic
/-!
# Storing packets from a byte stream

A connection sends packets one after another as a stream of bytes. The receiver has a buffer of
fixed size: whole elements at its front are taken out, and packets among them stored; the rest
waits for more bytes. An element that fills the buffer without being whole ends the connection.

The stream comes in pieces of any size; how it is cut makes no difference to what is stored.
-/

namespace NamedData.Bulk

open Tlv

/-- The bytes that the receiver can hold: the size of the largest packet. -/
def bufferSize : Nat := 8800

/-- Why a connection is dropped. -/
inductive Error where
  /-- An element does not fit into the buffer. -/
  | oversized
deriving DecidableEq, Repr

/-- The text shown for an error. -/
def Error.message : Error → String
  | oversized => "element does not fit in the 8800 byte receive buffer"

/-- A connection, and the repository behind it. -/
structure Connection (σ : Type) where
  /-- The bytes that wait to become a whole element. -/
  buffer : Bytes
  /-- How many packets the repository has taken. -/
  accepted : Nat
  /-- Why the connection was dropped, if it was. -/
  dropped : Option Error
  repo : Repo σ

namespace Connection

variable {σ : Type} [Store.Backend σ]

/-- A connection that nothing has come through. -/
def ofRepo (repo : Repo σ) : Connection σ := ⟨[], 0, none, repo⟩

/-- Stores an element that is a packet. Any other, and a packet that is refused, is passed over. -/
def take (c : Connection σ) (element : Element) : Connection σ :=
  if element.typ ≠ Code.data then c
  else
    match Data.decode element.wire with
    | .error _ => c
    | .ok data =>
      match c.repo.insert data with
      | (.ok _, repo) => { c with accepted := c.accepted + 1, repo }
      | (.error _, repo) => { c with repo }

/-- Takes whole elements out of the front of the buffer. -/
def drain (c : Connection σ) : Connection σ :=
  match _whole : Element.read c.buffer with
  | .error _ => c
  | .ok element =>
    drain { c.take element with buffer := c.buffer.drop element.wire.length }
termination_by c.buffer.length
decreasing_by
  have := Element.wire_length_of_read _whole
  rw [List.length_drop]
  omega

/-- One read from the stream: bytes that fit into the free space come in, and whole elements are
taken out. A buffer that is still full afterwards ends the connection. -/
def receive (c : Connection σ) (bytes : Bytes) : Connection σ :=
  let c := drain { c with buffer := c.buffer ++ bytes }
  if c.buffer.length < bufferSize then c else { c with dropped := some .oversized }

/-- Takes in a piece of the stream of any size, as much at a time as there is free space. What
comes after the connection was dropped is lost. -/
def feed (c : Connection σ) (piece : Bytes) : Connection σ :=
  if c.dropped.isSome ∨ piece = [] then c
  else
    let free := bufferSize - c.buffer.length
    if _full : free = 0 then { c with dropped := some .oversized }
    else feed (c.receive (piece.take free)) (piece.drop free)
termination_by piece.length
decreasing_by
  rename_i inUse
  have : piece.length ≠ 0 := fun none => inUse (Or.inr (List.length_eq_zero_iff.1 none))
  rw [List.length_drop]
  omega

/-- How a connection ends: the packets taken, or why it was dropped. -/
def result (c : Connection σ) : Except Error Nat :=
  match c.dropped with
  | none => .ok c.accepted
  | some cause => .error cause

/-- A whole connection, piece by piece to the end of the stream. -/
def serve (repo : Repo σ) (pieces : List Bytes) : Except Error Nat × Repo σ :=
  let c := pieces.foldl feed (ofRepo repo)
  (c.result, c.repo)

end Connection

end NamedData.Bulk
