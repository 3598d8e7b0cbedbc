import NamedData.Name.Basic
/-!
# Names as text

`Name.toUri` writes a name as a path with one segment per component; `Name.ofUri` reads such a
path. Bytes other than letters, digits and `-._~` are escaped as a percent sign and two digits,
and values that are empty or dots only are set apart by three dots in front.
-/

namespace NamedData

open Tlv

/-! ## Writing -/

namespace Uri

/-- Bytes that stand for themselves: letters, digits and four marks. -/
def isPlain (byte : UInt8) : Bool :=
  (48 ≤ byte && byte ≤ 57) || (65 ≤ byte && byte ≤ 90) || (97 ≤ byte && byte ≤ 122)
    || byte = 45 || byte = 46 || byte = 95 || byte = 126

/-- A digit of an escape, in upper case. -/
def escapeDigit (n : Nat) : Char := if n < 10 then Char.ofNat (48 + n) else Char.ofNat (55 + n)

/-- One byte of a value as text. -/
def escapeByte (byte : UInt8) : List Char :=
  if isPlain byte then [Char.ofNat byte.toNat]
  else ['%', escapeDigit (byte.toNat / 16), escapeDigit (byte.toNat % 16)]

/-- A value as text; one of dots only, or empty, gains three dots. -/
def escape (value : Bytes) : List Char :=
  (if value.all (· = 46) then ['.', '.', '.'] else []) ++ value.flatMap escapeByte

end Uri

/-- The segment of a component: digests under their own key, generic values bare, all others
under their type number. -/
def Component.toUriChars (c : Component) : List Char :=
  if c.typ = Code.digestComponent then "sha256digest=".toList ++ Bytes.hexDigits c.value
  else if c.typ = Code.genericComponent then Uri.escape c.value
  else (toString c.typ).toList ++ '=' :: Uri.escape c.value

def Component.toUri (c : Component) : String := String.ofList c.toUriChars

/-- A slash before every segment, or one slash alone. -/
def Name.toUriChars (name : Name) : List Char :=
  if name.isEmpty then ['/'] else name.components.flatMap fun c => '/' :: c.toUriChars

def Name.toUri (name : Name) : String := String.ofList name.toUriChars

/-! ## Reading -/

namespace Uri

/-- Why a text is not the path of a name. -/
inductive Error where
  /-- A segment with an escape or a digest that cannot be read. -/
  | badSegment (segment : String)
  /-- A digest of `length` bytes instead of thirty-two. -/
  | digestLength (length : Nat)
deriving DecidableEq, Repr

/-- The text shown for an error. -/
def Error.message : Error → String
  | badSegment segment => s!"invalid name URI: {segment}"
  | digestLength length => (DecodeError.invalidDigestLength length).message

/-- The byte of an escape: two hexadecimal digits, or a plus sign and one. -/
def escapeValue? (first second : Char) : Option UInt8 := do
  let low ← Bytes.hexValue? second
  if first = '+' then pure (UInt8.ofNat low)
  else
    let high ← Bytes.hexValue? first
    pure (UInt8.ofNat (16 * high + low))

/-- The bytes of a text with its escapes read. -/
def unescapeBytes? : List Char → Option Bytes
  | [] => some []
  | '%' :: first :: second :: rest => do
    let byte ← escapeValue? first second
    let bytes ← unescapeBytes? rest
    pure (byte :: bytes)
  | c :: rest =>
    if c = '%' then none else (unescapeBytes? rest).map (String.utf8EncodeChar c ++ ·)

/-- Takes back the three dots that set a value apart. -/
def dropDots (value : Bytes) : Bytes :=
  if 3 ≤ value.length ∧ value.all (· = 46) then value.drop 3 else value

/-- The pieces of a text between slashes, empty ones included. -/
def pieces : List Char → List (List Char)
  | [] => [[]]
  | c :: rest =>
    if c = '/' then [] :: pieces rest
    else match pieces rest with
      | [] => [[c]]
      | piece :: others => (c :: piece) :: others

/-- The text after a given beginning, if it has it. -/
def after? : (beginning text : List Char) → Option (List Char)
  | [], text => some text
  | _ :: _, [] => none
  | b :: beginning, c :: text => if b = c then after? beginning text else none

/-- The component that one segment stands for. -/
def component (segment : List Char) : Except Error Component :=
  match after? "sha256digest=".toList segment with
  | some digits =>
    match Bytes.ofHexDigits? digits with
    | none => .error (.badSegment (String.ofList segment))
    | some bytes =>
      match Digest.ofBytes? bytes with
      | none => .error (.digestLength bytes.length)
      | some digest => .ok (.ofDigest digest)
  | none =>
    match unescapeBytes? segment with
    | none => .error (.badSegment (String.ofList segment))
    | some bytes => .ok (.generic (dropDots bytes))

/-- The segments of a path: what stands between slashes, without the empty pieces. A scheme in
front is dropped once. -/
def segments (text : List Char) : List (List Char) :=
  (pieces ((after? "ndn:".toList text).getD text)).filter fun piece => !piece.isEmpty

end Uri

/-- The name that a path stands for; the first segment that is none decides the error. -/
def Name.ofUri (text : String) : Except Uri.Error Name :=
  ((Uri.segments text.toList).mapM Uri.component).map Name.mk

end NamedData
