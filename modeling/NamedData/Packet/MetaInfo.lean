import NamedData.Duration
import NamedData.Tlv.Code
import NamedData.Tlv.Reader
/-!
# Facts about the content of a packet

The content type and the time for which a packet counts as fresh, both optional. Elements after
these two are left unread.
-/

namespace NamedData

open Tlv

/-- What a packet says about its content. -/
structure MetaInfo where
  contentType : Option UInt64
  freshness : Option Duration
deriving DecidableEq, Repr

namespace MetaInfo

/-- Nothing said. -/
def empty : MetaInfo := ⟨none, none⟩

/-- The elements inside the block. -/
def encodeValue (info : MetaInfo) : Bytes :=
  (match info.contentType with
    | some n => writeNumber Code.contentType n
    | none => []) ++
  (match info.freshness with
    | some span => writeNumber Code.freshnessPeriod span.wireMillis
    | none => [])

def encode (info : MetaInfo) : Bytes := Tlv.write Code.metaInfo info.encodeValue

/-- Reads the two elements from the front of a block. -/
def decodeValue (value : Bytes) : Except DecodeError MetaInfo := do
  let (contentType, r) ← (Reader.ofBytes value).optional Code.contentType
  let contentType ← contentType.mapM Element.number
  let (freshness, _) ← r.optional Code.freshnessPeriod
  let freshness ← freshness.mapM Element.number
  pure { contentType, freshness := freshness.map Duration.ofMillis }

end MetaInfo

end NamedData
