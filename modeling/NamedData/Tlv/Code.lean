/-!
# Type numbers of elements
-/

namespace NamedData.Tlv.Code

/-- A name component that holds the digest of a whole packet. -/
abbrev digestComponent : UInt64 := 1
abbrev data : UInt64 := 6
abbrev name : UInt64 := 7
/-- A name component with free content. -/
abbrev genericComponent : UInt64 := 8
abbrev metaInfo : UInt64 := 20
abbrev content : UInt64 := 21
abbrev signatureInfo : UInt64 := 22
abbrev signatureValue : UInt64 := 23
abbrev contentType : UInt64 := 24
abbrev freshnessPeriod : UInt64 := 25
abbrev signatureType : UInt64 := 27
abbrev keyLocator : UInt64 := 28
abbrev keyDigest : UInt64 := 29
/-- The parameter block of a command. -/
abbrev commandParameter : UInt64 := 201
abbrev syncTimeout : UInt64 := 210
abbrev maxInterestNum : UInt64 := 211
abbrev interestLifetime : UInt64 := 212

end NamedData.Tlv.Code
