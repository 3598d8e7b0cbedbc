import Mathlib.Data.Option.Basic
import NamedData.Packet.Interest
import NamedData.Proofs.Name.ByteOrder
import NamedData.Proofs.Packet.Wire
/-!
# What a signature binds

A signature is a digest of bytes, and those bytes decide all that a signature is to vouch for: the
components of a request that stand before it, and the parts of a packet. So under one signature
there are no two requests or packets that differ, unless the bytes they cover are a collision of the
digest function. Nothing is used of that function but the length of its digests; for requests, which
make their own signature, it is a parameter.

    (i.signBy hash).verifiesBy hash                                            (verifiesBy_signBy)
    i.verifiesBy hash ↔ i.EndsInDigest hash                                        (verifiesBy_iff)
    a.signedPortion = b.signedPortion → a.Agrees b, for packets that were read     (agrees_of_read)
-/

namespace NamedData

open Tlv

/-! ## Collisions -/

/-- Whether a digest function gives two byte strings one digest. -/
def Collide (hash : Bytes → Digest) (a b : Bytes) : Prop := a ≠ b ∧ hash a = hash b

/-- A digest is its bytes. -/
theorem Digest.eq_of_bytes_eq {a b : Digest} (h : a.bytes = b.bytes) : a = b := by
  cases a
  cases b
  cases h
  rfl

theorem Digest.short (digest : Digest) : digest.bytes.length < 2 ^ 64 := by
  rw [digest.length_bytes]
  decide

/-- What has one digest is the same, or collides. -/
theorem eq_or_collide {hash : Bytes → Digest} {a b : Bytes}
    (h : (hash a).bytes = (hash b).bytes) : a = b ∨ Collide hash a b := by
  by_cases hsame : a = b
  · exact Or.inl hsame
  · exact Or.inr ⟨hsame, Digest.eq_of_bytes_eq h⟩

/-! ## Signatures in names -/

namespace Name

/-- Without its last component a name is what the component was added to. -/
theorem take_push (name : Name) (c : Component) :
    (name.push c).take ((name.push c).length - 1) = name := by
  simp [take, push, length]

theorem last?_push (name : Name) (c : Component) : (name.push c).last? = some c :=
  List.getLast?_concat

theorem InMemory.of_push {name : Name} {c : Component} (h : (name.push c).InMemory) :
    name.InMemory :=
  fun d hd => h d (List.mem_append_left _ hd)

/-- A name of two components or more has two that were added last. -/
theorem eq_push_push {name : Name} {c d : Component} (long : 2 ≤ name.length)
    (hc : name.get? (name.length - 2) = some c) (hd : name.get? (name.length - 1) = some d) :
    ∃ before : Name, name = (before.push c).push d := by
  obtain ⟨components⟩ := name
  rcases List.eq_nil_or_concat components with rfl | ⟨components, e, rfl⟩
  · exact absurd long (by decide)
  rcases List.eq_nil_or_concat components with rfl | ⟨components, f, rfl⟩
  · simp [length] at long
  refine ⟨⟨components⟩, ?_⟩
  simp [get?, length] at hc hd
  simp [push, hc, hd]

end Name

namespace Interest

/-- The bytes that the signature of a request covers: the name without its last component. -/
def signedPortion (interest : Interest) : Bytes :=
  (interest.name.take (interest.name.length - 1)).encodeValue

section

variable (hash : Bytes → Digest) (interest : Interest)

/-- The request signed by any function in the place of the digest function. -/
def signBy : Interest :=
  let signed := interest.name.push (.generic (SignatureInfo.encode ⟨digestSignature, none⟩))
  let value := (hash signed.encodeValue).bytes
  { interest with name := signed.push (.generic (Tlv.write Code.signatureValue value)) }

/-- Whether the name ends in what that function gives for all that stands before it. -/
def verifiesBy : Bool :=
  match interest.signature? with
  | none => false
  | some (info, value) =>
    info.typ = digestSignature && (hash interest.signedPortion).bytes = value

theorem sign_eq : interest.sign = interest.signBy Sha256.hash := rfl

theorem verifiesDigest_eq : interest.verifiesDigest = interest.verifiesBy Sha256.hash := rfl

/-- Whether the last two components of the name hold one element each: how the request is signed,
which is by a digest, and the digest of the name up to there. -/
def EndsInDigest : Prop :=
  ∃ (named : Name) (info value : Component) (block : Bytes) (locator : Option KeyLocator),
    interest.name = (named.push info).push value ∧ Spells Code.signatureInfo block info.value ∧
      SignatureInfo.decodeValue block = .ok ⟨digestSignature, locator⟩ ∧
      Spells Code.signatureValue (hash (named.push info).encodeValue).bytes value.value

end

theorem soleElement?_eq_some_iff {c : Component} {typ : UInt64} {value : Bytes} :
    soleElement? c typ = some value ↔ Spells typ value c.value := by
  unfold soleElement?
  constructor
  · intro h
    split at h
    · next element hread =>
      obtain ⟨-, hspells⟩ := Element.readSingle_eq_ok_iff.1 hread
      split at h
      · next htyp =>
        cases h
        exact htyp ▸ hspells
      · cases h
    · cases h
  · intro h
    have hread : Element.readSingle c.value = .ok ⟨typ, value, c.value⟩ :=
      Element.readSingle_eq_ok_iff.2 ⟨rfl, h⟩
    simp only [hread, if_true]

/-- The signature of a request is in the last two components of its name. -/
theorem signature?_eq_some_iff {interest : Interest} {info : SignatureInfo} {signature : Bytes} :
    interest.signature? = some (info, signature) ↔
      ∃ (named : Name) (infoPart valuePart : Component) (block : Bytes),
        interest.name = (named.push infoPart).push valuePart ∧
          Spells Code.signatureInfo block infoPart.value ∧
          SignatureInfo.decodeValue block = .ok info ∧
          Spells Code.signatureValue signature valuePart.value := by
  unfold signature?
  constructor
  · intro h
    obtain ⟨_, hlong, h⟩ := Option.bind_eq_some_iff.1 h
    obtain ⟨infoPart, hinfoPart, h⟩ := Option.bind_eq_some_iff.1 h
    obtain ⟨block, hblock, h⟩ := Option.bind_eq_some_iff.1 h
    obtain ⟨found, hfound, h⟩ := Option.bind_eq_some_iff.1 h
    obtain ⟨valuePart, hvaluePart, h⟩ := Option.bind_eq_some_iff.1 h
    obtain ⟨value, hvalue, h⟩ := Option.bind_eq_some_iff.1 h
    cases h
    obtain ⟨named, hname⟩ :=
      Name.eq_push_push ((Option.guard_eq_some' _).1 hlong) hinfoPart hvaluePart
    exact ⟨named, infoPart, valuePart, block, hname, soleElement?_eq_some_iff.1 hblock,
      toOption_eq_some_iff.1 hfound, soleElement?_eq_some_iff.1 hvalue⟩
  · rintro ⟨named, infoPart, valuePart, block, hname, hblock, hinfo, hvalue⟩
    have hlong : 2 ≤ interest.name.length := by
      simp [hname, Name.push, Name.length]
    have hinfoPart : interest.name.get? (interest.name.length - 2) = some infoPart := by
      simp [hname, Name.push, Name.length, Name.get?]
    have hvaluePart : interest.name.get? (interest.name.length - 1) = some valuePart := by
      simp [hname, Name.push, Name.length, Name.get?]
    refine Option.bind_eq_some_iff.2 ⟨(), (Option.guard_eq_some' _).2 hlong, ?_⟩
    refine Option.bind_eq_some_iff.2 ⟨_, hinfoPart, ?_⟩
    refine Option.bind_eq_some_iff.2 ⟨_, soleElement?_eq_some_iff.2 hblock, ?_⟩
    refine Option.bind_eq_some_iff.2 ⟨_, toOption_eq_some_iff.2 hinfo, ?_⟩
    refine Option.bind_eq_some_iff.2 ⟨_, hvaluePart, ?_⟩
    exact Option.bind_eq_some_iff.2 ⟨_, soleElement?_eq_some_iff.2 hvalue, rfl⟩

variable {hash : Bytes → Digest} {interest : Interest}

theorem verifiesBy_iff : interest.verifiesBy hash = true ↔ interest.EndsInDigest hash := by
  unfold verifiesBy signedPortion
  constructor
  · intro h
    split at h
    · cases h
    · next info value hsignature =>
      obtain ⟨named, infoPart, valuePart, block, hname, hblock, hinfo, hvalue⟩ :=
        signature?_eq_some_iff.1 hsignature
      rw [hname, Name.take_push, Bool.and_eq_true, decide_eq_true_eq, decide_eq_true_eq] at h
      obtain ⟨htyp, hdigest⟩ := h
      obtain ⟨typ, locator⟩ := info
      obtain rfl : typ = digestSignature := htyp
      exact ⟨named, infoPart, valuePart, block, locator, hname, hblock, hinfo, hdigest ▸ hvalue⟩
  · rintro ⟨named, infoPart, valuePart, block, locator, hname, hblock, hinfo, hvalue⟩
    have hsignature := signature?_eq_some_iff.2
      ⟨named, infoPart, valuePart, block, hname, hblock, hinfo, hvalue⟩
    rw [hsignature]
    simp [hname, Name.take_push]

/-- Signing puts two components at the end of the name. -/
theorem name_sign (interest : Interest) :
    ∃ info value, interest.sign.name = (interest.name.push info).push value :=
  ⟨_, _, rfl⟩

/-- A signed request verifies. -/
theorem verifiesBy_signBy (hash : Bytes → Digest) (interest : Interest) :
    (interest.signBy hash).verifiesBy hash = true := by
  have hinfo : SignatureInfo.decodeValue (SignatureInfo.encodeValue ⟨digestSignature, none⟩) =
      .ok ⟨digestSignature, none⟩ :=
    (SignatureInfo.decodeValue_encodeValue_eq_ok_iff (by decide)).2 ⟨nofun, rfl⟩
  exact verifiesBy_iff.2 ⟨interest.name, _, _, _, none, rfl, spells_write (by decide), hinfo,
    spells_write (Digest.short _)⟩

theorem verifiesDigest_sign (interest : Interest) : interest.sign.verifiesDigest = true :=
  verifiesBy_signBy Sha256.hash interest

/-! ### What the signature of a request binds -/

/-- The digest in the last component is that of the name without it. -/
theorem EndsInDigest.last (h : interest.EndsInDigest hash) :
    ∃ (named : Name) (value : Component), interest.name = named.push value ∧
      interest.signedPortion = named.encodeValue ∧
      Spells Code.signatureValue (hash interest.signedPortion).bytes value.value := by
  obtain ⟨named, info, value, block, locator, hname, _, _, hvalue⟩ := h
  have hsigned : interest.signedPortion = (named.push info).encodeValue := by
    rw [signedPortion, hname, Name.take_push]
  exact ⟨named.push info, value, hname, hsigned, hsigned ▸ hvalue⟩

/-- A signed request verifies. If two requests verify, with names as they can be in memory, and
their names end in the same component, the names are the same, or else their encodings without that
component are two byte strings of one digest. This holds whatever function the digest function is,
and so of the one by which requests are signed and verified. -/
theorem signature_binds_name :
    (∀ i : Interest, i.sign = i.signBy Sha256.hash ∧
      i.verifiesDigest = i.verifiesBy Sha256.hash) ∧
    ∀ hash : Bytes → Digest,
      (∀ i : Interest, (i.signBy hash).verifiesBy hash = true) ∧
      ∀ a b : Interest, a.name.InMemory → b.name.InMemory →
        a.verifiesBy hash = true → b.verifiesBy hash = true → a.name.last? = b.name.last? →
          a.name = b.name ∨ Collide hash a.signedPortion b.signedPortion := by
  refine ⟨fun i => ⟨i.sign_eq, i.verifiesDigest_eq⟩, fun hash => ⟨verifiesBy_signBy hash, ?_⟩⟩
  intro a b ha hb hverifies hverifies' hlast
  obtain ⟨named, value, hname, hsigned, hvalue⟩ := (verifiesBy_iff.1 hverifies).last
  obtain ⟨named', value', hname', hsigned', hvalue'⟩ := (verifiesBy_iff.1 hverifies').last
  obtain rfl : value = value' := by
    rw [hname, hname', Name.last?_push, Name.last?_push] at hlast
    exact Option.some.inj hlast
  refine (eq_or_collide (hvalue.value_eq hvalue')).imp_left fun hsame => ?_
  rw [hsigned, hsigned'] at hsame
  rw [hname] at ha
  rw [hname'] at hb
  rw [hname, hname', Name.eq_of_encodeValue_eq (ha.of_push.writable) (hb.of_push.writable) hsame]

/-- If all digests are the same, requests under two names end in the same component, and what the
names are without it collides. -/
theorem signature_binds_name_under_one_digest :
    let hash : Bytes → Digest := fun _ => ⟨List.replicate 32 0, rfl⟩
    let a := (ofName ⟨[.ofText "a"]⟩).signBy hash
    let b := (ofName ⟨[.ofText "b"]⟩).signBy hash
    a.name.InMemory ∧ b.name.InMemory ∧ a.verifiesBy hash = true ∧ b.verifiesBy hash = true ∧
      a.name.last? = b.name.last? ∧ a.name ≠ b.name ∧
      Collide hash a.signedPortion b.signedPortion := by
  intro hash a b
  have ha : a.name.InMemory := by unfold Name.InMemory; decide
  have hb : b.name.InMemory := by unfold Name.InMemory; decide
  have hne : a.name ≠ b.name := by decide
  obtain ⟨hsigned, hbinds⟩ := signature_binds_name.2 hash
  have hverifies := hsigned (ofName ⟨[.ofText "a"]⟩)
  have hverifies' := hsigned (ofName ⟨[.ofText "b"]⟩)
  exact ⟨ha, hb, hverifies, hverifies', rfl, hne,
    (hbinds a b ha hb hverifies hverifies' rfl).resolve_left hne⟩

end Interest

/-! ## Signatures of packets -/

namespace Data

/-- Whether two packets say the same: name, facts, content and how they are signed. -/
structure Agrees (a b : Data) : Prop where
  name : a.name = b.name
  metaInfo : a.metaInfo = b.metaInfo
  content : a.content = b.content
  signatureInfo : a.signatureInfo = b.signatureInfo

variable {wire wire' : Bytes} {a b : Data}

/-- What the signature of a packet covers can stand behind any header and before any signature. -/
theorem WrittenAs.within {header value signatureValue : Bytes} (h : b.WrittenAs wire)
    (hheader : Header Code.data (b.signedPortion.length + value.length) header)
    (hvalue : Spells Code.signatureValue signatureValue value) :
    WrittenAs { b with wire := header ++ b.signedPortion ++ value, signatureValue }
      (header ++ b.signedPortion ++ value) := by
  obtain ⟨_, p, _, _, _, _, hspell, hmean, _⟩ := h
  exact ⟨rfl, p, header, value, rfl, hheader, hspell,
    ⟨hmean.name, hmean.metaInfo, hmean.content, hmean.signatureInfo⟩, hvalue⟩

/-- The bytes that a signature covers decide what is read from them. -/
theorem agrees_of_read (ha : decode wire = .ok a) (hb : decode wire' = .ok b)
    (h : a.signedPortion = b.signedPortion) : a.Agrees b := by
  obtain ⟨_, _, header, value, hsplit, hheader, _, _, hvalue⟩ := writtenAs_of_decode ha
  rw [h] at hsplit hheader
  -- the second packet is also read from the bytes of the first
  have hmoved := ((writtenAs_of_decode hb).within hheader hvalue).decode
  rw [← hsplit] at hmoved
  have hsame := Except.ok.inj (ha.symm.trans hmoved)
  exact ⟨(congrArg Data.name hsame :), (congrArg Data.metaInfo hsame :),
    (congrArg Data.content hsame :), (congrArg Data.signatureInfo hsame :)⟩

/-- Two packets that were read and cover the same bytes by their signatures say the same, whatever
stands around those bytes. If both verify and have one signature, they say the same, or else what
they cover are two byte strings of one digest. -/
theorem signature_binds_packet (ha : decode wire = .ok a) (hb : decode wire' = .ok b) :
    (a.signedPortion = b.signedPortion → a.Agrees b) ∧
      (a.verifiesDigest = true → b.verifiesDigest = true → a.signatureValue = b.signatureValue →
        a.Agrees b ∨ Collide Sha256.hash a.signedPortion b.signedPortion) := by
  refine ⟨agrees_of_read ha hb, ?_⟩
  intro hverifies hverifies' hvalue
  rw [verifiesDigest, Bool.and_eq_true, decide_eq_true_eq, decide_eq_true_eq] at hverifies
  rw [verifiesDigest, Bool.and_eq_true, decide_eq_true_eq, decide_eq_true_eq] at hverifies'
  have hdigest : (Sha256.hash a.signedPortion).bytes = (Sha256.hash b.signedPortion).bytes := by
    rw [hverifies.2, hverifies'.2, hvalue]
  exact (eq_or_collide hdigest).imp_left (agrees_of_read ha hb)

/-- The type of a packet in one byte and in three: the signature is the same, and so is all the two
packets say. -/
theorem signature_binds_packet_of_long_header :
    let a := Draft.sign ⟨⟨[.ofText "a"]⟩, .empty, [7], none⟩
    let b := { a with wire := 0xFD :: 0 :: a.wire }
    decode a.wire = .ok a ∧ decode b.wire = .ok b ∧ a.verifiesDigest = true ∧
      b.verifiesDigest = true ∧ a.wire ≠ b.wire ∧ a.signatureValue = b.signatureValue ∧
      a.Agrees b ∧ (a.Agrees b ∨ Collide Sha256.hash a.signedPortion b.signedPortion) := by
  intro a b
  have ha : decode a.wire = .ok a :=
    (Draft.decode_signWith_eq_ok_iff (by decide)).2 ⟨⟨Name.sound_singleton (by decide), nofun⟩, rfl⟩
  have hb : decode b.wire = .ok b := by
    let value := write Code.signatureValue a.signatureValue
    have hvalue : Spells Code.signatureValue a.signatureValue value := spells_write (Digest.short _)
    have hheader : Header Code.data (a.signedPortion.length + value.length) [0xFD, 0, 6, 49] :=
      ⟨49, [0xFD, 0, 6], [49], .two (by decide), .one (by decide), rfl, rfl⟩
    exact ((writtenAs_of_decode ha).within hheader hvalue).decode
  have hverifies : a.verifiesDigest = true := Draft.verifiesDigest_sign _
  obtain ⟨hagree, hbind⟩ := signature_binds_packet ha hb
  refine ⟨ha, hb, hverifies, hverifies, ?_, rfl, hagree rfl, hbind hverifies hverifies rfl⟩
  intro h
  have hlength := congrArg List.length h
  simp only [b, List.length_cons] at hlength
  omega

end Data

end NamedData
