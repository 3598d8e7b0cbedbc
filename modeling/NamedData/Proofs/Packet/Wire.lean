import NamedData.Proofs.Name.Wire
import NamedData.Proofs.Packet.Grammar
/-!
# Packets on the wire

A packet that was built and signed is read back from its bytes: with the name it was given and
the key it names, and with its freshness in whole milliseconds. Only a digest component of a
wrong length, in either name, keeps it from being read.

    decode (draft.signWith t f).wire = what its two names are read as          (decode_signWith)
    … = .ok d ↔ draft.Sound ∧ d = draft.onWire t f                       (decode_signWith_eq_ok_iff)
    d.Readable → ∃ e, decode d.wire = .ok e ∧ e.name = d.name ∧ …          (Readable.decode_wire)
-/

namespace NamedData

open Tlv

/-! ## Lengths -/

theorem Tlv.length_le_write (typ : UInt64) (value : Bytes) :
    value.length ≤ (write typ value).length :=
  Nat.le_trans (Nat.le_add_right _ 2) (length_add_two_le_write typ value)

/-! ## The blocks of a packet -/

/-- What is left of a span after the wire: its whole milliseconds, as many as a word counts. -/
def Duration.onWire (span : Duration) : Duration :=
  ⟨span.nanoseconds / 1000000 % 2 ^ 64 * 1000000⟩

theorem Duration.ofMillis_wireMillis (span : Duration) :
    ofMillis span.wireMillis = span.onWire := by
  rw [ofMillis, wireMillis, UInt64.toNat_ofNat', onWire]

/-- What is left of the facts after the wire: the freshness in whole milliseconds. -/
def MetaInfo.onWire (info : MetaInfo) : MetaInfo where
  contentType := info.contentType
  freshness := info.freshness.map fun span => .ofMillis span.wireMillis

theorem MetaInfo.encodeValue_eq (info : MetaInfo) : info.encodeValue =
    optionalField Code.contentType (info.contentType.map fun n => NonNeg.encode n) ++
      (optionalField Code.freshnessPeriod
        (info.freshness.map fun span => NonNeg.encode span.wireMillis) ++ []) := by
  obtain ⟨contentType, freshness⟩ := info
  rw [List.append_nil]
  cases contentType <;> cases freshness <;> rfl

theorem MetaInfo.decodeValue_encodeValue (info : MetaInfo) :
    decodeValue info.encodeValue = .ok info.onWire := by
  have hNext : ∀ position, Reader.peek? ⟨position, optionalField Code.freshnessPeriod
      (info.freshness.map fun span => NonNeg.encode span.wireMillis) ++ []⟩ ≠
        some Code.contentType := by
    intro position
    rw [Reader.peek?_optionalField, Reader.peek?_nil]
    split_ifs <;> decide
  rw [decodeValue, Reader.ofBytes, encodeValue_eq,
    Reader.optional_optionalField _ _ _ NonNeg.short_of_mem_map (hNext _)]
  simp only [bind, Except.bind]
  rw [Element.mapM_number _ _ fun n => n]
  simp only
  rw [Reader.optional_optionalField _ _ _ NonNeg.short_of_mem_map (by simp [Reader.peek?_nil])]
  simp only
  rw [Element.mapM_number]
  simp only [pure, Except.pure, Option.map_map, Option.map_id']
  rfl

/-- Whether the name of a key, if it is a name, has digests for its digest components. -/
def KeyLocator.Sound : KeyLocator → Prop
  | .name owner => owner.Sound
  | .digest _ => True

theorem KeyLocator.decodeValue_encodeValue_eq_ok_iff {locator found : KeyLocator}
    (short : locator.encodeValue.length < 2 ^ 63) :
    decodeValue locator.encodeValue = .ok found ↔ locator.Sound ∧ locator = found := by
  cases locator with
  | name owner =>
    have hle := length_le_write Code.name owner.encodeValue
    have hshort : owner.encodeValue.length < 2 ^ 63 := Nat.lt_of_le_of_lt hle short
    have hfits : owner.Fits := Nat.lt_trans hshort (by decide)
    rw [decodeValue, encodeValue, Name.encode,
      Element.readSingle_write (Nat.lt_trans hshort (by decide))]
    simp only [bind, Except.bind, if_true]
    rw [map_eq_ok]
    constructor
    · rintro ⟨name, hname, rfl⟩
      obtain ⟨hsound, rfl⟩ := (Name.decodeValue_encodeValue_eq_ok_iff hfits.writable).1 hname
      exact ⟨hsound, rfl⟩
    · rintro ⟨hsound, rfl⟩
      exact ⟨owner, Name.decodeValue_encodeValue hfits.writable hsound, rfl⟩
  | digest bytes =>
    have hle := length_le_write Code.keyDigest bytes
    have hshort : bytes.length < 2 ^ 64 :=
      Nat.lt_trans (Nat.lt_of_le_of_lt hle short) (by decide)
    have hne : Code.keyDigest ≠ Code.name := by decide
    rw [decodeValue, encodeValue, Element.readSingle_write hshort]
    simp only [bind, Except.bind, pure, Except.pure, if_neg hne, if_true, Except.ok.injEq]
    exact ⟨fun h => ⟨trivial, h⟩, And.right⟩

theorem SignatureInfo.encodeValue_eq (info : SignatureInfo) : info.encodeValue =
    write Code.signatureType (NonNeg.encode info.typ) ++
      (optionalField Code.keyLocator (info.keyLocator.map KeyLocator.encodeValue) ++ []) := by
  obtain ⟨typ, keyLocator⟩ := info
  rw [List.append_nil]
  cases keyLocator <;> rfl

theorem SignatureInfo.decodeValue_encodeValue_eq_ok_iff {info found : SignatureInfo}
    (short : info.encodeValue.length < 2 ^ 63) :
    decodeValue info.encodeValue = .ok found ↔
      (∀ locator ∈ info.keyLocator, locator.Sound) ∧ info = found := by
  have hType : (NonNeg.encode info.typ).length < 2 ^ 64 :=
    Nat.lt_of_le_of_lt (NonNeg.length_encode_le _) (by decide)
  have hLocator : ∀ locator ∈ info.keyLocator, locator.encodeValue.length < 2 ^ 63 := by
    intro locator hlocator
    have hle := length_le_write Code.keyLocator locator.encodeValue
    rw [encodeValue_eq, Option.mem_def.1 hlocator, List.length_append, List.length_append] at short
    simp only [optionalField, Option.map_some, Option.getD_some] at short
    omega
  have hField : ∀ value ∈ info.keyLocator.map KeyLocator.encodeValue, value.length < 2 ^ 64 := by
    intro value h
    obtain ⟨locator, hlocator, rfl⟩ := Option.map_eq_some_iff.1 h
    exact Nat.lt_trans (hLocator locator hlocator) (by decide)
  rw [decodeValue, Reader.ofBytes, encodeValue_eq, Reader.expect_write_append hType]
  simp only [bind, Except.bind, Element.number, NonNeg.decode_encode]
  rw [Reader.optional_optionalField _ _ _ hField (by simp [Reader.peek?_nil])]
  simp only
  rw [Element.mapM_value]
  have hback : ∀ found, (info.keyLocator.mapM fun locator =>
      KeyLocator.decodeValue locator.encodeValue) = .ok found ↔
        (∀ locator ∈ info.keyLocator, locator.Sound) ∧ info.keyLocator = found :=
    fun _ => mapM_eq_ok_iff fun locator hlocator _ =>
      KeyLocator.decodeValue_encodeValue_eq_ok_iff (hLocator locator hlocator)
  constructor
  · intro h
    split at h
    · cases h
    · next keyLocator hread =>
      cases h
      obtain ⟨hsound, rfl⟩ := (hback keyLocator).1 hread
      exact ⟨hsound, rfl⟩
  · rintro ⟨hsound, rfl⟩
    rw [(hback info.keyLocator).2 ⟨hsound, rfl⟩]
    rfl

/-! ## Packets -/

namespace Data

/-- Whether the names of a draft have digests for their digest components. -/
def Draft.Sound (draft : Draft) : Prop :=
  draft.name.Sound ∧ ∀ locator ∈ draft.keyLocator, locator.Sound

/-- A built packet as it is read back: its freshness in whole milliseconds, all else as it was. -/
def Draft.onWire (draft : Draft) (typ : UInt64) (signer : Bytes → Bytes) : Data :=
  { draft.signWith typ signer with metaInfo := draft.metaInfo.onWire }

/-- The elements of a built packet in their order. -/
theorem Draft.signedPortion_append (draft : Draft) (typ : UInt64) (r : Bytes) :
    draft.signedPortion typ ++ r =
      write Code.name draft.name.encodeValue ++
        (write Code.metaInfo draft.metaInfo.encodeValue ++
          (write Code.content draft.content ++
            (write Code.signatureInfo (SignatureInfo.encodeValue ⟨typ, draft.keyLocator⟩) ++
              r))) := by
  simp only [signedPortion, Name.encode, MetaInfo.encode, SignatureInfo.encode, List.append_assoc]

/-- No part of a built packet is longer than the packet. -/
theorem Draft.short_parts {draft : Draft} {typ : UInt64} {signer : Bytes → Bytes}
    (short : (draft.signWith typ signer).wire.length < 2 ^ 63) :
    (draft.signedPortion typ ++
        write Code.signatureValue (signer (draft.signedPortion typ))).length < 2 ^ 63 ∧
      draft.name.encodeValue.length < 2 ^ 63 ∧ draft.metaInfo.encodeValue.length < 2 ^ 63 ∧
      draft.content.length < 2 ^ 63 ∧
      (SignatureInfo.encodeValue ⟨typ, draft.keyLocator⟩).length < 2 ^ 63 ∧
      (signer (draft.signedPortion typ)).length < 2 ^ 63 := by
  have hbody := Nat.lt_of_le_of_lt (length_le_write Code.data _) short
  have hlength := congrArg List.length (draft.signedPortion_append typ
    (write Code.signatureValue (signer (draft.signedPortion typ))))
  simp only [List.length_append] at hlength hbody ⊢
  have hname := length_le_write Code.name draft.name.encodeValue
  have hinfo := length_le_write Code.metaInfo draft.metaInfo.encodeValue
  have hcontent := length_le_write Code.content draft.content
  have hsignature :=
    length_le_write Code.signatureInfo (SignatureInfo.encodeValue ⟨typ, draft.keyLocator⟩)
  have hvalue := length_le_write Code.signatureValue (signer (draft.signedPortion typ))
  omega

/-- Reading a built packet comes down to reading its two names. -/
theorem Draft.decode_signWith (draft : Draft) (typ : UInt64) (signer : Bytes → Bytes)
    (short : (draft.signWith typ signer).wire.length < 2 ^ 63) :
    decode (draft.signWith typ signer).wire =
      Name.decodeValue draft.name.encodeValue >>= fun name =>
        SignatureInfo.decodeValue (SignatureInfo.encodeValue ⟨typ, draft.keyLocator⟩) >>=
          fun info => .ok { draft.onWire typ signer with name, signatureInfo := info } := by
  obtain ⟨hbody, hname, hinfo, hcontent, hsignature, hvalue⟩ := short_parts short
  let body := draft.signedPortion typ ++
    write Code.signatureValue (signer (draft.signedPortion typ))
  have hwire : (draft.signWith typ signer).wire = write Code.data body := rfl
  have happend : body = draft.signedPortion typ ++
      (write Code.signatureValue (signer (draft.signedPortion typ)) ++ []) := by
    rw [List.append_nil]
  have hparts := happend.trans (draft.signedPortion_append typ _)
  have hsigned : body.take (draft.signedPortion typ).length = draft.signedPortion typ :=
    List.take_left
  have hend := congrArg List.length (draft.signedPortion_append typ [])
  simp only [List.append_nil, List.length_append, ← Nat.add_assoc] at hend
  have hshort : body.length < 2 ^ 64 := Nat.lt_trans hbody (by decide)
  rw [hwire, decode, Element.readSingle_write hshort]
  simp only [bind, Except.bind, Element.expectType, if_true, Reader.ofBytes]
  rw [hparts, Reader.expect_write_append (by omega)]
  simp only
  cases Name.decodeValue draft.name.encodeValue with
  | error e => rfl
  | ok name =>
    simp only
    rw [Reader.optional_write_append (by omega)]
    simp only [MetaInfo.decodeValue_encodeValue]
    rw [Reader.optional_write_append (by omega)]
    simp only
    rw [Reader.expect_write_append (by omega)]
    simp only
    cases SignatureInfo.decodeValue (SignatureInfo.encodeValue ⟨typ, draft.keyLocator⟩) with
    | error e => rfl
    | ok info =>
      simp only
      rw [Reader.expect_write_append (by omega)]
      simp only [Reader.isEmpty, List.isEmpty_nil, if_true, pure, Except.pure, Nat.zero_add]
      rw [← hparts, ← hend, hsigned]
      rfl

/-- A built packet is read back if and only if its names can be read. -/
theorem Draft.decode_signWith_eq_ok_iff {draft : Draft} {typ : UInt64} {signer : Bytes → Bytes}
    (short : (draft.signWith typ signer).wire.length < 2 ^ 63) {data : Data} :
    decode (draft.signWith typ signer).wire = .ok data ↔
      draft.Sound ∧ draft.onWire typ signer = data := by
  obtain ⟨_, hname, _, _, hsignature, _⟩ := short_parts short
  have hfits : draft.name.Fits := Nat.lt_trans hname (by decide)
  rw [decode_signWith draft typ signer short]
  constructor
  · intro h
    obtain ⟨name, hn, h⟩ := bind_eq_ok.1 h
    obtain ⟨info, hi, h⟩ := bind_eq_ok.1 h
    obtain ⟨hsound, rfl⟩ := (Name.decodeValue_encodeValue_eq_ok_iff hfits.writable).1 hn
    obtain ⟨hlocator, rfl⟩ := (SignatureInfo.decodeValue_encodeValue_eq_ok_iff hsignature).1 hi
    exact ⟨⟨hsound, hlocator⟩, Except.ok.inj h⟩
  · rintro ⟨⟨hsound, hlocator⟩, rfl⟩
    rw [Name.decodeValue_encodeValue hfits.writable hsound,
      (SignatureInfo.decodeValue_encodeValue_eq_ok_iff hsignature).2 ⟨hlocator, rfl⟩]
    rfl

/-- A packet that was read keeps its bytes, and its name was read from some of them. -/
theorem decode_eq_ok {wire : Bytes} {data : Data} (done : decode wire = .ok data) :
    data.wire = wire ∧
      ∃ value, value.length ≤ wire.length ∧ Name.decodeValue value = .ok data.name := by
  obtain ⟨hwire, p, header, value, hsplit, _, hspell, hmean, _⟩ := writtenAs_of_decode done
  obtain ⟨name, _, _, _, hname, _, _, _, hsigned⟩ := hspell
  have hlength := hname.length_le
  refine ⟨hwire, p.name, ?_, hmean.name⟩
  rw [hsplit, hsigned]
  simp only [List.length_append]
  omega

/-! ## Building and reading -/

/-- A packet that was signed by its digest verifies. -/
theorem Draft.verifiesDigest_sign (draft : Draft) : draft.sign.verifiesDigest = true := by
  simp [Data.verifiesDigest, sign, signWith]

/-- A packet, however it is signed, can be read from the bytes built for it if and only if all
digest components of its name, and of the name of its key, have the length of a digest. What is read
is then what was put in and what was built, but for the freshness, of which whole milliseconds are
left. One that is signed by its digest verifies, as it was built and as it is read. -/
theorem Draft.built_packets_are_read_back (draft : Draft) :
    (∀ (typ : UInt64) (signer : Bytes → Bytes),
      (draft.signWith typ signer).wire.length < 2 ^ 63 →
        let built := draft.signWith typ signer
        ((∃ found, decode built.wire = .ok found) ↔ draft.Sound) ∧
          ∀ found, decode built.wire = .ok found →
            found.name = draft.name ∧ found.metaInfo.contentType = draft.metaInfo.contentType ∧
              found.metaInfo.freshness = draft.metaInfo.freshness.map Duration.onWire ∧
              found.content = draft.content ∧ found.signatureInfo = ⟨typ, draft.keyLocator⟩ ∧
              found.signatureValue = signer built.signedPortion ∧ found.wire = built.wire ∧
              found.signedPortion = built.signedPortion ∧ found.fullName = built.fullName ∧
              found.verifiesDigest = built.verifiesDigest) ∧
      draft.sign.verifiesDigest = true ∧
      ∀ found, draft.sign.wire.length < 2 ^ 63 → decode draft.sign.wire = .ok found →
        found.verifiesDigest = true := by
  refine ⟨?_, draft.verifiesDigest_sign, ?_⟩
  · intro typ signer short built
    refine ⟨⟨?_, ?_⟩, ?_⟩
    · rintro ⟨found, hfound⟩
      exact ((decode_signWith_eq_ok_iff short).1 hfound).1
    · intro hsound
      exact ⟨_, (decode_signWith_eq_ok_iff short).2 ⟨hsound, rfl⟩⟩
    · intro found hfound
      obtain ⟨_, rfl⟩ := (decode_signWith_eq_ok_iff short).1 hfound
      refine ⟨rfl, rfl, ?_, rfl, rfl, rfl, rfl, rfl, rfl, rfl⟩
      exact congrArg (fun f => draft.metaInfo.freshness.map f) (funext Duration.ofMillis_wireMillis)
  · intro found short hfound
    obtain ⟨_, rfl⟩ := (decode_signWith_eq_ok_iff short).1 hfound
    exact draft.verifiesDigest_sign

/-- A digest in the name, a name for the key, and a freshness of two to the power of sixty-four
milliseconds and almost two, of which one is left. -/
theorem Draft.built_packets_are_read_back_of_long_freshness :
    let draft : Draft := ⟨⟨[.generic [], ⟨Code.digestComponent, List.replicate 32 0⟩]⟩,
      ⟨some 300, some ⟨2 ^ 64 * 1000000 + 1999999⟩⟩, [7], some (.name ⟨[.ofText "key"]⟩)⟩
    let built := draft.signWith 3 fun _ => [1, 2]
    built.wire.length < 2 ^ 63 ∧ ∃ found, decode built.wire = .ok found ∧
      found.name = draft.name ∧ found.metaInfo.freshness = some (.ofMillis 1) ∧
      found.signatureInfo = ⟨3, some (.name ⟨[.ofText "key"]⟩)⟩ ∧
      found.fullName = built.fullName ∧ found.verifiesDigest = built.verifiesDigest := by
  intro draft built
  have hshort : built.wire.length < 2 ^ 63 := by decide
  have hsound : draft.Sound := by
    constructor
    · unfold Name.Sound Component.Sound; decide
    · rintro _ ⟨rfl⟩
      unfold KeyLocator.Sound Name.Sound Component.Sound; decide
  obtain ⟨hread, hsame⟩ := draft.built_packets_are_read_back.1 3 (fun _ => [1, 2]) hshort
  obtain ⟨found, hfound⟩ := hread.2 hsound
  obtain ⟨hname, _, hfreshness, _, hinfo, _, _, _, hfull, hverifies⟩ := hsame found hfound
  exact ⟨hshort, found, hfound, hname, hfreshness, hinfo, hfull, hverifies⟩

/-- A packet that came about in one of the two ways there are: it was read, or it was built and
signed. -/
inductive Genuine : Data → Prop where
  | read {wire : Bytes} {data : Data} : decode wire = .ok data → Genuine data
  | built (draft : Draft) (typ : UInt64) (signer : Bytes → Bytes) :
    Genuine (draft.signWith typ signer)

/-- A packet that can be read from its own bytes, of which there are no more than a string of
bytes in memory can have. -/
structure Readable (data : Data) : Prop where
  genuine : data.Genuine
  short : data.wire.length < 2 ^ 63
  decodes : ∃ found, decode data.wire = .ok found

/-- A built packet can be read if its names can. -/
theorem Draft.readable_signWith {draft : Draft} {typ : UInt64} {signer : Bytes → Bytes}
    (short : (draft.signWith typ signer).wire.length < 2 ^ 63) (sound : draft.Sound) :
    (draft.signWith typ signer).Readable :=
  ⟨.built draft typ signer, short, _, (decode_signWith_eq_ok_iff short).2 ⟨sound, rfl⟩⟩

/-- A packet under a name of one component, with no content and an empty signature. -/
def blank : Data :=
  Draft.signWith ⟨⟨[.ofText "a"]⟩, .empty, [], none⟩ digestSignature fun _ => []

theorem readable_blank : blank.Readable :=
  Draft.readable_signWith (by decide) ⟨Name.sound_singleton (by decide), nofun⟩

/-- A packet under a name, with no content and an empty signature. -/
def bare (name : Name) : Data :=
  Draft.signWith ⟨name, .empty, [], none⟩ digestSignature fun _ => []

theorem readable_bare {name : Name} (sound : name.Sound)
    (short : (bare name).wire.length < 2 ^ 63) : (bare name).Readable :=
  Draft.readable_signWith short ⟨sound, nofun⟩

/-- Without its digest the full name of a packet is its name. -/
theorem withoutDigest_fullName (data : Data) : data.fullName.withoutDigest = data.name := by
  simp [fullName, Name.push, Name.withoutDigest, Name.last?, Component.isDigest,
    Component.ofDigest]

theorem mem_fullName {data : Data} {c : Component} (h : c ∈ data.fullName.components) :
    c ∈ data.name.components ∨ c = .ofDigest data.digest := by
  simpa [fullName, Name.push] using h

/-- A full name has digests for its digest components if the name has. -/
theorem sound_fullName {data : Data} (h : data.name.Sound) : data.fullName.Sound := by
  intro c hc
  rcases mem_fullName hc with hc | rfl
  · exact h c hc
  · exact fun _ => data.digest.length_bytes

/-- A digest adds thirty-four bytes to a name. -/
theorem fits_fullName {data : Data} (h : data.name.encodeValue.length < 2 ^ 63) :
    data.fullName.Fits := by
  have hdigest : (Component.ofDigest data.digest).encode.length = 34 := by
    rw [Component.encode, Component.ofDigest, write, List.length_append, data.digest.length_bytes]
    rfl
  unfold Name.Fits Name.encodeValue fullName Name.push
  rw [List.flatMap_append, List.length_append, List.flatMap_singleton, hdigest]
  unfold Name.encodeValue at h
  omega

/-- What is read from the bytes of such a packet is the packet in all that a store looks at. -/
theorem Readable.decode_wire {data : Data} (h : data.Readable) :
    ∃ found, decode data.wire = .ok found ∧ found.wire = data.wire ∧ found.name = data.name ∧
      found.signatureInfo = data.signatureInfo ∧ data.name.Sound ∧
        data.name.encodeValue.length < 2 ^ 63 := by
  obtain ⟨genuine, short, found, hfound⟩ := h
  cases genuine with
  | read done =>
    obtain ⟨hwire, value, hlength, hname⟩ := decode_eq_ok done
    rw [hwire] at short ⊢
    exact ⟨data, done, hwire, rfl, rfl, Name.sound_of_decodeValue hname,
      Nat.lt_of_le_of_lt (Name.length_encodeValue_le_of_decodeValue hname)
        (Nat.lt_of_le_of_lt hlength short)⟩
  | built draft typ signer =>
    obtain ⟨hsound, rfl⟩ := (Draft.decode_signWith_eq_ok_iff short).1 hfound
    exact ⟨_, hfound, rfl, rfl, rfl, hsound.1,
      (Draft.short_parts short).2.1⟩

end Data

end NamedData
