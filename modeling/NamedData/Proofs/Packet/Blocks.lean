import NamedData.Proofs.Packet.Wire
import NamedData.Proofs.Tlv.Reader
/-!
# How the blocks of a packet end

The facts about the content, and how a packet is signed, are read from the fronts of their blocks,
one field after another. A field counts as missing when no number of its type can be read where it
would stand, for whatever reason, and nobody looks at what stands behind the last field. So a packet
is read with any bytes at all at the ends of these two blocks, except that a field which was not
found does not begin there. The blocks are sequences of complete elements just if these ends are.

    reader.optional t finds a field, or none ↔ Begins t field reader.rest after.rest
                                                     (begins_of_optional, optional_of_begins)
    decodeValue block = .ok info ↔ ∃ unread, info.Opens block unread   (decodeValue_eq_ok_iff)
    info.Opens block unread → (Complete block ↔ Complete unread)                (complete_iff)
    p.Within wire → q.Within wire → p = q                                      (Within.unique)
-/

namespace NamedData

open Tlv

namespace Tlv

/-! ## Fields -/

/-- Whether bytes begin with the element of a field, which `rest` follows, or with none of its
type. -/
def Begins (typ : UInt64) : Option Bytes → (bytes rest : Bytes) → Prop
  | some value, bytes, rest => ∃ wire, Spells typ value wire ∧ bytes = wire ++ rest
  | none, bytes, rest =>
    bytes = rest ∧ ∀ form after, VarNumber.Form typ form → bytes ≠ form ++ after

section

variable {typ : UInt64} {field : Option Bytes} {wire rest bytes : Bytes}

theorem Begins.complete_iff (h : Begins typ field bytes rest) :
    Complete bytes ↔ Complete rest := by
  cases field with
  | none => rw [h.1]
  | some value =>
    obtain ⟨wire, hwire, rfl⟩ := h
    exact complete_append_iff hwire

namespace Reader

theorem peek?_eq_some_iff {reader : Reader} :
    reader.peek? = some typ ↔
      ∃ form after, VarNumber.Form typ form ∧ reader.rest = form ++ after := by
  simp only [peek?, Option.map_eq_some_iff, toOption_eq_some_iff, Prod.exists,
    VarNumber.read_eq_ok_iff]
  constructor
  · rintro ⟨_, _, ⟨form, after, hrest, -, hform⟩, rfl⟩
    exact ⟨form, after, hform, hrest⟩
  · rintro ⟨form, after, hform, hrest⟩
    exact ⟨typ, form.length, ⟨form, after, hrest, rfl, hform⟩, rfl⟩

/-- A field that was looked for was found, or none of its type was there. -/
theorem begins_of_optional {reader after : Reader} {found : Option Element}
    (done : reader.optional typ = .ok (found, after)) :
    Begins typ (found.map Element.value) reader.rest after.rest := by
  cases found with
  | some element =>
    obtain ⟨wire, hrest, -, hwire⟩ := of_optional done
    exact ⟨wire, hwire, hrest⟩
  | none =>
    unfold optional at done
    split at done
    · obtain ⟨⟨element, later⟩, -, done⟩ := bind_eq_ok.1 done
      cases done
    · next hpeek =>
      cases done
      refine ⟨rfl, fun form after hform hrest => hpeek ?_⟩
      exact peek?_eq_some_iff.2 ⟨form, after, hform, hrest⟩

theorem optional_of_begins (position : Nat) (h : Begins typ field bytes rest) :
    ∃ found later, optional ⟨position, bytes⟩ typ = .ok (found, ⟨later, rest⟩) ∧
      found.map Element.value = field := by
  cases field with
  | some value =>
    obtain ⟨wire, hwire, rfl⟩ := h
    exact ⟨_, _, optional_append_of_spells position rest hwire, rfl⟩
  | none =>
    obtain ⟨rfl, hnone⟩ := h
    refine ⟨none, position, optional_of_ne position bytes fun hpeek => ?_, rfl⟩
    obtain ⟨form, after, hform, hbytes⟩ := peek?_eq_some_iff.1 hpeek
    exact hnone form after hform hbytes

end Reader

/-- Bytes begin with a field in one way. -/
theorem Begins.unique {field' : Option Bytes} {rest' : Bytes} (h : Begins typ field bytes rest)
    (h' : Begins typ field' bytes rest') : field = field' ∧ rest = rest' := by
  obtain ⟨found, later, hread, rfl⟩ := Reader.optional_of_begins 0 h
  obtain ⟨found', later', hread', rfl⟩ := Reader.optional_of_begins 0 h'
  rw [hread] at hread'
  cases hread'
  exact ⟨rfl, rfl⟩

theorem begins_of_spellsOptional (h : SpellsOptional typ field wire)
    (hnext : Reader.peek? ⟨0, rest⟩ ≠ some typ) : Begins typ field (wire ++ rest) rest := by
  cases field with
  | some value => exact ⟨wire, h, rfl⟩
  | none =>
    cases h
    refine ⟨rfl, fun form after hform hrest => hnext ?_⟩
    exact Reader.peek?_eq_some_iff.2 ⟨form, after, hform, hrest⟩

end

/-- The value of a field is read if the field was found. -/
theorem Element.mapM_eq {β : Type} (found : Option Element) (read : Bytes → Except DecodeError β) :
    found.mapM (fun element => read element.value) = (found.map value).mapM read := by
  cases found <;> rfl

end Tlv

/-! ## The two blocks -/

/-- Whether a block begins with what a packet says about its content, in its fields. -/
def MetaInfo.Opens (info : MetaInfo) (block unread : Bytes) : Prop :=
  ∃ contentType freshness between,
    Begins Code.contentType contentType block between ∧
      Begins Code.freshnessPeriod freshness between unread ∧
      contentType.mapM NonNeg.decode = .ok info.contentType ∧
      (freshness.mapM NonNeg.decode).map (·.map Duration.ofMillis) = .ok info.freshness

/-- Whether a block begins with how a packet is signed, in its fields. -/
def SignatureInfo.Opens (info : SignatureInfo) (block unread : Bytes) : Prop :=
  ∃ typ keyLocator between,
    Begins Code.signatureType (some typ) block between ∧
      Begins Code.keyLocator keyLocator between unread ∧
      NonNeg.decode typ = .ok info.typ ∧
      keyLocator.mapM KeyLocator.decodeValue = .ok info.keyLocator

section

variable {block unread : Bytes}

theorem MetaInfo.Opens.complete_iff {info : MetaInfo} (h : info.Opens block unread) :
    Complete block ↔ Complete unread := by
  obtain ⟨_, _, _, hcontent, hfreshness, -⟩ := h
  exact hcontent.complete_iff.trans hfreshness.complete_iff

theorem SignatureInfo.Opens.complete_iff {info : SignatureInfo} (h : info.Opens block unread) :
    Complete block ↔ Complete unread := by
  obtain ⟨_, _, _, htyp, hlocator, -⟩ := h
  exact htyp.complete_iff.trans hlocator.complete_iff

/-- A block is read as the fields at its front, whatever follows them. -/
theorem MetaInfo.decodeValue_eq_ok_iff {info : MetaInfo} :
    decodeValue block = .ok info ↔ ∃ unread, info.Opens block unread := by
  constructor
  · intro done
    obtain ⟨⟨contentType, between⟩, hcontent, done⟩ := bind_eq_ok.1 done
    obtain ⟨typ, htyp, done⟩ := bind_eq_ok.1 done
    obtain ⟨⟨freshness, unread⟩, hfreshness, done⟩ := bind_eq_ok.1 done
    obtain ⟨span, hspan, done⟩ := bind_eq_ok.1 done
    cases done
    refine ⟨unread.rest, _, _, between.rest, Reader.begins_of_optional hcontent,
      Reader.begins_of_optional hfreshness, ?_, ?_⟩
    · rw [← Element.mapM_eq]
      exact htyp
    · rw [← Element.mapM_eq]
      exact map_eq_ok.2 ⟨span, hspan, rfl⟩
  · rintro ⟨unread, contentType, freshness, between, hcontent, hfreshness, htyp, hspan⟩
    obtain ⟨span, hspan, hinfo⟩ := map_eq_ok.1 hspan
    obtain ⟨found, position, hread, rfl⟩ := Reader.optional_of_begins 0 hcontent
    obtain ⟨found', position', hread', rfl⟩ := Reader.optional_of_begins position hfreshness
    rw [← Element.mapM_eq] at htyp hspan
    refine bind_eq_ok.2 ⟨_, hread, bind_eq_ok.2 ⟨_, htyp, bind_eq_ok.2 ⟨_, hread', ?_⟩⟩⟩
    refine bind_eq_ok.2 ⟨_, hspan, ?_⟩
    rw [hinfo]
    rfl

theorem SignatureInfo.decodeValue_eq_ok_iff {info : SignatureInfo} :
    decodeValue block = .ok info ↔ ∃ unread, info.Opens block unread := by
  constructor
  · intro done
    obtain ⟨⟨typ, between⟩, htyp, done⟩ := bind_eq_ok.1 done
    obtain ⟨number, hnumber, done⟩ := bind_eq_ok.1 done
    obtain ⟨⟨keyLocator, unread⟩, hlocator, done⟩ := bind_eq_ok.1 done
    obtain ⟨locator, hread, done⟩ := bind_eq_ok.1 done
    cases done
    obtain ⟨hrest, -, hwire⟩ := Reader.of_expect htyp
    refine ⟨unread.rest, _, _, between.rest, ⟨_, hwire, hrest⟩, Reader.begins_of_optional hlocator,
      hnumber, ?_⟩
    rwa [← Element.mapM_eq]
  · rintro ⟨unread, typ, keyLocator, between, ⟨wire, hwire, rfl⟩, hlocator, hnumber, hread⟩
    obtain ⟨found, position, hfound, rfl⟩ := Reader.optional_of_begins _ hlocator
    rw [← Element.mapM_eq] at hread
    refine bind_eq_ok.2 ⟨_, Reader.expect_append 0 between hwire _, bind_eq_ok.2 ⟨_, hnumber, ?_⟩⟩
    exact bind_eq_ok.2 ⟨_, hfound, bind_eq_ok.2 ⟨_, hread, rfl⟩⟩

end

namespace Data

/-! ## Packets -/

/-- Whether bytes are a packet whose blocks have these values. -/
def Payloads.Within (p : Payloads) (wire : Bytes) : Prop :=
  ∃ signed value signature, Spells Code.data (signed ++ signature) wire ∧ p.Spell signed ∧
    Spells Code.signatureValue value signature

/-- The blocks stand one behind the other. -/
theorem Payloads.Spell.begins {p : Payloads} {signed : Bytes} (h : p.Spell signed)
    (signature : Bytes) :
    ∃ first second third, Begins Code.name (some p.name) (signed ++ signature) first ∧
      Begins Code.metaInfo p.metaInfo first second ∧ Begins Code.content p.content second third ∧
      Begins Code.signatureInfo (some p.signatureInfo) third signature := by
  obtain ⟨name, metaInfo, content, signatureInfo, hname, hinfo, hcontent, hsignature, rfl⟩ := h
  have hlast : Reader.peek? ⟨0, signatureInfo ++ signature⟩ = some Code.signatureInfo :=
    Reader.peek?_append 0 signature hsignature
  have hnext : Reader.peek? ⟨0, content ++ (signatureInfo ++ signature)⟩ ≠ some Code.metaInfo := by
    rw [Reader.peek?_append_optional 0 _ hcontent, hlast]
    split_ifs <;> decide
  refine ⟨metaInfo ++ (content ++ (signatureInfo ++ signature)),
    content ++ (signatureInfo ++ signature), signatureInfo ++ signature, ⟨name, hname, ?_⟩,
    begins_of_spellsOptional hinfo hnext, begins_of_spellsOptional hcontent ?_,
    ⟨signatureInfo, hsignature, rfl⟩⟩
  · simp only [List.append_assoc]
  · rw [hlast]
    decide

/-- Bytes are a packet with blocks of one set of values at most. -/
theorem Payloads.Within.unique {p q : Payloads} {wire : Bytes} (hp : p.Within wire)
    (hq : q.Within wire) : p = q := by
  obtain ⟨signed, _, signature, hbody, hspell, -⟩ := hp
  obtain ⟨signed', _, signature', hbody', hspell', -⟩ := hq
  obtain ⟨_, _, _, hname, hinfo, hcontent, hsignature⟩ := hspell.begins signature
  obtain ⟨_, _, _, hname', hinfo', hcontent', hsignature'⟩ := hspell'.begins signature'
  rw [hbody.value_eq hbody'] at hname
  obtain ⟨hsame, rfl⟩ := hname.unique hname'
  obtain ⟨hsameInfo, rfl⟩ := hinfo.unique hinfo'
  obtain ⟨hsameContent, rfl⟩ := hcontent.unique hcontent'
  obtain ⟨hsameSignature, -⟩ := hsignature.unique hsignature'
  cases p
  cases q
  cases hsame
  cases hsameInfo
  cases hsameContent
  cases hsameSignature
  rfl

theorem WrittenAs.exists_blocks {wire : Bytes} {data : Data} (h : data.WrittenAs wire) :
    ∃ p : Payloads, p.Within wire ∧ p.Mean data := by
  obtain ⟨-, p, header, value, hsplit, hheader, hspell, hmean, hvalue⟩ := h
  refine ⟨p, ⟨_, _, value, ⟨header, ?_, ?_⟩, hspell, hvalue⟩, hmean⟩
  · rwa [List.length_append]
  · rw [hsplit, List.append_assoc]

/-- Whether the name can be read, and the two blocks begin with their fields. -/
structure Payloads.Open (p : Payloads) : Prop where
  name : ∃ name, Name.decodeValue p.name = .ok name
  metaInfo : ∀ block ∈ p.metaInfo, ∃ (info : MetaInfo) (unread : Bytes), info.Opens block unread
  signatureInfo : ∃ (info : SignatureInfo) (unread : Bytes), info.Opens p.signatureInfo unread

theorem Payloads.Mean.opens {p : Payloads} {data : Data} (h : p.Mean data) :
    (∀ block ∈ p.metaInfo, ∃ unread, data.metaInfo.Opens block unread) ∧
      ∃ unread, data.signatureInfo.Opens p.signatureInfo unread := by
  refine ⟨fun block hblock => ?_, SignatureInfo.decodeValue_eq_ok_iff.1 h.signatureInfo⟩
  have hread := h.metaInfo
  rw [Option.mem_def.1 hblock] at hread
  exact MetaInfo.decodeValue_eq_ok_iff.1 hread

/-- A packet is read if its blocks begin with their fields, however they end. -/
theorem Payloads.Open.decode {p : Payloads} {wire : Bytes} (h : p.Open) (hwithin : p.Within wire) :
    ∃ data, Data.decode wire = .ok data := by
  obtain ⟨signed, value, signature, ⟨header, hheader, hwire⟩, hspell, hvalue⟩ := hwithin
  obtain ⟨⟨name, hname⟩, hinfo, signatureInfo, hsignature⟩ := h
  obtain ⟨metaInfo, hmeta⟩ :
      ∃ info, p.metaInfo.elim (.ok .empty) MetaInfo.decodeValue = .ok info := by
    cases hblock : p.metaInfo with
    | none => exact ⟨.empty, rfl⟩
    | some block =>
      obtain ⟨info, hopens⟩ := hinfo block hblock
      exact ⟨info, MetaInfo.decodeValue_eq_ok_iff.2 hopens⟩
  have hread := SignatureInfo.decodeValue_eq_ok_iff.2 hsignature
  rw [List.length_append] at hheader
  refine ⟨⟨name, metaInfo, p.content.getD [], signatureInfo, value, wire, signed⟩,
    WrittenAs.decode ⟨rfl, p, header, signature, ?_, hheader, hspell, ?_, hvalue⟩⟩
  · rw [hwire, List.append_assoc]
  · exact ⟨hname, hmeta, rfl, hread⟩

/-- Bytes are read just if they are a packet whose two blocks begin with their fields, with anything
behind them in which no field begins that was not found. The packet that is read has one set of
blocks; they begin with the fields of the packet, and each is a sequence of complete elements just
if what is left unread of it is one. -/
theorem blocks_open_with_their_fields (wire : Bytes) :
    ((∃ data, decode wire = .ok data) ↔ ∃ p : Payloads, p.Within wire ∧ p.Open) ∧
      ∀ data, decode wire = .ok data → ∃ p : Payloads, (∀ q : Payloads, q.Within wire ↔ q = p) ∧
        (∀ block ∈ p.metaInfo, ∃ unread, data.metaInfo.Opens block unread ∧
          (Complete block ↔ Complete unread)) ∧
        ∃ unread, data.signatureInfo.Opens p.signatureInfo unread ∧
          (Complete p.signatureInfo ↔ Complete unread) := by
  refine ⟨⟨?_, fun ⟨p, hwithin, hopen⟩ => hopen.decode hwithin⟩, ?_⟩
  · rintro ⟨data, done⟩
    obtain ⟨p, hwithin, hmean⟩ := (writtenAs_of_decode done).exists_blocks
    obtain ⟨hinfo, hsignature⟩ := hmean.opens
    exact ⟨p, hwithin, ⟨_, hmean.name⟩, fun block hblock => ⟨_, hinfo block hblock⟩, _, hsignature⟩
  · intro data done
    obtain ⟨p, hwithin, hmean⟩ := (writtenAs_of_decode done).exists_blocks
    obtain ⟨hinfo, unread, hsignature⟩ := hmean.opens
    refine ⟨p, fun q => ⟨fun hq => hq.unique hwithin, fun h => h ▸ hwithin⟩, ?_, unread, hsignature,
      hsignature.complete_iff⟩
    intro block hblock
    obtain ⟨unread, hopens⟩ := hinfo block hblock
    exact ⟨unread, hopens, hopens.complete_iff⟩

/-- Blocks of which two end with the first byte of a number of three. -/
def cutOff : Payloads where
  name := [8, 1, 97]
  metaInfo := some [0xFD]
  content := none
  signatureInfo := [27, 1, 0, 0xFD]

/-- The bytes of a packet with these blocks and an empty signature. -/
def cutOffWire : Bytes :=
  [6, 16, 7, 3, 8, 1, 97, 20, 1, 0xFD, 22, 4, 27, 1, 0, 0xFD, 23, 0]

theorem within_cutOffWire : cutOff.Within cutOffWire := by
  have hbytes : cutOffWire = write Code.data (write Code.name cutOff.name ++
      write Code.metaInfo [0xFD] ++ [] ++ write Code.signatureInfo cutOff.signatureInfo ++
      write Code.signatureValue []) := by decide
  rw [hbytes]
  exact ⟨_, [], _, spells_write (by decide), ⟨_, _, _, _, spells_write (by decide),
    spells_write (by decide), rfl, spells_write (by decide), rfl⟩, spells_write (by decide)⟩

/-- No field begins with the first byte of a number of three. -/
theorem begins_cutOff (typ : UInt64) : Begins typ none [0xFD] [0xFD] := by
  have hpeek : Reader.peek? ⟨0, [0xFD]⟩ = none := by decide
  have hnone : SpellsOptional typ none [] := rfl
  exact begins_of_spellsOptional hnone (by rw [hpeek]; nofun)

theorem open_cutOff : cutOff.Open where
  name := by
    have hwritable : Name.Writable ⟨[.generic [97]]⟩ := by unfold Name.Writable; decide
    have hbytes : cutOff.name = Name.encodeValue ⟨[.generic [97]]⟩ := by decide
    rw [hbytes]
    exact ⟨_, Name.decodeValue_encodeValue hwritable (Name.sound_singleton (by decide))⟩
  metaInfo := by
    rintro _ ⟨⟩
    exact ⟨.empty, [0xFD], none, none, _, begins_cutOff _, begins_cutOff _, rfl, rfl⟩
  signatureInfo :=
    ⟨⟨0, none⟩, [0xFD], [0], none, _, ⟨write _ [0], spells_write (by decide), by decide⟩,
      begins_cutOff _, rfl, rfl⟩

theorem not_complete_cutOff : ¬Complete cutOff.signatureInfo := by
  have hbytes : cutOff.signatureInfo = write Code.signatureType [0] ++ [0xFD] := by decide
  rw [hbytes, complete_append_iff (spells_write (by decide))]
  exact not_complete_of_read (by decide) (e := .truncated) (by decide)

/-- What is left unread of both blocks is the byte of a number that is cut off. -/
theorem blocks_open_with_their_fields_of_cut_off :
    ∃ data, decode cutOffWire = .ok data ∧ (∀ q : Payloads, q.Within cutOffWire ↔ q = cutOff) ∧
      (∃ unread, data.metaInfo.Opens [0xFD] unread ∧ ¬Complete unread) ∧
      ∃ unread, data.signatureInfo.Opens cutOff.signatureInfo unread ∧ ¬Complete unread := by
  obtain ⟨hread, hblocks⟩ := blocks_open_with_their_fields cutOffWire
  obtain ⟨data, done⟩ := hread.2 ⟨cutOff, within_cutOffWire, open_cutOff⟩
  obtain ⟨p, hwithin, hinfo, unread, hopens, hcomplete⟩ := hblocks data done
  obtain rfl := (hwithin cutOff).1 within_cutOffWire
  obtain ⟨unread', hopens', hcomplete'⟩ := hinfo [0xFD] rfl
  have hinfo : ¬Complete [0xFD] := not_complete_of_read (by decide) (e := .truncated) (by decide)
  exact ⟨data, done, hwithin, ⟨unread', hopens', mt hcomplete'.2 hinfo⟩, unread, hopens,
    mt hcomplete.2 not_complete_cutOff⟩

/-- Blocks that are not sequences of complete elements are read. -/
theorem cut_off_blocks_are_read :
    ¬∀ (wire : Bytes) (data : Data) (p : Payloads), decode wire = .ok data → p.Within wire →
      (∀ block ∈ p.metaInfo, Complete block) ∧ Complete p.signatureInfo := by
  intro hall
  obtain ⟨data, done⟩ := open_cutOff.decode within_cutOffWire
  exact not_complete_cutOff (hall cutOffWire data cutOff done within_cutOffWire).2

end Data

end NamedData
