import Mathlib.Tactic.SplitIfs
import NamedData.Packet.Data
import NamedData.Proofs.Tlv.Element
/-!
# What bytes are a packet

A packet is a header, the blocks that the signature covers, and the signature: a name, the facts
about the content, the content and how the packet is signed, the second and third of which may be
missing, and then one block with the value of the signature. The header tells the length of all
that follows it. Type and length numbers may stand in any of their forms. Reading accepts these
byte strings and no others, and gives what their blocks are read as.

    decode w = .ok d → d.WrittenAs w                                       (writtenAs_of_decode)
    d.WrittenAs w → decode w = .ok d                                       (WrittenAs.decode)
-/

namespace NamedData.Data

open Tlv

/-! ## The grammar of packets -/

/-- The values of the blocks that a signature covers. -/
structure Payloads where
  name : Bytes
  metaInfo : Option Bytes
  content : Option Bytes
  signatureInfo : Bytes

/-- Whether bytes are the blocks with these values, in their order. -/
def Payloads.Spell (p : Payloads) (signed : Bytes) : Prop :=
  ∃ name metaInfo content signatureInfo,
    Spells Code.name p.name name ∧ SpellsOptional Code.metaInfo p.metaInfo metaInfo ∧
      SpellsOptional Code.content p.content content ∧
      Spells Code.signatureInfo p.signatureInfo signatureInfo ∧
      signed = name ++ metaInfo ++ content ++ signatureInfo

/-- Whether the values are read as the parts of a packet. A block that is missing says nothing. -/
structure Payloads.Mean (p : Payloads) (data : Data) : Prop where
  name : Name.decodeValue p.name = .ok data.name
  metaInfo : (p.metaInfo.elim (.ok .empty) MetaInfo.decodeValue) = .ok data.metaInfo
  content : data.content = p.content.getD []
  signatureInfo : SignatureInfo.decodeValue p.signatureInfo = .ok data.signatureInfo

/-- Whether bytes are a header, what the signature of a packet covers, and its signature, and the
blocks in between are read as the parts of the packet. -/
def WrittenAs (data : Data) (wire : Bytes) : Prop :=
  data.wire = wire ∧
    ∃ (p : Payloads) (header value : Bytes),
      wire = header ++ data.signedPortion ++ value ∧
      Header Code.data (data.signedPortion.length + value.length) header ∧
      p.Spell data.signedPortion ∧ p.Mean data ∧
      Spells Code.signatureValue data.signatureValue value

/-! ## Reading -/

/-- Only packets are read. -/
theorem writtenAs_of_decode {wire : Bytes} {data : Data} (done : decode wire = .ok data) :
    data.WrittenAs wire := by
  unfold decode at done
  obtain ⟨outer, houter, done⟩ := bind_eq_ok.1 done
  obtain ⟨packet, hpacket, done⟩ := bind_eq_ok.1 done
  obtain ⟨⟨nameElement, r₁⟩, hname, done⟩ := bind_eq_ok.1 done
  obtain ⟨name, hdecoded, done⟩ := bind_eq_ok.1 done
  obtain ⟨⟨infoElement, r₂⟩, hinfo, done⟩ := bind_eq_ok.1 done
  obtain ⟨hdata, rfl⟩ := Element.expectType_eq_ok_iff.1 hpacket
  obtain ⟨-, header, hheader, hwire⟩ := Element.readSingle_eq_ok_iff.1 houter
  obtain ⟨hrest₁, hposition₁, hname⟩ := Reader.of_expect hname
  obtain ⟨info, hrest₂, hposition₂, hinfo⟩ := Reader.of_optional hinfo
  -- the facts are read from their block, or there is none and nothing is said
  cases infoElement <;>
  · obtain ⟨metaInfo, hmeta, done⟩ := bind_eq_ok.1 done
    obtain ⟨⟨contentElement, r₃⟩, hcontent, done⟩ := bind_eq_ok.1 done
    obtain ⟨⟨signatureElement, r₄⟩, hsignature, done⟩ := bind_eq_ok.1 done
    obtain ⟨signatureInfo, hread, done⟩ := bind_eq_ok.1 done
    obtain ⟨⟨valueElement, r₅⟩, hvalue, done⟩ := bind_eq_ok.1 done
    obtain ⟨content, hrest₃, hposition₃, hcontent⟩ := Reader.of_optional hcontent
    obtain ⟨hrest₄, hposition₄, hsignature⟩ := Reader.of_expect hsignature
    obtain ⟨hrest₅, hposition₅, hvalue⟩ := Reader.of_expect hvalue
    simp only at done
    split at done
    · next hempty =>
      cases done
      have hend : r₅.rest = [] := List.isEmpty_iff.1 hempty
      have hvalues : outer.value = nameElement.wire ++ info ++ content ++ signatureElement.wire ++
          valueElement.wire := by
        have hfirst : outer.value = nameElement.wire ++ r₁.rest := hrest₁
        rw [hfirst, hrest₂, hrest₃, hrest₄, hrest₅, hend]
        simp only [List.append_assoc, List.append_nil]
      have hsigned : outer.value.take r₄.position =
          nameElement.wire ++ info ++ content ++ signatureElement.wire := by
        rw [hvalues]
        apply List.take_left'
        rw [hposition₄, hposition₃, hposition₂, hposition₁]
        simp only [List.length_append, Reader.ofBytes, Nat.zero_add]
      have hsplit : outer.value = outer.value.take r₄.position ++ valueElement.wire :=
        hsigned ▸ hvalues
      refine ⟨rfl, ⟨_, _, _, _⟩, header, valueElement.wire, ?_, ?_,
        ⟨_, _, _, _, hname, hinfo, hcontent, hsignature, hsigned⟩, ⟨hdecoded, hmeta, ?_, hread⟩,
        hvalue⟩
      · rw [hwire, List.append_assoc, ← hsplit]
      · rw [← List.length_append, ← hsplit]
        exact hdata ▸ hheader
      · cases contentElement <;> rfl
    · cases done

/-- Every packet is read. -/
theorem WrittenAs.decode {wire : Bytes} {data : Data} (h : data.WrittenAs wire) :
    decode wire = .ok data := by
  obtain ⟨hwire, p, header, value, hsplit, hheader, hspell, hmean, hvalue⟩ := h
  obtain ⟨name, metaInfo, content, signatureInfo, hname, hinfo, hcontent, hsignature, hsigned⟩ :=
    hspell
  have houter : Element.readSingle wire =
      .ok ⟨Code.data, data.signedPortion ++ value, wire⟩ := by
    refine Element.readSingle_eq_ok_iff.2 ⟨rfl, header, ?_, ?_⟩
    · rwa [List.length_append]
    · rw [hsplit, List.append_assoc]
  have hparts : data.signedPortion ++ value =
      name ++ (metaInfo ++ (content ++ (signatureInfo ++ (value ++ [])))) := by
    rw [hsigned]
    simp only [List.append_assoc, List.append_nil]
  have hnext : ∀ position, Reader.peek? ⟨position, content ++ (signatureInfo ++ (value ++ []))⟩ ≠
      some Code.metaInfo := by
    intro position
    rw [Reader.peek?_append_optional _ _ hcontent, Reader.peek?_append _ _ hsignature]
    split_ifs <;> decide
  have hlast : ∀ position, Reader.peek? ⟨position, signatureInfo ++ (value ++ [])⟩ ≠
      some Code.content := by
    intro position
    rw [Reader.peek?_append _ _ hsignature]
    decide
  have hdata : ({ data with content := p.content.getD [], wire } : Data) = data := by
    rw [← hmean.content, ← hwire]
  have hsignedPortion : (data.signedPortion ++ value).take
      (0 + name.length + metaInfo.length + content.length + signatureInfo.length) =
        data.signedPortion := by
    apply List.take_left'
    rw [hsigned]
    simp only [List.length_append, Nat.zero_add]
  have hmeta := hmean.metaInfo
  have hfirst := Reader.expect_append 0 (metaInfo ++ (content ++ (signatureInfo ++ (value ++ []))))
    hname "Name"
  rw [← hparts] at hfirst
  unfold Data.decode
  refine bind_eq_ok.2 ⟨_, houter, ?_⟩
  refine bind_eq_ok.2 ⟨_, if_pos rfl, ?_⟩
  refine bind_eq_ok.2 ⟨_, hfirst, ?_⟩
  refine bind_eq_ok.2 ⟨_, hmean.name, ?_⟩
  refine bind_eq_ok.2 ⟨_, Reader.optional_append _ _ hinfo (hnext _), ?_⟩
  cases hfield : p.metaInfo <;>
  · rw [hfield] at hmeta
    refine bind_eq_ok.2 ⟨_, hmeta, ?_⟩
    refine bind_eq_ok.2 ⟨_, Reader.optional_append _ _ hcontent (hlast _), ?_⟩
    refine bind_eq_ok.2 ⟨_, Reader.expect_append _ _ hsignature _, ?_⟩
    refine bind_eq_ok.2 ⟨_, hmean.signatureInfo, ?_⟩
    refine bind_eq_ok.2 ⟨_, Reader.expect_append _ _ hvalue _, ?_⟩
    simp only [Reader.isEmpty, List.isEmpty_nil, if_true]
    rw [hsignedPortion]
    cases hpayload : p.content <;>
    · rw [hpayload] at hdata
      exact congrArg Except.ok hdata

/-- A byte string is read if and only if it is a packet, in whatever forms its numbers stand, and
what is read is what it says: its blocks are read as the parts of the packet, it is all the bytes of
the packet, and what its signature covers is what stands between the header and the signature. -/
theorem reads_exactly_packets {wire : Bytes} {data : Data} :
    Data.decode wire = .ok data ↔ data.WrittenAs wire :=
  ⟨writtenAs_of_decode, WrittenAs.decode⟩

end NamedData.Data
