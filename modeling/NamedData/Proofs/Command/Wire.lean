import Mathlib.Tactic.SplitIfs
import NamedData.Command.Request
import NamedData.Proofs.Name.Extension
import NamedData.Proofs.Packet.Signature
import NamedData.Validator
/-!
# Signed commands on the wire

A signed command is understood as it was meant: its signature holds, and the verb and the parameter
block are found behind the root, whatever its length. Of the spans in the block whole milliseconds
are left.

    decode p.encode = .ok q ↔ the name in p is sound and q = p.onWire    (decode_encode_eq_ok_iff)
    parse root n = .ok (v, p) ↔ Carries root n v p                             (parse_eq_ok_iff)
-/

namespace NamedData

open Tlv

theorem Validator.checkCommand_digest_eq_ok_iff {root : Name} {interest : Interest} :
    (digest root).checkCommand interest = .ok () ↔
      root.isPrefixOf interest.name = true ∧ interest.verifiesDigest = true := by
  cases hunder : root.isPrefixOf interest.name <;>
    cases hverifies : interest.verifiesDigest <;> simp [digest, hunder, hverifies]

namespace Command

/-! ## Parameter blocks -/

/-- What is left of a block after the wire: its spans in whole milliseconds. -/
def Parameter.onWire (p : Parameter) : Parameter where
  name := p.name
  syncTimeout := p.syncTimeout.map Duration.onWire
  maxInterestNum := p.maxInterestNum
  interestLifetime := p.interestLifetime.map Duration.onWire

theorem Parameter.encodeValue_eq (p : Parameter) : p.encodeValue =
    optionalField Code.name (p.name.map Name.encodeValue) ++
      (optionalField Code.syncTimeout
          (p.syncTimeout.map fun span => NonNeg.encode span.wireMillis) ++
        (optionalField Code.maxInterestNum (p.maxInterestNum.map fun n => NonNeg.encode n) ++
          (optionalField Code.interestLifetime
            (p.interestLifetime.map fun span => NonNeg.encode span.wireMillis) ++ []))) := by
  obtain ⟨name, syncTimeout, maxInterestNum, interestLifetime⟩ := p
  simp only [List.append_nil, ← List.append_assoc]
  cases name <;> cases syncTimeout <;> cases maxInterestNum <;> cases interestLifetime <;> rfl

/-- No part of a block is longer than the block. -/
theorem Parameter.short_parts {p : Parameter} (short : p.encode.length < 2 ^ 63) :
    p.encodeValue.length < 2 ^ 64 ∧
      ∀ value ∈ p.name.map Name.encodeValue, value.length < 2 ^ 64 := by
  have hvalue : p.encodeValue.length < 2 ^ 64 :=
    Nat.lt_trans (Nat.lt_of_le_of_lt (length_le_write Code.commandParameter _) short) (by decide)
  refine ⟨hvalue, ?_⟩
  intro value h
  have hparts := congrArg List.length p.encodeValue_eq
  obtain ⟨name, hname, rfl⟩ := Option.map_eq_some_iff.1 h
  have hle := length_le_write Code.name name.encodeValue
  simp only [List.length_append, hname, optionalField, Option.map_some, Option.getD_some] at hparts
  omega

/-- Reading a block comes down to reading its name. -/
theorem Parameter.decode_encode (p : Parameter) (short : p.encode.length < 2 ^ 63) :
    decode p.encode =
      (p.name.mapM fun name => Name.decodeValue name.encodeValue) >>= fun name =>
        .ok { p.onWire with name } := by
  obtain ⟨hvalue, hname⟩ := short_parts short
  rw [decode, encode, Element.readSingle_write hvalue]
  simp only [bind, Except.bind, Element.expectType, if_true, Reader.ofBytes]
  -- the fields have types of their own, so none is taken for one that is missing
  rw [p.encodeValue_eq, Reader.optional_optionalField _ _ _ hname (by
    rw [Reader.peek?_optionalField, Reader.peek?_optionalField, Reader.peek?_optionalField,
      Reader.peek?_nil]
    split_ifs <;> decide)]
  simp only
  rw [Element.mapM_value]
  cases p.name.mapM fun name => Name.decodeValue name.encodeValue with
  | error e => rfl
  | ok name =>
    simp only
    rw [Reader.optional_optionalField _ _ _ NonNeg.short_of_mem_map (by
      rw [Reader.peek?_optionalField, Reader.peek?_optionalField, Reader.peek?_nil]
      split_ifs <;> decide)]
    simp only
    rw [Element.mapM_number]
    simp only
    rw [Reader.optional_optionalField _ _ _ NonNeg.short_of_mem_map (by
      rw [Reader.peek?_optionalField, Reader.peek?_nil]
      split_ifs <;> decide)]
    simp only
    rw [Element.mapM_number _ _ fun n => n]
    simp only
    rw [Reader.optional_optionalField _ _ _ NonNeg.short_of_mem_map (by
      simp [Reader.peek?_nil])]
    simp only
    rw [Element.mapM_number]
    have hspans : Duration.ofMillis ∘ Duration.wireMillis = Duration.onWire :=
      funext Duration.ofMillis_wireMillis
    simp only [Reader.isEmpty, List.isEmpty_nil, if_true, pure, Except.pure, Option.map_map,
      Option.map_id', hspans]
    rfl

/-- A block is read back if and only if its name can be read. -/
theorem Parameter.decode_encode_eq_ok_iff {p found : Parameter}
    (short : p.encode.length < 2 ^ 63) :
    decode p.encode = .ok found ↔ (∀ name ∈ p.name, name.Sound) ∧ p.onWire = found := by
  have hfits : ∀ name ∈ p.name, name.Writable := by
    intro name hname
    exact Name.Fits.writable ((short_parts short).2 _ (Option.mem_map_of_mem _ hname))
  have hback : ∀ name ∈ p.name, ∀ other, Name.decodeValue name.encodeValue = .ok other ↔
      name.Sound ∧ name = other :=
    fun name hname _ => Name.decodeValue_encodeValue_eq_ok_iff (hfits name hname)
  rw [p.decode_encode short, bind_eq_ok]
  constructor
  · rintro ⟨name, hname, h⟩
    obtain ⟨hsound, rfl⟩ := (mapM_eq_ok_iff hback).1 hname
    exact ⟨hsound, Except.ok.inj h⟩
  · rintro ⟨hsound, rfl⟩
    exact ⟨p.name, (mapM_eq_ok_iff hback).2 ⟨hsound, rfl⟩, rfl⟩

/-! ## Commands in names -/

/-- Whether a name is a root, the component that all commands have, a verb, a parameter block, and
whatever comes then. -/
def Carries (root name : Name) (verb : Verb) (parameter : Parameter) : Prop :=
  ∃ familyPart verbPart block rest,
    name.components = root.components ++ familyPart :: verbPart :: block :: rest ∧
      familyPart.value = Bytes.ofText family ∧ verbPart.value = Bytes.ofText verb.text ∧
      Parameter.decode block.value = .ok parameter

theorem Verb.ofBytes?_eq_some_iff {value : Bytes} {verb : Verb} :
    ofBytes? value = some verb ↔ value = Bytes.ofText verb.text := by
  unfold ofBytes?
  constructor
  · intro h
    have hspelled := List.find?_some h
    exact (of_decide_eq_true hspelled).symm
  · rintro rfl
    cases verb <;> decide

/-- The component of a name that stands behind a root and `offset` others. -/
theorem get?_behind {root name : Name} {behind : List Component}
    (h : name.components = root.components ++ behind) (offset : Nat) :
    name.get? (root.length + offset) = behind[offset]? := by
  rw [Name.get?, h, Name.length, List.getElem?_append_right (by omega), Nat.add_sub_cancel_left]

/-- The verb of a command is in the second component behind the root, and the block in the third. -/
theorem parse_eq_ok_iff {root name : Name} {verb : Verb} {parameter : Parameter} :
    parse root name = .ok (verb, parameter) ↔ Carries root name verb parameter := by
  unfold parse
  constructor
  · intro h
    dsimp only at h
    split at h
    · cases h
    next hplace =>
    rw [Bool.or_eq_true, not_or, Bool.not_eq_true', Bool.not_eq_false, decide_eq_true_eq,
      not_not] at hplace
    obtain ⟨hunder, hfamily⟩ := hplace
    obtain ⟨behind, hname⟩ := Name.isPrefixOf_iff.1 hunder
    simp only [get?_behind hname] at h hfamily
    split at h
    · next found hverb =>
      split at h
      · next block hblock =>
        split at h
        · next hdecode =>
          cases h
          match behind with
          | [] => cases hfamily
          | [_] => cases hverb
          | [_, _] => cases hblock
          | familyPart :: verbPart :: blockPart :: rest =>
            exact ⟨familyPart, verbPart, blockPart, rest, hname, Option.some.inj hfamily,
              Verb.ofBytes?_eq_some_iff.1 hverb, Option.some.inj hblock ▸ hdecode⟩
        · cases h
      · cases h
    · cases h
  · rintro ⟨familyPart, verbPart, block, rest, hname, hfamily, hverb, hblock⟩
    have hunder : root.isPrefixOf name := Name.isPrefixOf_iff.2 ⟨_, hname⟩
    have hspelled := Verb.ofBytes?_eq_some_iff.2 hverb
    simp only [get?_behind hname, List.getElem?_cons_zero, List.getElem?_cons_succ,
      Option.map_some, Option.bind_some, hunder, hfamily, hspelled, hblock, ne_eq,
      not_true_eq_false, decide_false, Bool.not_true, Bool.or_self, Bool.false_eq_true, if_false]
    rfl

/-! ## Signed commands -/

/-- A signed command is the root, the three components of the command, and its signature. -/
theorem components_interest (root : Name) (verb : Verb) (parameter : Parameter) :
    ∃ signature, (interest root verb parameter).name.components = root.components ++
      .ofText family :: .ofText verb.text :: .generic parameter.encode :: signature := by
  obtain ⟨info, value, hsigned⟩ := (Interest.ofName (name root verb parameter)).name_sign
  refine ⟨[info, value], ?_⟩
  rw [interest, hsigned]
  simp [Interest.ofName, name, Name.pushText, Name.push]

theorem isPrefixOf_interest (root : Name) (verb : Verb) (parameter : Parameter) :
    root.isPrefixOf (interest root verb parameter).name = true := by
  obtain ⟨_, hcomponents⟩ := components_interest root verb parameter
  exact Name.isPrefixOf_iff.2 ⟨_, hcomponents⟩

/-- What a signed command carries is its verb and what its block is read as. -/
theorem carries_interest {root : Name} {verb : Verb} {parameter found : Parameter}
    (read : Parameter.decode parameter.encode = .ok found) :
    Carries root (interest root verb parameter).name verb found := by
  obtain ⟨_, hcomponents⟩ := components_interest root verb parameter
  exact ⟨_, _, _, _, hcomponents, rfl, rfl, read⟩

/-- Under any root, a signed command whose sync group has a name that can be read, or none at all,
holds, is accepted under that root, and is read as it was meant, its spans in whole milliseconds. -/
theorem signed_commands_are_understood (root : Name) (verb : Verb) (parameter : Parameter)
    (sound : ∀ group ∈ parameter.name, group.Sound) (short : parameter.encode.length < 2 ^ 63) :
    let signed := interest root verb parameter
    signed.verifiesDigest = true ∧ (Validator.digest root).checkCommand signed = .ok () ∧
      ∃ found, parse root signed.name = .ok (verb, found) ∧ found.name = parameter.name ∧
        found.maxInterestNum = parameter.maxInterestNum ∧
        found.syncTimeout = parameter.syncTimeout.map Duration.onWire ∧
        found.interestLifetime = parameter.interestLifetime.map Duration.onWire := by
  intro signed
  have hverifies : signed.verifiesDigest = true := Interest.verifiesDigest_sign _
  have hunder : root.isPrefixOf signed.name = true := isPrefixOf_interest root verb parameter
  have hread : Parameter.decode parameter.encode = .ok parameter.onWire :=
    (Parameter.decode_encode_eq_ok_iff short).2 ⟨sound, rfl⟩
  exact ⟨hverifies, Validator.checkCommand_digest_eq_ok_iff.2 ⟨hunder, hverifies⟩,
    parameter.onWire, parse_eq_ok_iff.2 (carries_interest hread), rfl, rfl, rfl, rfl⟩

/-- Under the empty root, with all the fields: a digest in the name of the group, and spans of which
one wraps and one loses its fraction. -/
theorem signed_commands_are_understood_under_empty_root :
    let group : Name := ⟨[.ofText "group", ⟨Code.digestComponent, List.replicate 32 7⟩]⟩
    let parameter : Parameter := ⟨some group, some ⟨2 ^ 64 * 1000000 + 5000000⟩, some 70000,
      some ⟨1999999⟩⟩
    let signed := interest .empty .stop parameter
    (∀ group ∈ parameter.name, group.Sound) ∧ parameter.encode.length < 2 ^ 63 ∧
      signed.verifiesDigest = true ∧
      ∃ found, parse .empty signed.name = .ok (.stop, found) ∧ found.name = some group ∧
        found.maxInterestNum = some 70000 ∧ found.syncTimeout = some (.ofMillis 5) ∧
        found.interestLifetime = some (.ofMillis 1) := by
  intro group parameter signed
  have hsound : ∀ group ∈ parameter.name, group.Sound := by
    rintro _ ⟨rfl⟩
    unfold Name.Sound Component.Sound
    decide
  have hshort : parameter.encode.length < 2 ^ 63 := by decide
  obtain ⟨hverifies, _, hunderstood⟩ :=
    signed_commands_are_understood .empty .stop parameter hsound hshort
  exact ⟨hsound, hshort, hverifies, hunderstood⟩

end Command

end NamedData
