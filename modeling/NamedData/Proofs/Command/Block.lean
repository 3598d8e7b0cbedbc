import Mathlib.Tactic.SplitIfs
import NamedData.Command.Parameter
import NamedData.Proofs.Packet.Blocks
/-!
# What bytes are a parameter block

A parameter block is one element, and its value is the four fields of a block, one behind the
other, each there or not. Numbers and names stand in the fields as they stand elsewhere, and the
headers may be longer than they need be. Reading takes these byte strings and no others: a field is
looked for once, at its place, and nothing may be left over. Since bytes are a row of elements in
one way, a block with a field twice, in another's place or of another type is not taken, nor is one
that ends inside an element.

    decode w = .ok p → p.WrittenAs w                                       (writtenAs_of_decode)
    p.WrittenAs w → decode w = .ok p                                       (WrittenAs.decode)
    f.Spell block → ∃ es, Row es block ∧ es.map typ <+ fieldTypes          (Fields.Spell.exists_row)
    Row es b → Row fs b → es = fs                                          (Row.unique)
-/

namespace NamedData

open Tlv

/-- Whether bytes are a span as a number of milliseconds. -/
def Duration.Form (span : Duration) (value : Bytes) : Prop :=
  ∃ millis, NonNeg.Form millis value ∧ span = .ofMillis millis

namespace Command.Parameter

/-! ## The grammar of blocks -/

/-- The types of the fields in their order. -/
def fieldTypes : List UInt64 :=
  [Code.name, Code.syncTimeout, Code.maxInterestNum, Code.interestLifetime]

/-- The values of the fields. -/
structure Fields where
  name : Option Bytes
  syncTimeout : Option Bytes
  maxInterestNum : Option Bytes
  interestLifetime : Option Bytes

/-- Whether bytes are the fields with these values, in their order. -/
def Fields.Spell (f : Fields) (block : Bytes) : Prop :=
  ∃ name syncTimeout maxInterestNum interestLifetime,
    SpellsOptional Code.name f.name name ∧
      SpellsOptional Code.syncTimeout f.syncTimeout syncTimeout ∧
      SpellsOptional Code.maxInterestNum f.maxInterestNum maxInterestNum ∧
      SpellsOptional Code.interestLifetime f.interestLifetime interestLifetime ∧
      block = name ++ syncTimeout ++ maxInterestNum ++ interestLifetime

/-- Whether the values are those of a parameter block, each missing where the block has none. -/
structure Fields.Mean (f : Fields) (p : Parameter) : Prop where
  name : Option.Rel (fun value name => Name.decodeValue value = .ok name) f.name p.name
  syncTimeout : Option.Rel (fun value span => span.Form value) f.syncTimeout p.syncTimeout
  maxInterestNum : Option.Rel (fun value n => NonNeg.Form n value) f.maxInterestNum p.maxInterestNum
  interestLifetime :
    Option.Rel (fun value span => span.Form value) f.interestLifetime p.interestLifetime

/-- Whether bytes are one element that holds the fields of a parameter block and nothing else. -/
def WrittenAs (p : Parameter) (wire : Bytes) : Prop :=
  ∃ (f : Fields) (block : Bytes), Spells Code.commandParameter block wire ∧ f.Spell block ∧ f.Mean p

/-- The fields of a block are a row of elements, with no type twice, out of its place or unknown. -/
theorem Fields.Spell.exists_row {f : Fields} {block : Bytes} (h : f.Spell block) :
    ∃ es, Row es block ∧ (es.map Element.typ).Sublist fieldTypes := by
  obtain ⟨_, _, _, _, hname, htimeout, hnum, hlifetime, rfl⟩ := h
  obtain ⟨names, hnames, hnameType⟩ := hname.exists_row
  obtain ⟨timeouts, htimeouts, htimeoutType⟩ := htimeout.exists_row
  obtain ⟨nums, hnums, hnumType⟩ := hnum.exists_row
  obtain ⟨lifetimes, hlifetimes, hlifetimeType⟩ := hlifetime.exists_row
  refine ⟨_, ((hnames.append htimeouts).append hnums).append hlifetimes, ?_⟩
  simp only [List.map_append]
  exact ((hnameType.append htimeoutType).append hnumType).append hlifetimeType

/-! ## Reading -/

/-- A number that may be missing is read, there or not. -/
theorem mapM_number_iff {found : Option Element} {n : Option UInt64} :
    found.mapM Element.number = .ok n ↔
      Option.Rel (fun value n => NonNeg.Form n value) (found.map Element.value) n := by
  have hread : (found.map Element.value).mapM NonNeg.decode = .ok n ↔
      Option.Rel (fun value n => NonNeg.decode value = .ok n) _ _ := mapM_eq_ok_iff_rel
  simp only [NonNeg.decode_eq_ok_iff] at hread
  rw [← hread, ← Element.mapM_eq]
  rfl

theorem mapM_number_map {field : Option Bytes} {n : Option UInt64}
    (h : Option.Rel (fun value n => NonNeg.Form n value) field n) (typ : UInt64) (wire : Bytes) :
    (field.map fun value => Element.mk typ value wire).mapM Element.number = .ok n := by
  rwa [mapM_number_iff, Element.map_value_map]

theorem rel_span {field : Option Bytes} {millis : Option UInt64}
    (h : Option.Rel (fun value n => NonNeg.Form n value) field millis) :
    Option.Rel (fun value (span : Duration) => span.Form value) field
      (millis.map Duration.ofMillis) := by
  cases h with
  | none => exact .none
  | some hform => exact .some ⟨_, hform, rfl⟩

theorem exists_millis {field : Option Bytes} {spans : Option Duration}
    (h : Option.Rel (fun value span => span.Form value) field spans) :
    ∃ millis, Option.Rel (fun value n => NonNeg.Form n value) field millis ∧
      spans = millis.map Duration.ofMillis := by
  cases h with
  | none => exact ⟨none, .none, rfl⟩
  | some hform =>
    obtain ⟨millis, hform, rfl⟩ := hform
    exact ⟨some millis, .some hform, rfl⟩

/-- Only parameter blocks are read. -/
theorem writtenAs_of_decode {wire : Bytes} {p : Parameter} (done : decode wire = .ok p) :
    p.WrittenAs wire := by
  unfold decode at done
  obtain ⟨outer, houter, done⟩ := bind_eq_ok.1 done
  obtain ⟨block, hblock, done⟩ := bind_eq_ok.1 done
  obtain ⟨htyp, rfl⟩ := Element.expectType_eq_ok_iff.1 hblock
  obtain ⟨⟨nameElement, r₁⟩, hname, done⟩ := bind_eq_ok.1 done
  obtain ⟨name, hdecoded, done⟩ := bind_eq_ok.1 done
  obtain ⟨⟨timeoutElement, r₂⟩, htimeout, done⟩ := bind_eq_ok.1 done
  obtain ⟨timeout, hmillis, done⟩ := bind_eq_ok.1 done
  obtain ⟨⟨numElement, r₃⟩, hnum, done⟩ := bind_eq_ok.1 done
  obtain ⟨num, hnumber, done⟩ := bind_eq_ok.1 done
  obtain ⟨⟨lifetimeElement, r₄⟩, hlifetime, done⟩ := bind_eq_ok.1 done
  obtain ⟨lifetime, hmillis', done⟩ := bind_eq_ok.1 done
  obtain ⟨-, hwire⟩ := Element.readSingle_eq_ok_iff.1 houter
  obtain ⟨nameWire, hrest₁, -, hname⟩ := Reader.of_optional hname
  obtain ⟨timeoutWire, hrest₂, -, htimeout⟩ := Reader.of_optional htimeout
  obtain ⟨numWire, hrest₃, -, hnum⟩ := Reader.of_optional hnum
  obtain ⟨lifetimeWire, hrest₄, -, hlifetime⟩ := Reader.of_optional hlifetime
  rw [Element.mapM_eq, mapM_eq_ok_iff_rel] at hdecoded
  split at done
  · next hempty =>
    cases done
    have hend : r₄.rest = [] := List.isEmpty_iff.1 hempty
    have hvalue : outer.value = nameWire ++ timeoutWire ++ numWire ++ lifetimeWire := by
      have hfirst : outer.value = nameWire ++ r₁.rest := hrest₁
      rw [hfirst, hrest₂, hrest₃, hrest₄, hend]
      simp only [List.append_assoc, List.append_nil]
    refine ⟨⟨_, _, _, _⟩, _, htyp ▸ hwire,
      ⟨_, _, _, _, hname, htimeout, hnum, hlifetime, hvalue⟩, ?_⟩
    exact ⟨hdecoded, rel_span (mapM_number_iff.1 hmillis), mapM_number_iff.1 hnumber,
      rel_span (mapM_number_iff.1 hmillis')⟩
  · cases done

/-- Every parameter block is read. -/
theorem WrittenAs.decode {wire : Bytes} {p : Parameter} (h : p.WrittenAs wire) :
    decode wire = .ok p := by
  obtain ⟨f, block, hwire, ⟨name, timeout, num, lifetime, hname, htimeout, hnum, hlifetime, hblock⟩,
    hmean⟩ := h
  obtain ⟨millis, hmillis, hspan⟩ := exists_millis hmean.syncTimeout
  obtain ⟨millis', hmillis', hspan'⟩ := exists_millis hmean.interestLifetime
  have hparts : block = name ++ (timeout ++ (num ++ (lifetime ++ []))) := by
    rw [hblock]
    simp only [List.append_assoc, List.append_nil]
  -- the fields have types of their own, so none is taken for one that is missing
  have hfourth : ∀ position, Reader.peek? ⟨position, []⟩ ≠ some Code.interestLifetime := nofun
  have hthird : ∀ position, Reader.peek? ⟨position, lifetime ++ []⟩ ≠ some Code.maxInterestNum := by
    intro position
    rw [Reader.peek?_append_optional _ _ hlifetime, Reader.peek?_nil]
    split_ifs <;> decide
  have hsecond : ∀ position, Reader.peek? ⟨position, num ++ (lifetime ++ [])⟩ ≠
      some Code.syncTimeout := by
    intro position
    rw [Reader.peek?_append_optional _ _ hnum, Reader.peek?_append_optional _ _ hlifetime,
      Reader.peek?_nil]
    split_ifs <;> decide
  have hfirst : ∀ position, Reader.peek? ⟨position, timeout ++ (num ++ (lifetime ++ []))⟩ ≠
      some Code.name := by
    intro position
    rw [Reader.peek?_append_optional _ _ htimeout, Reader.peek?_append_optional _ _ hnum,
      Reader.peek?_append_optional _ _ hlifetime, Reader.peek?_nil]
    split_ifs <;> decide
  unfold Parameter.decode
  have houter : Element.readSingle wire = .ok ⟨Code.commandParameter, block, wire⟩ :=
    Element.readSingle_eq_ok_iff.2 ⟨rfl, hwire⟩
  refine bind_eq_ok.2 ⟨_, houter, ?_⟩
  refine bind_eq_ok.2 ⟨_, if_pos rfl, ?_⟩
  rw [Reader.ofBytes, hparts]
  refine bind_eq_ok.2 ⟨_, Reader.optional_append _ _ hname (hfirst _), ?_⟩
  refine bind_eq_ok.2 ⟨p.name, ?_, ?_⟩
  · rw [Element.mapM_eq, mapM_eq_ok_iff_rel, Element.map_value_map]
    exact hmean.name
  refine bind_eq_ok.2 ⟨_, Reader.optional_append _ _ htimeout (hsecond _), ?_⟩
  refine bind_eq_ok.2 ⟨_, mapM_number_map hmillis _ _, ?_⟩
  refine bind_eq_ok.2 ⟨_, Reader.optional_append _ _ hnum (hthird _), ?_⟩
  refine bind_eq_ok.2 ⟨_, mapM_number_map hmean.maxInterestNum _ _, ?_⟩
  refine bind_eq_ok.2 ⟨_, Reader.optional_append _ _ hlifetime (hfourth _), ?_⟩
  refine bind_eq_ok.2 ⟨_, mapM_number_map hmillis' _ _, ?_⟩
  simp only [Reader.isEmpty, List.isEmpty_nil, if_true, ← hspan, ← hspan']
  rfl

/-- A block that is read is a row of fields, each once at most and in its place. -/
theorem exists_row_of_decode {block wire : Bytes} {p : Parameter}
    (hwire : Spells Code.commandParameter block wire) (done : decode wire = .ok p) :
    ∃ es, Row es block ∧ (es.map Element.typ).Sublist fieldTypes := by
  obtain ⟨f, found, hfound, hspell, -⟩ := writtenAs_of_decode done
  rw [hwire.value_eq hfound]
  exact hspell.exists_row

/-- Bytes are read if and only if they are a parameter block, its headers in whatever forms, and
what is read is what its fields say. So a block that ends inside an element is refused, and so is
one of whole elements with a type that is unknown, there twice or behind one that it should
precede. -/
theorem reads_exactly_blocks :
    (∀ wire p, decode wire = .ok p ↔ p.WrittenAs wire) ∧
      ∀ block wire, Spells Code.commandParameter block wire →
        (¬Complete block → ∃ e, decode wire = .error e) ∧
          ∀ es, Row es block → ¬(es.map Element.typ).Sublist fieldTypes →
            ∃ e, decode wire = .error e := by
  refine ⟨fun wire p => ⟨writtenAs_of_decode, WrittenAs.decode⟩, fun block wire hwire => ?_⟩
  cases hread : decode wire with
  | error e => exact ⟨fun _ => ⟨e, rfl⟩, fun _ _ _ => ⟨e, rfl⟩⟩
  | ok p =>
    obtain ⟨fields, hrow, hordered⟩ := exists_row_of_decode hwire hread
    refine ⟨fun hcut => absurd hrow.complete hcut, fun es hes hdisordered => ?_⟩
    rw [hes.unique hrow] at hdisordered
    exact absurd hordered hdisordered

/-- A block with a type and a number in more bytes than they need is read; two with a field twice,
or two fields the wrong way round, and one that ends inside a number are not. -/
theorem reads_exactly_blocks_of_four :
    let wire : Bytes := [201, 9, 0xFD, 0, 210, 1, 5, 211, 2, 0, 7]
    let bound (n : UInt8) : Element := ⟨Code.maxInterestNum, [n], [211, 1, n]⟩
    let timeout : Element := ⟨Code.syncTimeout, [5], [210, 1, 5]⟩
    let cutOff : Bytes := [211, 2, 7]
    decode wire = .ok ⟨none, some (.ofMillis 5), some 7, none⟩ ∧
      Row [bound 7, bound 8] [211, 1, 7, 211, 1, 8] ∧
      (∃ e, decode [201, 6, 211, 1, 7, 211, 1, 8] = .error e) ∧
      Row [bound 7, timeout] [211, 1, 7, 210, 1, 5] ∧
      (∃ e, decode [201, 6, 211, 1, 7, 210, 1, 5] = .error e) ∧
      ¬Complete cutOff ∧ ∃ e, decode (201 :: 3 :: cutOff) = .error e := by
  intro wire bound timeout cutOff
  obtain ⟨hread, hrefused⟩ := reads_exactly_blocks
  have hwritten : WrittenAs ⟨none, some (.ofMillis 5), some 7, none⟩ wire := by
    have hlong : Spells Code.syncTimeout [5] [0xFD, 0, 210, 1, 5] :=
      ⟨[0xFD, 0, 210, 1], ⟨1, [0xFD, 0, 210], [1], .two (by decide), .one (by decide), rfl, rfl⟩,
        rfl⟩
    have hnum : Spells Code.maxInterestNum [0, 7] [211, 2, 0, 7] := spells_write (by decide)
    have hwire : Spells Code.commandParameter [0xFD, 0, 210, 1, 5, 211, 2, 0, 7] wire :=
      spells_write (by decide)
    let fields : Fields := ⟨none, some [5], some [0, 7], none⟩
    have hspell : fields.Spell [0xFD, 0, 210, 1, 5, 211, 2, 0, 7] :=
      ⟨[], _, _, [], rfl, hlong, hnum, rfl, rfl⟩
    have htimeout : Duration.Form (.ofMillis 5) [5] := ⟨5, ⟨Or.inl rfl, rfl⟩, rfl⟩
    have hmean : fields.Mean ⟨none, some (.ofMillis 5), some 7, none⟩ :=
      ⟨.none, .some htimeout, .some ⟨Or.inr (Or.inl rfl), rfl⟩, .none⟩
    exact ⟨fields, _, hwire, hspell, hmean⟩
  have hbound : ∀ n, Spells Code.maxInterestNum [n] [211, 1, n] := by
    intro n
    have hshort : [n].length < 2 ^ 64 := by simp
    exact spells_write hshort
  have htimeout : Spells Code.syncTimeout [5] [210, 1, 5] := spells_write (by decide)
  have htwice : Row [bound 7, bound 8] [211, 1, 7, 211, 1, 8] :=
    ⟨by simp [bound, hbound], rfl⟩
  have hswapped : Row [bound 7, timeout] [211, 1, 7, 210, 1, 5] :=
    ⟨by simp [bound, timeout, hbound, htimeout], rfl⟩
  have hcut : ¬Complete cutOff := not_complete_of_read (by decide) (e := .truncated) (by decide)
  refine ⟨(hread _ _).2 hwritten, htwice, ?_, hswapped, ?_, hcut, ?_⟩
  · exact (hrefused [211, 1, 7, 211, 1, 8] _ (spells_write (by decide))).2 _ htwice (by decide)
  · exact (hrefused [211, 1, 7, 210, 1, 5] _ (spells_write (by decide))).2 _ hswapped (by decide)
  · exact (hrefused cutOff _ (spells_write (by decide))).1 hcut

end Command.Parameter

end NamedData
