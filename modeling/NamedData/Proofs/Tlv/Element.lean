import Mathlib.Data.List.Forall2
import NamedData.Proofs.Tlv.Number
import NamedData.Tlv.Reader
/-!
# Reading elements

An element is a type and a length, each in any of its forms, and a value of that length. These bytes
and no others are read, from the front of any input, by itself or through a reader. What `write` has
put together is such an element. The value has to be shorter than two to the power of sixty-four
bytes, since its length is written as a word.

    read (header ++ r) is an element if r is as long as the header says, else cut off
                                                                            (Header.read_append)
    read b = .ok e ↔ b = e.wire ++ r, where Spells e.typ e.value e.wire         (read_eq_ok_iff)
    Spells t v (write t v)                                                       (spells_write)
    ⟨p, write t v ++ r⟩.expect t what = .ok (⟨t, v, write t v⟩, ⟨p + …, r⟩)  (expect_write_append)
-/

namespace NamedData

/-! ## Steps that can fail -/

/-- A step after another yields something only if the other does. -/
theorem bind_eq_ok {ε α β : Type} {x : Except ε α} {f : α → Except ε β} {b : β} :
    x >>= f = .ok b ↔ ∃ a, x = .ok a ∧ f a = .ok b := by
  cases x with
  | error e => exact ⟨nofun, fun ⟨_, h, _⟩ => nomatch h⟩
  | ok a => exact ⟨fun h => ⟨a, rfl, h⟩, fun ⟨_, rfl, h⟩ => h⟩

theorem map_eq_ok {ε α β : Type} {x : Except ε α} {f : α → β} {b : β} :
    x.map f = .ok b ↔ ∃ a, x = .ok a ∧ f a = b := by
  cases x with
  | error e => exact ⟨nofun, fun ⟨_, h, _⟩ => nomatch h⟩
  | ok a => exact ⟨fun h => ⟨a, rfl, Except.ok.inj h⟩, fun ⟨_, rfl, h⟩ => congrArg Except.ok h⟩

theorem toOption_eq_some_iff {ε α : Type} {x : Except ε α} {a : α} :
    x.toOption = some a ↔ x = .ok a := by
  cases x with
  | error e => exact ⟨nofun, nofun⟩
  | ok b => exact ⟨fun h => congrArg Except.ok (Option.some.inj h), fun h => by cases h; rfl⟩

/-- What is there is read back as it was if and only if it is of the kind that is. -/
theorem mapM_eq_ok_iff {ε α : Type} {field found : Option α} {read : α → Except ε α}
    {Sound : α → Prop} (back : ∀ a ∈ field, ∀ b, read a = .ok b ↔ Sound a ∧ a = b) :
    field.mapM read = .ok found ↔ (∀ a ∈ field, Sound a) ∧ field = found := by
  cases field with
  | none => exact ⟨fun h => ⟨nofun, Except.ok.inj h⟩, fun h => congrArg Except.ok h.2⟩
  | some a =>
    rw [Option.mapM_some]
    constructor
    · intro h
      obtain ⟨b, hb, h⟩ := bind_eq_ok.1 h
      cases h
      obtain ⟨ha, rfl⟩ := (back a rfl b).1 hb
      exact ⟨fun _ h => Option.some.inj h ▸ ha, rfl⟩
    · rintro ⟨hsound, rfl⟩
      exact bind_eq_ok.2 ⟨a, (back a rfl a).2 ⟨hsound a rfl, rfl⟩, rfl⟩

/-- A value that may be missing is read if it is there and can be read, or is missing. -/
theorem mapM_eq_ok_iff_rel {ε α β : Type} {f : α → Except ε β} {field : Option α}
    {found : Option β} :
    field.mapM f = .ok found ↔ Option.Rel (fun a b => f a = .ok b) field found := by
  cases field with
  | none =>
    constructor
    · intro h
      cases h
      exact .none
    · rintro ⟨⟩
      rfl
  | some a =>
    rw [Option.mapM_some]
    constructor
    · intro h
      obtain ⟨b, hb, h⟩ := bind_eq_ok.1 h
      cases h
      exact .some hb
    · rintro (hb | _)
      exact bind_eq_ok.2 ⟨_, hb, rfl⟩

/-- The elements of a list are read one by one. -/
theorem mapM_eq_ok_iff_forall₂ {ε α β : Type} {f : α → Except ε β} {as : List α} {bs : List β} :
    as.mapM f = .ok bs ↔ List.Forall₂ (fun a b => f a = .ok b) as bs := by
  induction as generalizing bs with
  | nil =>
    rw [List.mapM_nil, List.forall₂_nil_left_iff]
    exact ⟨fun h => (Except.ok.inj h).symm, fun h => congrArg Except.ok h.symm⟩
  | cons a as ih =>
    rw [List.mapM_cons, List.forall₂_cons_left_iff]
    constructor
    · intro h
      obtain ⟨b, hb, h⟩ := bind_eq_ok.1 h
      obtain ⟨bs, hbs, h⟩ := bind_eq_ok.1 h
      exact ⟨b, bs, hb, ih.1 hbs, (Except.ok.inj h).symm⟩
    · rintro ⟨b, bs, hb, hbs, rfl⟩
      exact bind_eq_ok.2 ⟨b, hb, bind_eq_ok.2 ⟨bs, ih.2 hbs, rfl⟩⟩

/-- The first element of a list that cannot be read decides the error. -/
theorem mapM_eq_error_iff {ε α β : Type} {f : α → Except ε β} {as : List α} {e : ε} :
    as.mapM f = .error e ↔
      ∃ before a after, as = before ++ a :: after ∧ (∀ b ∈ before, ∃ c, f b = .ok c) ∧
        f a = .error e := by
  induction as with
  | nil =>
    rw [List.mapM_nil]
    exact ⟨nofun, fun ⟨before, a, after, h, _⟩ => by simp at h⟩
  | cons a as ih =>
    rw [List.mapM_cons]
    constructor
    · intro h
      cases ha : f a with
      | error d =>
        rw [ha] at h
        cases h
        exact ⟨[], a, as, rfl, nofun, ha⟩
      | ok c =>
        rw [ha] at h
        cases has : as.mapM f with
        | ok cs => simp [has, bind, Except.bind, pure, Except.pure] at h
        | error d =>
          simp only [has, bind, Except.bind, Except.error.injEq] at h
          obtain ⟨before, bad, after, rfl, hbefore, hbad⟩ := ih.1 (has.trans (congrArg _ h))
          exact ⟨a :: before, bad, after, rfl, List.forall_mem_cons.2 ⟨⟨c, ha⟩, hbefore⟩, hbad⟩
    · rintro ⟨before, bad, after, hsplit, hbefore, hbad⟩
      cases before with
      | nil =>
        cases hsplit
        rw [hbad]
        rfl
      | cons b before =>
        cases hsplit
        obtain ⟨⟨c, hc⟩, hbefore⟩ := List.forall_mem_cons.1 hbefore
        rw [hc, ih.2 ⟨before, bad, after, rfl, hbefore, hbad⟩]
        rfl

namespace Tlv

/-- A written element has at least a byte of type and a byte of length. -/
theorem length_add_two_le_write (typ : UInt64) (value : Bytes) :
    value.length + 2 ≤ (write typ value).length := by
  rw [write, VarNumber.write_eq_marker_cons, VarNumber.write_eq_marker_cons]
  simp only [List.length_append, List.length_cons]
  omega

section

/-! ## The bytes of an element -/

/-- Whether bytes are a type and a length, each in any of its forms. -/
def Header (typ : UInt64) (length : Nat) (header : Bytes) : Prop :=
  ∃ n first second, VarNumber.Form typ first ∧ VarNumber.Form n second ∧ n.toNat = length ∧
    header = first ++ second

/-- Whether bytes are an element of a type with a value. -/
def Spells (typ : UInt64) (value wire : Bytes) : Prop :=
  ∃ header, Header typ value.length header ∧ wire = header ++ value

/-- Whether bytes are the element of a field that is there, or none for one that is not. -/
def SpellsOptional (typ : UInt64) : Option Bytes → Bytes → Prop
  | none, wire => wire = []
  | some value, wire => Spells typ value wire

variable {typ : UInt64} {value wire : Bytes}

theorem Spells.length_le (h : Spells typ value wire) : value.length ≤ wire.length := by
  obtain ⟨header, _, rfl⟩ := h
  rw [List.length_append]
  exact Nat.le_add_left _ _

/-- No element is empty. -/
theorem Spells.length_pos (h : Spells typ value wire) : 0 < wire.length := by
  obtain ⟨_, ⟨_, first, second, hfirst, -, -, rfl⟩, rfl⟩ := h
  cases hfirst <;> simp

theorem Spells.append_ne_nil (h : Spells typ value wire) (rest : Bytes) : wire ++ rest ≠ [] :=
  List.append_ne_nil_of_left_ne_nil (List.length_pos_iff.1 h.length_pos) rest

/-- Written again, an element is no longer than it was. -/
theorem Spells.length_write_le (h : Spells typ value wire) :
    (write typ value).length ≤ wire.length := by
  obtain ⟨_, ⟨n, first, second, hfirst, hsecond, hlength, rfl⟩, rfl⟩ := h
  have hword : UInt64.ofNat value.length = n := by rw [← hlength, UInt64.ofNat_toNat]
  have hshort := hfirst.length_write_le
  have hshort' := hsecond.length_write_le
  rw [write, hword]
  simp only [List.length_append]
  omega

/-- No other bytes of an element are as short as those in which it is written. -/
theorem Spells.eq_write (h : Spells typ value wire)
    (hlength : wire.length ≤ (write typ value).length) : wire = write typ value := by
  obtain ⟨_, ⟨n, first, second, hfirst, hsecond, hvalue, rfl⟩, rfl⟩ := h
  have hword : UInt64.ofNat value.length = n := by rw [← hvalue, UInt64.ofNat_toNat]
  have hshort := hfirst.length_write_le
  have hshort' := hsecond.length_write_le
  rw [write, hword] at hlength ⊢
  simp only [List.length_append] at hlength
  rw [hfirst.eq_of_length_eq (VarNumber.form_write typ) (by omega),
    hsecond.eq_of_length_eq (VarNumber.form_write n) (by omega)]

/-- What follows a header is the value, if there is as much as the header says. -/
theorem Header.read_append {length : Nat} {header : Bytes} (h : Header typ length header)
    (rest : Bytes) :
    Element.read (header ++ rest) =
      if length ≤ rest.length then .ok ⟨typ, rest.take length, header ++ rest.take length⟩
      else .error .truncated := by
  obtain ⟨n, first, second, hfirst, hsecond, rfl, rfl⟩ := h
  have htype : VarNumber.read (first ++ second ++ rest) = .ok (typ, first.length) := by
    rw [List.append_assoc, hfirst.read_append]
  have hnext : VarNumber.read ((first ++ second ++ rest).drop first.length) =
      .ok (n, second.length) := by
    rw [List.append_assoc, List.drop_left, hsecond.read_append]
  have hrest : (first ++ second ++ rest).drop (first.length + second.length) = rest := by
    rw [← List.length_append, List.drop_left]
  have hwire : (first ++ second ++ rest).take (first.length + second.length + n.toNat) =
      first ++ second ++ rest.take n.toNat := by
    rw [← List.length_append, List.take_length_add_append]
  unfold Element.read
  simp only [htype, hnext, bind, Except.bind, pure, Except.pure, hrest, hwire, List.length_take]
  by_cases henough : n.toNat ≤ rest.length
  · rw [if_pos henough, Nat.min_eq_left henough, if_neg (Nat.lt_irrefl _)]
  · rw [if_neg henough, if_pos (by omega)]
    rfl

namespace Element

/-- An element is read from its bytes, whatever follows. -/
theorem read_append_of_spells (h : Spells typ value wire) (r : Bytes) :
    read (wire ++ r) = .ok ⟨typ, value, wire⟩ := by
  obtain ⟨header, hheader, rfl⟩ := h
  have hlength : value.length ≤ (value ++ r).length := by
    rw [List.length_append]
    exact Nat.le_add_right _ _
  rw [List.append_assoc, hheader.read_append, if_pos hlength, List.take_left]

/-- Bytes begin with a header, or nothing is read from them. -/
theorem exists_header_or_truncated (input : Bytes) :
    (∃ typ length header rest, input = header ++ rest ∧ Header typ length header) ∨
      read input = .error .truncated := by
  cases htype : VarNumber.read input with
  | error e =>
    right
    rw [read, htype, VarNumber.eq_truncated_of_read htype]
    rfl
  | ok number =>
    obtain ⟨typ, typWidth⟩ := number
    cases hlength : VarNumber.read (input.drop typWidth) with
    | error e =>
      right
      simp only [read, htype, hlength, VarNumber.eq_truncated_of_read hlength, bind, Except.bind]
    | ok number =>
      left
      obtain ⟨n, lengthWidth⟩ := number
      obtain ⟨first, more, rfl, rfl, hfirst⟩ := VarNumber.read_eq_ok_iff.1 htype
      rw [List.drop_left] at hlength
      obtain ⟨second, rest, rfl, rfl, hsecond⟩ := VarNumber.read_eq_ok_iff.1 hlength
      exact ⟨typ, n.toNat, first ++ second, rest, (List.append_assoc _ _ _).symm,
        n, first, second, hfirst, hsecond, rfl, rfl⟩

/-- What an element is read from is bytes of it. -/
theorem read_eq_ok_iff {input : Bytes} {element : Element} :
    read input = .ok element ↔
      ∃ rest, input = element.wire ++ rest ∧ Spells element.typ element.value element.wire := by
  constructor
  · intro done
    rcases exists_header_or_truncated input with ⟨typ, length, header, rest, rfl, h⟩ | failed
    · rw [h.read_append] at done
      split at done
      · next henough =>
        cases done
        refine ⟨rest.drop length, ?_, header, ?_, rfl⟩
        · rw [List.append_assoc, List.take_append_drop]
        · rwa [List.length_take_of_le henough]
      · cases done
    · rw [failed] at done
      cases done
  · rintro ⟨rest, rfl, h⟩
    exact read_append_of_spells h rest

/-- A type in two bytes more than it needs, and a length in four. -/
example : read [0xFD, 0, 7, 0xFE, 0, 0, 0, 1, 5, 9] =
    .ok ⟨7, [5], [0xFD, 0, 7, 0xFE, 0, 0, 0, 1, 5]⟩ := by decide

/-- The bytes of an element decide what it is. -/
theorem read_wire_append {input : Bytes} {element : Element} (done : read input = .ok element)
    (r : Bytes) : read (element.wire ++ r) = .ok element := by
  obtain ⟨_, _, h⟩ := read_eq_ok_iff.1 done
  exact read_append_of_spells h r

theorem wire_isPrefix {input : Bytes} {element : Element} (done : read input = .ok element) :
    element.wire <+: input := by
  obtain ⟨rest, rfl, _⟩ := read_eq_ok_iff.1 done
  exact List.prefix_append _ _

/-- An element that is there stays what it is when more bytes come. -/
theorem read_append {input : Bytes} {element : Element} (done : read input = .ok element)
    (r : Bytes) : read (input ++ r) = .ok element := by
  obtain ⟨rest, rfl⟩ := wire_isPrefix done
  rw [List.append_assoc]
  exact read_wire_append done (rest ++ r)

/-- An element that ends before more bytes come is there without them. -/
theorem read_of_append {input r : Bytes} {element : Element}
    (done : read (input ++ r) = .ok element) (h : element.wire.length ≤ input.length) :
    read input = .ok element := by
  obtain ⟨rest, hrest⟩ :=
    List.prefix_of_prefix_length_le (wire_isPrefix done) (List.prefix_append input r) h
  rw [← hrest]
  exact read_wire_append done rest

/-- The element that all of the input is. -/
theorem readSingle_eq_ok_iff {input : Bytes} {element : Element} :
    readSingle input = .ok element ↔
      element.wire = input ∧ Spells element.typ element.value input := by
  unfold readSingle
  rw [bind_eq_ok]
  constructor
  · rintro ⟨found, hread, done⟩
    obtain ⟨rest, rfl, h⟩ := read_eq_ok_iff.1 hread
    split at done
    · next hall =>
      cases done
      rw [List.length_append] at hall
      obtain rfl : rest = [] := List.length_eq_zero_iff.1 (by omega)
      rw [List.append_nil]
      exact ⟨rfl, h⟩
    · cases done
  · rintro ⟨rfl, h⟩
    have hread := read_append_of_spells h []
    rw [List.append_nil] at hread
    exact ⟨element, hread, if_pos rfl⟩

theorem expectType_eq_ok_iff {element found : Element} :
    element.expectType typ = .ok found ↔ element.typ = typ ∧ element = found := by
  unfold expectType
  split
  · next h => simp [h]
  · next h => simp [h]

end Element

/-- Where an element ends is decided by its bytes. -/
theorem Spells.eq_of_append_eq {rest : Bytes} {typ' : UInt64} {value' wire' rest' : Bytes}
    (h : Spells typ value wire) (h' : Spells typ' value' wire')
    (hsame : wire ++ rest = wire' ++ rest') :
    Element.mk typ value wire = ⟨typ', value', wire'⟩ ∧ rest = rest' := by
  have hread := Element.read_append_of_spells h rest
  rw [hsame, Element.read_append_of_spells h' rest'] at hread
  cases hread
  exact ⟨rfl, List.append_cancel_left hsame⟩

/-- Bytes are an element with one value at most. -/
theorem Spells.value_eq {other : Bytes} (h : Spells typ value wire) (h' : Spells typ other wire) :
    value = other := by
  have hsame : wire ++ [] = wire ++ [] := rfl
  exact congrArg Element.value (h.eq_of_append_eq h' hsame).1

namespace Reader

variable (position : Nat) (r : Bytes)

/-- The type of an element stands at its front. -/
theorem peek?_append (h : Spells typ value wire) : peek? ⟨position, wire ++ r⟩ = some typ := by
  obtain ⟨_, ⟨n, first, second, hfirst, _, _, rfl⟩, rfl⟩ := h
  rw [peek?, List.append_assoc, List.append_assoc, hfirst.read_append]
  rfl

theorem expect_append (h : Spells typ value wire) (what : String) :
    expect ⟨position, wire ++ r⟩ typ what =
      .ok (⟨typ, value, wire⟩, ⟨position + wire.length, r⟩) := by
  simp only [expect, peek?_append position r h, if_true, read, Element.read_append_of_spells h,
    bind, Except.bind, pure, Except.pure, List.drop_left]

/-- An element of another type is left where it is. -/
theorem optional_of_ne {other : UInt64} (h : peek? ⟨position, r⟩ ≠ some other) :
    optional ⟨position, r⟩ other = .ok (none, ⟨position, r⟩) := by
  rw [optional, if_neg h]

theorem optional_append_of_spells (h : Spells typ value wire) :
    optional ⟨position, wire ++ r⟩ typ =
      .ok (some ⟨typ, value, wire⟩, ⟨position + wire.length, r⟩) := by
  simp only [optional, peek?_append position r h, if_true, read,
    Element.read_append_of_spells h, bind, Except.bind, pure, Except.pure, List.drop_left]

variable {field : Option Bytes}

theorem peek?_append_optional (h : SpellsOptional typ field wire) :
    peek? ⟨position, wire ++ r⟩ = if field.isSome then some typ else peek? ⟨position, r⟩ := by
  cases field with
  | none => cases h; rfl
  | some value => exact peek?_append position r h

/-- A field is read, there or not, if no element of its type comes after it. -/
theorem optional_append (h : SpellsOptional typ field wire)
    (hnext : peek? ⟨position, r⟩ ≠ some typ) :
    optional ⟨position, wire ++ r⟩ typ =
      .ok (field.map fun value => ⟨typ, value, wire⟩, ⟨position + wire.length, r⟩) := by
  cases field with
  | none =>
    cases h
    exact optional_of_ne position r hnext
  | some value => exact optional_append_of_spells position r h

variable {reader after : Reader}

theorem of_read {element : Element} (done : reader.read = .ok (element, after)) :
    reader.rest = element.wire ++ after.rest ∧
      after.position = reader.position + element.wire.length ∧
        Spells element.typ element.value element.wire := by
  obtain ⟨found, hread, done⟩ := bind_eq_ok.1 done
  cases done
  obtain ⟨rest, hrest, h⟩ := Element.read_eq_ok_iff.1 hread
  refine ⟨?_, rfl, h⟩
  rw [hrest, List.drop_left]

/-- The type that is seen ahead is that of the element that is read. -/
theorem typ_of_read {element : Element} (done : reader.read = .ok (element, after)) :
    reader.peek? = some element.typ := by
  obtain ⟨hrest, _, h⟩ := of_read done
  obtain ⟨position, rest⟩ := reader
  obtain rfl : rest = element.wire ++ after.rest := hrest
  exact peek?_append position after.rest h

/-- What was expected is what is read next, if it is of that type. -/
theorem expect_eq_ok_iff {element : Element} {what : String} :
    reader.expect typ what = .ok (element, after) ↔
      reader.read = .ok (element, after) ∧ element.typ = typ := by
  unfold expect
  constructor
  · intro done
    split at done
    · cases done
    · next found hpeek =>
      split at done
      · next hfound =>
        have htyp := typ_of_read done
        rw [hpeek, hfound] at htyp
        exact ⟨done, (Option.some.inj htyp).symm⟩
      · cases done
  · rintro ⟨done, rfl⟩
    simp only [typ_of_read done, if_true, done]

/-- Where an element was expected and found, the bytes ahead begin with it. -/
theorem of_expect {element : Element} {what : String}
    (done : reader.expect typ what = .ok (element, after)) :
    reader.rest = element.wire ++ after.rest ∧
      after.position = reader.position + element.wire.length ∧
        Spells typ element.value element.wire := by
  obtain ⟨hread, rfl⟩ := expect_eq_ok_iff.1 done
  exact of_read hread

/-- Where a field was looked for, the bytes ahead begin with it, if it is there. -/
theorem of_optional {found : Option Element}
    (done : reader.optional typ = .ok (found, after)) :
    ∃ wire, reader.rest = wire ++ after.rest ∧ after.position = reader.position + wire.length ∧
      SpellsOptional typ (found.map Element.value) wire := by
  unfold optional at done
  split at done
  · next hpeek =>
    obtain ⟨⟨element, later⟩, hread, done⟩ := bind_eq_ok.1 done
    cases done
    have htyp := typ_of_read hread
    rw [hpeek] at htyp
    obtain ⟨hrest, hposition, h⟩ := of_read hread
    exact ⟨element.wire, hrest, hposition, Option.some.inj htyp ▸ h⟩
  · cases done
    exact ⟨[], rfl, rfl, rfl⟩

end Reader

end

section

/-! ## Written elements -/

variable {typ : UInt64} {value : Bytes} (short : value.length < 2 ^ 64)

include short

theorem toNat_length : (UInt64.ofNat value.length).toNat = value.length := by
  rw [UInt64.toNat_ofNat', Nat.mod_eq_of_lt short]

theorem spells_write : Spells typ value (write typ value) :=
  ⟨_, ⟨_, _, _, VarNumber.form_write typ, VarNumber.form_write _, toNat_length short, rfl⟩, rfl⟩

namespace Element

theorem read_write_append (r : Bytes) :
    read (write typ value ++ r) = .ok ⟨typ, value, write typ value⟩ :=
  read_append_of_spells (spells_write short) r

theorem readSingle_write :
    readSingle (write typ value) = .ok ⟨typ, value, write typ value⟩ :=
  readSingle_eq_ok_iff.2 ⟨rfl, spells_write short⟩

end Element

namespace Reader

variable (position : Nat) (r : Bytes)

omit short in
/-- The type of a written element stands at its front, however long its value. -/
theorem peek?_write_append (value : Bytes) :
    peek? ⟨position, write typ value ++ r⟩ = some typ := by
  rw [peek?, write, List.append_assoc, List.append_assoc, VarNumber.read_write_append]
  rfl

theorem expect_write_append (what : String) :
    expect ⟨position, write typ value ++ r⟩ typ what =
      .ok (⟨typ, value, write typ value⟩, ⟨position + (write typ value).length, r⟩) :=
  expect_append position r (spells_write short) what

theorem optional_write_append :
    optional ⟨position, write typ value ++ r⟩ typ =
      .ok (some ⟨typ, value, write typ value⟩, ⟨position + (write typ value).length, r⟩) :=
  optional_append_of_spells position r (spells_write short)

end Reader

end

/-! ## Optional fields -/

/-- The element of a field that is there, and no bytes for one that is not. -/
def optionalField (typ : UInt64) (field : Option Bytes) : Bytes := (field.map (write typ)).getD []

/-- The value of a field that is a number is short. -/
theorem NonNeg.short_of_mem_map {α : Type} {field : Option α} {number : α → UInt64} :
    ∀ value ∈ field.map fun a => encode (number a), value.length < 2 ^ 64 := by
  intro value h
  obtain ⟨a, _, rfl⟩ := Option.map_eq_some_iff.1 h
  exact Nat.lt_of_le_of_lt (length_encode_le _) (by decide)

/-- The value of a field is read if the field is there. -/
theorem Element.mapM_value {α β : Type} (typ : UInt64) (field : Option α) (encode : α → Bytes)
    (decode : Bytes → Except DecodeError β) :
    ((field.map encode).map fun value => Element.mk typ value (write typ value)).mapM
        (fun element => decode element.value) = field.mapM fun a => decode (encode a) := by
  cases field <;> rfl

/-- An element has the value of its field. -/
theorem Element.map_value_map (typ : UInt64) (wire : Bytes) (field : Option Bytes) :
    (field.map fun value => Element.mk typ value wire).map Element.value = field := by
  cases field <;> rfl

/-- A field that is a number is read back as that number. -/
theorem Element.mapM_number {α : Type} (typ : UInt64) (field : Option α) (number : α → UInt64) :
    ((field.map fun a => NonNeg.encode (number a)).map
      fun value => Element.mk typ value (write typ value)).mapM Element.number =
        .ok (field.map number) := by
  cases field with
  | none => rfl
  | some a =>
    have h : Element.number ⟨typ, NonNeg.encode (number a), write typ (NonNeg.encode (number a))⟩ =
        .ok (number a) := NonNeg.decode_encode (number a)
    simp only [Option.map_some, Option.mapM_some, h]
    rfl

namespace Reader

variable {typ : UInt64} (position : Nat) (field : Option Bytes) (r : Bytes)

theorem peek?_nil : peek? ⟨position, []⟩ = none := rfl

theorem peek?_optionalField :
    peek? ⟨position, optionalField typ field ++ r⟩ =
      if field.isSome then some typ else peek? ⟨position, r⟩ := by
  cases field with
  | none => rfl
  | some value => exact peek?_write_append position r value

/-- A field is read back, there or not, if no element of its type comes after it. -/
theorem optional_optionalField (short : ∀ value ∈ field, value.length < 2 ^ 64)
    (h : peek? ⟨position, r⟩ ≠ some typ) :
    optional ⟨position, optionalField typ field ++ r⟩ typ =
      .ok (field.map fun value => ⟨typ, value, write typ value⟩,
        ⟨position + (optionalField typ field).length, r⟩) := by
  cases field with
  | none => exact optional_of_ne position r h
  | some value => exact optional_write_append (short value rfl) position r

end Reader

end Tlv

end NamedData
