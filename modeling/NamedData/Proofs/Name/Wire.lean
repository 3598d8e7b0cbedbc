import NamedData.Name.Basic
import NamedData.Proofs.Tlv.Element
/-!
# Names on the wire

The bytes of a name are the elements of its components, each in any of its forms, and digest
components have the length of a digest. Reading the encoding of such a name gives the name back; and
no bytes of a name are as short as its encoding.

    decodeComponents w = .ok cs ↔ Sequence cs w                      (decodeComponents_eq_ok_iff)
    n.Writable → n.Sound → decodeValue n.encodeValue = .ok n            (decodeValue_encodeValue)
    decodeValue w = .ok n → n.Sound                                        (sound_of_decodeValue)
    decodeValue w = .ok n → n.encodeValue is no longer than w
                                                           (length_encodeValue_le_of_decodeValue)
-/

namespace NamedData

open Tlv

/-- The component, unless it is of the digest type and not of the length of a digest. -/
def Component.checked (c : Component) : Except DecodeError Component :=
  if c.typ = Code.digestComponent ∧ c.value.length ≠ 32 then
    .error (.invalidDigestLength c.value.length)
  else .ok c

/-- Whether the component is a digest only if it has the length of one. -/
def Component.Sound (c : Component) : Prop := c.typ = Code.digestComponent → c.value.length = 32

namespace Name

/-- Whether the encoding is shorter than two to the power of sixty-four bytes, as every byte
string in memory is. -/
def Fits (name : Name) : Prop := name.encodeValue.length < 2 ^ 64

/-- Whether the length of every value can be written as a word. -/
def Writable (name : Name) : Prop := ∀ c ∈ name.components, c.value.length < 2 ^ 64

/-- Whether every value is of a length that a byte string in memory can have. -/
def InMemory (name : Name) : Prop := ∀ c ∈ name.components, c.value.length < 2 ^ 63

/-- Whether every digest component has the length of a digest. -/
def Sound (name : Name) : Prop := ∀ c ∈ name.components, c.Sound

theorem sound_singleton {c : Component} (h : c.typ ≠ Code.digestComponent) : Sound ⟨[c]⟩ := by
  intro d hd hdigest
  rw [List.mem_singleton.1 hd] at hdigest
  exact absurd hdigest h

/-- The values of a name are shorter than its encoding. -/
theorem length_value_add_two_le {name : Name} {c : Component} (h : c ∈ name.components) :
    c.value.length + 2 ≤ name.encodeValue.length := by
  obtain ⟨before, after, hsplit⟩ := List.append_of_mem h
  have hc : c.value.length + 2 ≤ c.encode.length := length_add_two_le_write c.typ c.value
  rw [encodeValue, hsplit, List.flatMap_append, List.flatMap_cons]
  simp only [List.length_append]
  omega

theorem Fits.writable {name : Name} (fits : name.Fits) : name.Writable := by
  intro c hc
  have hlength := length_value_add_two_le hc
  unfold Fits at fits
  omega

theorem InMemory.writable {name : Name} (h : name.InMemory) : name.Writable := by
  intro c hc
  have hlength := h c hc
  omega

end Name

/-! ## Components -/

namespace Component

theorem ofElement_eq_checked (c : Component) (wire : Bytes) :
    ofElement ⟨c.typ, c.value, wire⟩ = c.checked := rfl

theorem checked_eq_ok_iff {c d : Component} : c.checked = .ok d ↔ c.Sound ∧ c = d := by
  unfold checked Sound
  by_cases h : c.typ = Code.digestComponent ∧ c.value.length ≠ 32
  · simp [h.1, h.2]
  · rw [if_neg h, Except.ok.injEq]
    constructor
    · intro hd
      refine ⟨?_, hd⟩
      intro ht
      apply Decidable.byContradiction
      intro hv
      exact h ⟨ht, hv⟩
    · rintro ⟨-, hd⟩
      exact hd

theorem sound_of_ofElement {element : Element} {c : Component} (h : ofElement element = .ok c) :
    c.Sound ∧ c = ⟨element.typ, element.value⟩ := by
  have hchecked : checked ⟨element.typ, element.value⟩ = .ok c := h
  obtain ⟨hc, rfl⟩ := checked_eq_ok_iff.1 hchecked
  exact ⟨hc, rfl⟩

end Component

namespace Name

/-! ## Reading what was written -/

theorem decodeComponents_nil : decodeComponents [] = .ok [] := by
  rw [decodeComponents]
  rfl

/-- One component is read at a time. -/
theorem decodeComponents_append_of_spells {c : Component} {wire : Bytes}
    (h : Spells c.typ c.value wire) (r : Bytes) :
    decodeComponents (wire ++ r) = c.checked.bind fun c => (decodeComponents r).map (c :: ·) := by
  have hread := Element.read_append_of_spells h r
  have hne : (wire ++ r).isEmpty = false := List.isEmpty_eq_false_iff.2 (h.append_ne_nil r)
  rw [decodeComponents, hne]
  simp only [Bool.false_eq_true, if_false]
  split
  · next e he => rw [hread] at he; cases he
  · next element he =>
    rw [hread] at he
    cases he
    rw [Component.ofElement_eq_checked, List.drop_left]
    cases c.checked <;> rfl

theorem decodeComponents_flatMap_encode {cs : List Component}
    (short : ∀ c ∈ cs, c.value.length < 2 ^ 64) :
    decodeComponents (cs.flatMap Component.encode) = cs.mapM Component.checked := by
  induction cs with
  | nil => rw [List.flatMap_nil, decodeComponents_nil]; rfl
  | cons c cs ih =>
    rw [List.flatMap_cons, Component.encode,
      decodeComponents_append_of_spells (spells_write (short c List.mem_cons_self)),
      ih fun d hd => short d (List.mem_cons_of_mem c hd), List.mapM_cons]
    cases c.checked with
    | error e => rfl
    | ok d => cases cs.mapM Component.checked <;> rfl

theorem mapM_checked_eq_ok_iff {cs ds : List Component} :
    cs.mapM Component.checked = .ok ds ↔ (∀ c ∈ cs, c.Sound) ∧ cs = ds := by
  simp only [mapM_eq_ok_iff_forall₂, Component.checked_eq_ok_iff]
  rw [List.forall₂_and_left, List.forall₂_eq_eq_eq]

/-- What reading the encoding of a name gives is that name, and only if its digests are
digests. -/
theorem decodeValue_encodeValue_eq_ok_iff {name found : Name} (short : name.Writable) :
    decodeValue name.encodeValue = .ok found ↔ name.Sound ∧ name = found := by
  rw [decodeValue, encodeValue, decodeComponents_flatMap_encode short, map_eq_ok]
  constructor
  · rintro ⟨cs, hcs, rfl⟩
    obtain ⟨hsound, rfl⟩ := mapM_checked_eq_ok_iff.1 hcs
    exact ⟨hsound, rfl⟩
  · rintro ⟨hsound, rfl⟩
    exact ⟨name.components, mapM_checked_eq_ok_iff.2 ⟨hsound, rfl⟩, rfl⟩

theorem decodeValue_encodeValue {name : Name} (short : name.Writable) (sound : name.Sound) :
    decodeValue name.encodeValue = .ok name :=
  (decodeValue_encodeValue_eq_ok_iff short).2 ⟨sound, rfl⟩

/-! ## What was read -/

/-- Whether bytes are the elements of components one after another, each in any of its forms. -/
inductive Sequence : List Component → Bytes → Prop where
  | nil : Sequence [] []
  | cons {c : Component} {cs : List Component} {wire rest : Bytes} :
      c.Sound → Spells c.typ c.value wire → Sequence cs rest → Sequence (c :: cs) (wire ++ rest)

theorem Sequence.sound {cs : List Component} {bytes : Bytes} (h : Sequence cs bytes) :
    ∀ c ∈ cs, c.Sound := by
  induction h with
  | nil => nofun
  | cons hsound _ _ ih => exact List.forall_mem_cons.2 ⟨hsound, ih⟩

/-- Components are read from their elements, and only from them. -/
theorem decodeComponents_eq_ok_iff {bytes : Bytes} {cs : List Component} :
    decodeComponents bytes = .ok cs ↔ Sequence cs bytes := by
  constructor
  · intro done
    fun_induction decodeComponents bytes generalizing cs with
    | case1 bytes empty =>
      cases done
      rw [List.isEmpty_iff.1 empty]
      exact .nil
    | case2 bytes nonempty e he => cases done
    | case3 bytes nonempty element he e hc => cases done
    | case4 bytes nonempty element he d hd ih =>
      obtain ⟨ds, hds, rfl⟩ := map_eq_ok.1 done
      obtain ⟨hsound, rfl⟩ := Component.sound_of_ofElement hd
      obtain ⟨rest, rfl, hspells⟩ := Element.read_eq_ok_iff.1 he
      rw [List.drop_left] at hds ih
      exact .cons hsound hspells (ih hds)
  · intro h
    induction h with
    | nil => exact decodeComponents_nil
    | cons hsound hspells _ ih =>
      rw [decodeComponents_append_of_spells hspells,
        Component.checked_eq_ok_iff.2 ⟨hsound, rfl⟩, ih]
      rfl

/-- The bytes of components are no shorter than those in which they are written, and no others are
as short. -/
theorem Sequence.length_le {cs : List Component} {bytes : Bytes} (h : Sequence cs bytes) :
    (cs.flatMap Component.encode).length ≤ bytes.length ∧
      (bytes.length ≤ (cs.flatMap Component.encode).length →
        bytes = cs.flatMap Component.encode) := by
  induction h with
  | nil => exact ⟨Nat.le_refl _, fun _ => rfl⟩
  | @cons c cs wire rest _ hspells _ ih =>
    have hwritten := hspells.length_write_le
    rw [List.flatMap_cons, Component.encode, List.length_append, List.length_append]
    refine ⟨Nat.add_le_add hwritten ih.1, ?_⟩
    intro hlength
    rw [← hspells.eq_write (by omega), ← ih.2 (by omega)]

theorem sound_of_decodeValue {bytes : Bytes} {name : Name} (done : decodeValue bytes = .ok name) :
    name.Sound := by
  obtain ⟨cs, hcs, rfl⟩ := map_eq_ok.1 done
  exact (decodeComponents_eq_ok_iff.1 hcs).sound

/-- Written again, a name is no longer than what it was read from. -/
theorem length_encodeValue_le_of_decodeValue {bytes : Bytes} {name : Name}
    (done : decodeValue bytes = .ok name) : name.encodeValue.length ≤ bytes.length := by
  obtain ⟨cs, hcs, rfl⟩ := map_eq_ok.1 done
  exact (decodeComponents_eq_ok_iff.1 hcs).length_le.1

/-- No other bytes of a name are as short as its encoding. -/
theorem eq_encodeValue_of_decodeValue {bytes : Bytes} {name : Name}
    (done : decodeValue bytes = .ok name) (hlength : bytes.length ≤ name.encodeValue.length) :
    bytes = name.encodeValue := by
  obtain ⟨cs, hcs, rfl⟩ := map_eq_ok.1 done
  exact (decodeComponents_eq_ok_iff.1 hcs).length_le.2 hlength

end Name

end NamedData
