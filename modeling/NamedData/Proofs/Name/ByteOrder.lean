import NamedData.Name.Order
import NamedData.Proofs.Name.Wire
/-!
# The byte order of encoded names

Encoded names compare as byte strings the way names compare, so a table that knows only bytes
keeps names in their order. Lengths are written as words, so values have to be short enough for
that; those in memory are.

    compare (c.encode ++ r) (d.encode ++ s) = (compare c d).then (compare r s)
                                                                            (compare_encode_append)
    compare a.encodeValue b.encodeValue = compare a b                       (compare_encodeValue)
-/

namespace NamedData

open Tlv

/-! ## Components -/

namespace Component

/-- By type, then by length, then by the bytes. -/
theorem compare_eq (c d : Component) : compare c d =
    (compare c.typ d.typ).then
      ((compare c.value.length d.value.length).then (compare c.value d.value)) := rfl

/-- Encoded components decide a comparison before anything that follows them. -/
theorem compare_encode_append {c d : Component} (hc : c.value.length < 2 ^ 64)
    (hd : d.value.length < 2 ^ 64) (r s : Bytes) :
    compare (c.encode ++ r) (d.encode ++ s) = (compare c d).then (compare r s) := by
  have hlength : compare (UInt64.ofNat c.value.length) (UInt64.ofNat d.value.length) =
      compare c.value.length d.value.length := by
    rw [← compare_toNat_word, toNat_length hc, toNat_length hd]
  rw [encode, encode, write, write]
  simp only [List.append_assoc]
  rw [VarNumber.compare_write_append, VarNumber.compare_write_append, hlength, compare_eq,
    Ordering.then_assoc, Ordering.then_assoc]
  cases h : compare c.value.length d.value.length with
  | lt => rfl
  | eq => rw [compare_append_of_length_eq (Nat.compare_eq_eq.1 h)]
  | gt => rfl

end Component

/-! ## Names -/

namespace Name

theorem compare_eq (a b : Name) : compare a b = compare a.components b.components := rfl

/-- The byte order of encodings is the order of names. -/
theorem compare_encodeValue {a b : Name} (ha : a.Writable) (hb : b.Writable) :
    compare a.encodeValue b.encodeValue = compare a b := by
  obtain ⟨cs⟩ := a
  obtain ⟨ds⟩ := b
  rw [compare_eq, encodeValue, encodeValue]
  simp only [Writable] at *
  induction cs generalizing ds with
  | nil =>
    cases ds with
    | nil => rfl
    | cons d ds =>
      rw [List.flatMap_nil, List.flatMap_cons, Component.encode, write,
        VarNumber.write_eq_marker_cons]
      rfl
  | cons c cs ih =>
    cases ds with
    | nil =>
      rw [List.flatMap_nil, List.flatMap_cons, Component.encode, write,
        VarNumber.write_eq_marker_cons]
      rfl
    | cons d ds =>
      rw [List.forall_mem_cons] at ha hb
      rw [List.flatMap_cons, List.flatMap_cons, Component.compare_encode_append ha.1 hb.1,
        ih ha.2 ds hb.2, List.compare_cons_cons]

/-- The boundaries between components, and their types, can be told from the encoding. -/
theorem eq_of_encodeValue_eq {a b : Name} (ha : a.Writable) (hb : b.Writable)
    (h : a.encodeValue = b.encodeValue) : a = b := by
  apply Std.LawfulEqOrd.eq_of_compare
  rw [← compare_encodeValue ha hb, h, Std.ReflOrd.compare_self]

/-- No other name, however long, has the encoding of a name that fits into memory. -/
theorem encodeValue_inj {a b : Name} (ha : a.Fits) : a.encodeValue = b.encodeValue ↔ a = b := by
  refine ⟨?_, congrArg _⟩
  intro h
  have hb : b.Fits := by rwa [Fits, ← h]
  exact eq_of_encodeValue_eq ha.writable hb.writable h

/-- On names whose values can be in memory, comparing encodings as byte strings gives what comparing
the names gives, and no two names have one encoding. -/
theorem byte_order_is_name_order {a b : Name} (ha : a.InMemory) (hb : b.InMemory) :
    compare a.encodeValue b.encodeValue = compare a b ∧
      (a.encodeValue = b.encodeValue ↔ a = b) := by
  have horder := compare_encodeValue ha.writable hb.writable
  refine ⟨horder, ?_, congrArg _⟩
  intro h
  apply Std.LawfulEqOrd.eq_of_compare
  rw [← horder, h, Std.ReflOrd.compare_self]

/-- From 252 to 253 a type number takes two bytes more, and the order stays. -/
theorem byte_order_is_name_order_at_253 :
    let a : Name := ⟨[⟨252, [0xFF]⟩, .ofNumber 0]⟩
    let b : Name := ⟨[⟨253, []⟩]⟩
    a.InMemory ∧ b.InMemory ∧ compare a.encodeValue b.encodeValue = .lt ∧
      a.encodeValue ≠ b.encodeValue := by
  intro a b
  have ha : a.InMemory := by unfold InMemory; decide
  have hb : b.InMemory := by unfold InMemory; decide
  have hlt : compare a b = .lt := by decide
  have hne : a ≠ b := by decide
  obtain ⟨horder, hsame⟩ := byte_order_is_name_order ha hb
  exact ⟨ha, hb, horder.trans hlt, fun h => hne (hsame.1 h)⟩

end Name

end NamedData
