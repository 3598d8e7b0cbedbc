import NamedData.Proofs.Name.ByteOrder
/-!
# The extensions of a name

The successor of a component is the next one in order: nothing stands between the two, whether
counting up stays within the length of the value or runs over into one more byte. So the names that
extend a name are exactly those from the name on and below its successor, and their encodings are
exactly the byte strings of names that a scan between the encodings of the two passes by.

    compare d c.successor = .lt ↔ (compare d c).isLE                      (lt_successor_iff)
    p ≤ x ∧ x < p.successor ↔ p.isPrefixOf x       for p with components  (between_iff_isPrefixOf)
    the same of the encodings as byte strings                             (encodeValue_between_iff)
-/

namespace NamedData

open Tlv

/-! ## Components -/

namespace Component

theorem length_increment (value : Bytes) : (increment value).1.length = value.length := by
  induction value with
  | nil => rfl
  | cons byte rest ih =>
    unfold increment
    split
    · next tail h => rw [h] at ih; exact congrArg (· + 1) ih
    · next tail h =>
      rw [h] at ih
      split <;> exact congrArg (· + 1) ih

/-- Counting up adds one; what runs over is worth one more than the largest number. -/
theorem ofBigEndian_increment (value : Bytes) :
    Bytes.ofBigEndian (increment value).1 +
      (if (increment value).2 then 256 ^ value.length else 0) = Bytes.ofBigEndian value + 1 := by
  induction value with
  | nil => rfl
  | cons byte rest ih =>
    have hlength := length_increment rest
    rw [Bytes.ofBigEndian_cons]
    unfold increment
    split
    · next tail h =>
      rw [h] at ih hlength
      simp only [Bool.false_eq_true, if_false, Nat.add_zero] at ih hlength ⊢
      rw [Bytes.ofBigEndian_cons, hlength]
      omega
    · next tail h =>
      rw [h] at ih hlength
      simp only [if_true] at ih hlength
      split
      · next hmax =>
        have hbyte : byte.toNat = 255 := by rw [hmax]; rfl
        simp only [if_true]
        rw [Bytes.ofBigEndian_cons, hlength, hbyte, List.length_cons, Nat.pow_succ]
        simp only [UInt8.toNat_zero]
        omega
      · next hmax =>
        have hbyte : (byte + 1).toNat = byte.toNat + 1 := by
          have hlt := byte.toNat_lt
          have hne : byte.toNat ≠ 255 := fun he => hmax (UInt8.toNat_inj.1 he)
          rw [UInt8.toNat_add]
          simp
          omega
        simp only [Bool.false_eq_true, if_false, Nat.add_zero]
        rw [Bytes.ofBigEndian_cons, hlength, hbyte, Nat.add_mul]
        omega

/-- Components of one type compare by length and then as numbers. -/
theorem compare_eq_number (c d : Component) : compare c d =
    (compare c.typ d.typ).then ((compare c.value.length d.value.length).then
      (compare (Bytes.ofBigEndian c.value) (Bytes.ofBigEndian d.value))) := by
  rw [compare_eq]
  cases h : compare c.value.length d.value.length with
  | lt => rfl
  | eq => rw [Bytes.compare_ofBigEndian (Nat.compare_eq_eq.1 h)]
  | gt => rfl

/-- Counting up keeps the length and adds one to the number, or it has run over, from the largest
number of that length to zero in one more byte. -/
theorem successor_cases (c : Component) : c.successor.typ = c.typ ∧
    ((c.successor.value.length = c.value.length ∧
        Bytes.ofBigEndian c.successor.value = Bytes.ofBigEndian c.value + 1) ∨
      (c.successor.value.length = c.value.length + 1 ∧
        Bytes.ofBigEndian c.successor.value = 0 ∧
        Bytes.ofBigEndian c.value + 1 = 256 ^ c.value.length)) := by
  have hnumber := ofBigEndian_increment c.value
  have hlength := length_increment c.value
  unfold successor
  rcases h : increment c.value with ⟨value, carry⟩
  rw [h] at hnumber hlength
  cases carry with
  | false =>
    simp only [Bool.false_eq_true, if_false, Nat.add_zero] at hnumber
    exact ⟨rfl, Or.inl ⟨hlength, hnumber⟩⟩
  | true =>
    have hroom := Bytes.ofBigEndian_lt c.value
    simp only [if_true] at hnumber
    refine ⟨rfl, Or.inr ⟨List.length_replicate, Bytes.ofBigEndian_replicate_zero _, ?_⟩⟩
    omega

/-- The successor is the next component: what is below it is not above the component itself. -/
theorem lt_successor_iff (c d : Component) :
    compare d c.successor = .lt ↔ (compare d c).isLE := by
  have hroom := Bytes.ofBigEndian_lt d.value
  obtain ⟨htyp, hcases⟩ := successor_cases c
  rw [compare_eq_number, compare_eq_number, htyp]
  cases compare d.typ c.typ with
  | lt => simp
  | gt => simp
  | eq =>
    rw [Ordering.eq_then, Ordering.eq_then]
    rcases hcases with ⟨hlength, hnumber⟩ | ⟨hlength, hnumber, hmax⟩
    · rw [hlength, hnumber]
      cases compare d.value.length c.value.length with
      | lt => simp
      | gt => simp
      | eq =>
        rw [Ordering.eq_then, Ordering.eq_then, Nat.compare_eq_lt, Nat.isLE_compare]
        omega
    · rw [hlength, hnumber]
      rcases Nat.lt_trichotomy d.value.length c.value.length with hlt | heq | hgt
      · rw [Nat.compare_eq_lt.2 hlt, Nat.compare_eq_lt.2 (by omega)]
        simp
      · -- all values of this length are below, and none is above the value that ran over
        have hle : Bytes.ofBigEndian d.value ≤ Bytes.ofBigEndian c.value := by
          rw [heq] at hroom
          omega
        rw [Nat.compare_eq_lt.2 (by omega), Nat.compare_eq_eq.2 heq, Ordering.eq_then,
          Nat.isLE_compare]
        simp [hle]
      · -- no number of the next length is below zero
        rw [Nat.compare_eq_gt.2 hgt]
        rcases Nat.eq_or_lt_of_le hgt with hnext | hfar
        · rw [Nat.compare_eq_eq.2 hnext.symm, Ordering.eq_then]
          simp [Nat.compare_eq_lt]
        · rw [Nat.compare_eq_gt.2 hfar]
          simp

theorem length_successor_le (c : Component) : c.successor.value.length ≤ c.value.length + 1 := by
  rcases (successor_cases c).2 with ⟨hlength, _⟩ | ⟨hlength, _⟩ <;> omega

end Component

/-! ## Names -/

namespace Name

theorem isPrefixOf_iff {p x : Name} :
    p.isPrefixOf x = true ↔ ∃ rest, x.components = p.components ++ rest := by
  rw [isPrefixOf, List.isPrefixOf_iff_prefix]
  exact ⟨fun ⟨rest, h⟩ => ⟨rest, h.symm⟩, fun ⟨rest, h⟩ => ⟨rest, h.symm⟩⟩

/-- A name fits into memory if an extension does. -/
theorem Fits.of_isPrefixOf {p x : Name} (hx : x.Fits) (h : p.isPrefixOf x) : p.Fits := by
  obtain ⟨rest, hcomponents⟩ := isPrefixOf_iff.1 h
  unfold Fits encodeValue at hx ⊢
  rw [hcomponents, List.flatMap_append, List.length_append] at hx
  omega

/-- A name is not above its extensions. -/
theorem isLE_of_isPrefixOf {p x : Name} (h : p.isPrefixOf x) : (compare p x).isLE := by
  obtain ⟨rest, hx⟩ := isPrefixOf_iff.1 h
  have happend := compare_append_left p.components [] rest
  rw [List.append_nil] at happend
  rw [compare_eq, hx, happend]
  exact List.isLE_compare_nil_left

/-- Counting up the last of some components bounds the lists that begin with them. -/
theorem between_iff_prefix (init : List Component) (c : Component) (xs : List Component) :
    ((compare (init ++ [c]) xs).isLE ∧ compare xs (init ++ [c.successor]) = .lt) ↔
      init ++ [c] <+: xs := by
  induction init generalizing xs with
  | nil =>
    cases xs with
    | nil => simp
    | cons d ds =>
      have hle : (compare [c] (d :: ds)).isLE ↔ (compare c d).isLE := by
        rw [List.compare_cons_cons]
        cases compare c d <;> simp [List.isLE_compare_nil_left]
      have hlt : compare (d :: ds) [c.successor] = .lt ↔ (compare d c).isLE := by
        rw [List.compare_cons_cons, ← Component.lt_successor_iff]
        cases ds <;> cases compare d c.successor <;> simp
      rw [List.nil_append, List.nil_append, hle, hlt, List.cons_prefix_cons]
      constructor
      · rintro ⟨hcd, hdc⟩
        exact ⟨Std.LawfulEqOrd.eq_of_compare (Std.OrientedCmp.isLE_antisymm hcd hdc),
          List.nil_prefix⟩
      · rintro ⟨rfl, -⟩
        simp
  | cons e init ih =>
    cases xs with
    | nil => simp
    | cons d ds =>
      simp only [List.cons_append, List.compare_cons_cons, List.cons_prefix_cons, ← ih ds]
      cases h : compare e d with
      | lt =>
        have hne : e ≠ d := by rintro rfl; simp at h
        rw [Std.OrientedCmp.gt_of_lt h]
        simp [hne]
      | eq =>
        obtain rfl := Std.LawfulEqOrd.eq_of_compare h
        simp
      | gt =>
        have hne : e ≠ d := by rintro rfl; simp at h
        simp [hne]

/-- From a name on and below its successor stand the extensions of the name, and nothing else. -/
theorem between_iff_isPrefixOf {p x : Name} (nonempty : p.isEmpty = false) :
    ((compare p x).isLE ∧ compare x p.successor = .lt) ↔ p.isPrefixOf x := by
  have hne : p.components ≠ [] := fun h => by simp [isEmpty, h] at nonempty
  have hp := List.dropLast_concat_getLast hne
  have hsuccessor : p.successor.components =
      p.components.dropLast ++ [(p.components.getLast hne).successor] := by
    rw [successor, last?, List.getLast?_eq_some_getLast hne]
  have hbetween := between_iff_prefix p.components.dropLast (p.components.getLast hne) x.components
  rw [hp, ← hsuccessor] at hbetween
  rw [isPrefixOf, List.isPrefixOf_iff_prefix]
  exact hbetween

/-- Between a name and one of its extensions stand only extensions. -/
theorem isPrefixOf_of_between {p e x : Name} (hpe : (compare p e).isLE)
    (hex : (compare e x).isLE) (h : p.isPrefixOf x) : p.isPrefixOf e := by
  cases hempty : p.isEmpty with
  | true =>
    rw [isEmpty, List.isEmpty_iff] at hempty
    rw [isPrefixOf, hempty]
    rfl
  | false =>
    have hx := ((between_iff_isPrefixOf hempty).2 h).2
    exact (between_iff_isPrefixOf hempty).1 ⟨hpe, Std.TransCmp.lt_of_isLE_of_lt hex hx⟩

/-! ## Encodings -/

/-- The successor adds at most one byte, to the value that stands last. -/
theorem writable_successor {p : Name} (short : ∀ c ∈ p.components, c.value.length + 1 < 2 ^ 64) :
    p.successor.Writable := by
  intro d hd
  unfold successor at hd
  cases hlast : p.last? with
  | none =>
    rw [hlast] at hd
    rw [List.mem_singleton.1 hd]
    simp
  | some c =>
    rw [hlast] at hd
    rcases List.mem_append.1 hd with hd | hd
    · have hlength := short d (List.dropLast_subset _ hd)
      omega
    · have hlength := c.length_successor_le
      have hc := short c (List.mem_of_getLast? hlast)
      rw [List.mem_singleton.1 hd]
      omega

/-- The same on the wire: the encodings from that of a name on and below that of its successor are
the encodings of its extensions. -/
theorem encodeValue_between_iff {p x : Name} (nonempty : p.isEmpty = false)
    (short : ∀ c ∈ p.components, c.value.length + 1 < 2 ^ 64) (hx : x.Writable) :
    ((compare p.encodeValue x.encodeValue).isLE ∧
      (compare x.encodeValue p.successor.encodeValue).isLT) ↔ p.isPrefixOf x := by
  have hp : p.Writable := fun c hc => Nat.lt_of_succ_lt (short c hc)
  rw [compare_encodeValue hp hx, compare_encodeValue hx (writable_successor short),
    ← between_iff_isPrefixOf nonempty, Ordering.isLT_iff_eq_lt]

/-- The encodings of the extensions of a name stand within the bounds of a scan. -/
theorem encodeValue_between {p x : Name} (nonempty : p.isEmpty = false) (hx : x.Fits)
    (h : p.isPrefixOf x) :
    (compare p.encodeValue x.encodeValue).isLE ∧
      (compare x.encodeValue p.successor.encodeValue).isLT := by
  have fits := hx.of_isPrefixOf h
  refine (encodeValue_between_iff nonempty (fun c hc => ?_) hx.writable).2 h
  have hlength := length_value_add_two_le hc
  unfold Fits at fits
  omega

end Name

end NamedData
