import NamedData.Name.Order
import NamedData.Proofs.Tlv.Number
import NamedData.Sync.Range
/-!
# The names of a range

Components that hold numbers are in the order of the numbers. They are of one type and are compared
by their length first, and a number that takes more bytes than another is larger, since each is
written in the least of the four widths that has room for it; at one width it is the bytes that
count. So the names of a range, which count up from its lower end to its upper one, are in the order
of names, and each of them tells its number.

    width n < width m → n < m                                             (toNat_lt_of_width_lt)
    compare (ofNumber n) (ofNumber m) = compare n m                            (compare_ofNumber)
    compare (s.pushNumber n) (s.pushNumber m) = compare n m                  (compare_pushNumber)
-/

namespace NamedData

/-! ## Numbers as values -/

namespace Tlv.NonNeg

/-- The bytes in which a number is written as a value. -/
def width (n : UInt64) : Nat :=
  if n < 0x100 then 1 else if n < 0x10000 then 2 else if n < 0x100000000 then 4 else 8

theorem encode_eq (n : UInt64) : encode n = Bytes.bigEndian (width n) n.toNat := by
  unfold encode width
  split_ifs <;> rfl

theorem length_encode (n : UInt64) : (encode n).length = width n := by
  rw [encode_eq, Bytes.length_bigEndian]

/-- The four widths, with the numbers that are written in each. -/
theorem width_cases (n : UInt64) :
    (width n = 1 ∧ n.toNat < 256 ^ 1) ∨
    (width n = 2 ∧ 256 ^ 1 ≤ n.toNat ∧ n.toNat < 256 ^ 2) ∨
    (width n = 4 ∧ 256 ^ 2 ≤ n.toNat ∧ n.toNat < 256 ^ 4) ∨
    (width n = 8 ∧ 256 ^ 4 ≤ n.toNat ∧ n.toNat < 256 ^ 8) := by
  have hn := n.toNat_lt
  unfold width
  simp only [UInt64.lt_iff_toNat_lt, UInt64.reduceToNat]
  split_ifs <;> omega

theorem toNat_lt (n : UInt64) : n.toNat < 256 ^ width n := by
  rcases width_cases n with ⟨hw, h⟩ | ⟨hw, _, h⟩ | ⟨hw, _, h⟩ | ⟨hw, _, h⟩ <;> rwa [hw]

/-- A number that takes more bytes is larger. -/
theorem toNat_lt_of_width_lt {n m : UInt64} (h : width n < width m) : n.toNat < m.toNat := by
  rcases width_cases n with ⟨hn, _⟩ | ⟨hn, _, _⟩ | ⟨hn, _, _⟩ | ⟨hn, _, _⟩ <;>
    rcases width_cases m with ⟨hm, _⟩ | ⟨hm, _, _⟩ | ⟨hm, _, _⟩ | ⟨hm, _, _⟩ <;> omega

/-- Written numbers compare by length, and then as byte strings, the way the numbers compare. -/
theorem compare_encode (n m : UInt64) :
    (compare (encode n).length (encode m).length).then (compare (encode n) (encode m)) =
      compare n m := by
  rw [length_encode, length_encode, ← compare_toNat_word]
  rcases Nat.lt_trichotomy (width n) (width m) with h | h | h
  · rw [Nat.compare_eq_lt.2 h, Nat.compare_eq_lt.2 (toNat_lt_of_width_lt h)]
    rfl
  · have hm := toNat_lt m
    rw [← h] at hm
    rw [Nat.compare_eq_eq.2 h, Ordering.eq_then, encode_eq, encode_eq, ← h,
      Bytes.compare_bigEndian (toNat_lt n) hm]
  · rw [Nat.compare_eq_gt.2 h, Nat.compare_eq_gt.2 (toNat_lt_of_width_lt h)]
    rfl

end Tlv.NonNeg

/-! ## Numbers in names -/

namespace Component

theorem compare_ofNumber (n m : UInt64) : compare (ofNumber n) (ofNumber m) = compare n m := by
  have htyp : compare (ofNumber n).typ (ofNumber m).typ = .eq := Std.ReflOrd.compare_self
  rw [← Tlv.NonNeg.compare_encode n m]
  show (compare (ofNumber n).typ (ofNumber m).typ).then _ = _
  rw [htyp]
  rfl

theorem ofNumber_lt_iff {n m : UInt64} : ofNumber n < ofNumber m ↔ n < m := by
  show compare (ofNumber n) (ofNumber m) = .lt ↔ n < m
  rw [compare_ofNumber, ← compare_toNat_word, Nat.compare_eq_lt, UInt64.lt_iff_toNat_lt]

theorem toNumber?_ofNumber (n : UInt64) : (ofNumber n).toNumber? = some n := by
  rw [toNumber?, ofNumber, generic, Tlv.NonNeg.decode_encode]
  rfl

end Component

namespace Name

theorem pushNumber_lt_iff (name : Name) {n m : UInt64} :
    name.pushNumber n < name.pushNumber m ↔ n < m := by
  rw [← Component.ofNumber_lt_iff]
  show compare (name.components ++ [_]) (name.components ++ [_]) = .lt ↔ compare _ _ = .lt
  rw [compare_append_left, List.compare_cons_cons, List.compare_nil_nil, Ordering.then_eq]

/-- The number at the end of a name is read back. -/
theorem toNumber?_pushNumber (name : Name) (n : UInt64) :
    (name.pushNumber n).last?.bind Component.toNumber? = some n := by
  rw [last?, pushNumber, push, List.getLast?_concat, Option.bind_some, Component.toNumber?_ofNumber]

end Name

/-! ## Ranges -/

namespace Sync.Range

variable (range : Range)

/-- The numbers of a range in their order. -/
def numbers : List UInt64 :=
  (List.range (range.high.toNat + 1 - range.low.toNat)).map fun offset =>
    range.low + UInt64.ofNat offset

theorem names_eq : range.names = range.numbers.map range.session.pushNumber := by
  rw [names, numbers, List.map_map]
  rfl

/-- The number at an offset from the lower end. -/
theorem toNat_low_add {offset : Nat} (h : offset < range.high.toNat + 1 - range.low.toNat) :
    (range.low + UInt64.ofNat offset).toNat = range.low.toNat + offset := by
  have hhigh := range.high.toNat_lt
  rw [UInt64.toNat_add, UInt64.toNat_ofNat']
  omega

theorem mem_numbers_iff {seq : UInt64} :
    seq ∈ range.numbers ↔ range.low ≤ seq ∧ seq ≤ range.high := by
  rw [numbers, List.mem_map, UInt64.le_iff_toNat_le, UInt64.le_iff_toNat_le]
  constructor
  · rintro ⟨offset, hoffset, rfl⟩
    have hbound := List.mem_range.1 hoffset
    rw [range.toNat_low_add hbound]
    omega
  · rintro ⟨hlow, hhigh⟩
    have hbound : seq.toNat - range.low.toNat < range.high.toNat + 1 - range.low.toNat := by omega
    refine ⟨seq.toNat - range.low.toNat, List.mem_range.2 hbound, ?_⟩
    rw [← UInt64.toNat_inj, range.toNat_low_add hbound]
    omega

theorem numbers_pairwise : range.numbers.Pairwise (· < ·) := by
  rw [numbers, List.pairwise_map]
  refine List.pairwise_lt_range.imp_of_mem ?_
  intro i j hi hj hlt
  rw [UInt64.lt_iff_toNat_lt, range.toNat_low_add (List.mem_range.1 hi),
    range.toNat_low_add (List.mem_range.1 hj)]
  omega

theorem names_pairwise : range.names.Pairwise (· < ·) := by
  rw [names_eq, List.pairwise_map]
  exact range.numbers_pairwise.imp fun hlt => (range.session.pushNumber_lt_iff).2 hlt

theorem names_eq_nil_iff : range.names = [] ↔ range.high < range.low := by
  rw [names, List.map_eq_nil_iff, List.range_eq_nil, UInt64.lt_iff_toNat_lt]
  omega

theorem mem_names_iff {name : Name} :
    name ∈ range.names ↔
      ∃ seq, range.low ≤ seq ∧ seq ≤ range.high ∧ name = range.session.pushNumber seq := by
  rw [names_eq, List.mem_map]
  simp only [mem_numbers_iff, and_assoc, eq_comm]

/-- The names of a range are those of the numbers from its lower end to its upper one, which may be
the largest there is; they go up in the order of names, so none comes twice; none is there just if
the ends are the wrong way round; and each tells its number. The order of names is that of their
numbers because that of number components is. -/
theorem names_count_up :
    (∀ name, name ∈ range.names ↔
      ∃ seq, range.low ≤ seq ∧ seq ≤ range.high ∧ name = range.session.pushNumber seq) ∧
      range.names.Pairwise (· < ·) ∧ range.names.Nodup ∧
      (range.names = [] ↔ range.high < range.low) ∧
      (∀ seq, (range.session.pushNumber seq).last?.bind Component.toNumber? = some seq) ∧
      ∀ n m : UInt64, Component.ofNumber n < Component.ofNumber m ↔ n < m := by
  have hnodup : range.names.Nodup := by
    refine range.names_pairwise.imp ?_
    rintro a _ hlt rfl
    exact absurd (Std.ReflOrd.compare_self.symm.trans hlt) nofun
  exact ⟨fun _ => range.mem_names_iff, range.names_pairwise, hnodup, range.names_eq_nil_iff,
    range.session.toNumber?_pushNumber, fun _ _ => Component.ofNumber_lt_iff⟩

/-- The numbers at which two bytes become four, and the two largest there are. -/
example : (⟨.empty, 0xFFFF, 0x10000⟩ : Range).names =
    [⟨[.generic [0xFF, 0xFF]]⟩, ⟨[.generic [0, 1, 0, 0]]⟩] ∧
      (⟨.empty, 0xFFFFFFFFFFFFFFFE, 0xFFFFFFFFFFFFFFFF⟩ : Range).names.length = 2 := by decide

end Sync.Range

end NamedData
