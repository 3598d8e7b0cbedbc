import Mathlib.Algebra.Group.Nat.Defs
import Mathlib.Data.List.Induction
import Mathlib.Tactic.SplitIfs
import NamedData.Tlv.Number
/-!
# The number codings: reading back and byte order

A number has four forms, of which the shortest is written and all are read, and what is read is one
of them. Two written numbers compare as byte strings the way the numbers compare, whatever follows
them. That no written form is the beginning of another follows from reading: what follows a written
number does not change what is read.

    ofBigEndian (bigEndian w n) = n % 256 ^ w                              (ofBigEndian_bigEndian)
    compare (ofBigEndian a) (ofBigEndian b) = compare a b   at one length   (compare_ofBigEndian)
    read b = .ok (n, w) ↔ b = form ++ r, where Form n form and w = form.length   (read_eq_ok_iff)
    compare (write n ++ r) (write m ++ s) = (compare n m).then (compare r s)
                                                                           (compare_write_append)
    write n <+: write m ↔ n = m                                            (write_isPrefix_iff)
-/

namespace NamedData

/-! ## Comparing lists -/

/-- Lists of one length decide a comparison before anything that follows them. -/
theorem compare_append_of_length_eq {α : Type} [Ord α] {a b : List α} (h : a.length = b.length)
    (r s : List α) : compare (a ++ r) (b ++ s) = (compare a b).then (compare r s) := by
  induction a generalizing b with
  | nil => cases List.length_eq_zero_iff.1 h.symm; rfl
  | cons x a ih =>
    cases b with
    | nil => cases h
    | cons y b =>
      rw [List.cons_append, List.cons_append, List.compare_cons_cons, List.compare_cons_cons,
        ih (Nat.succ.inj h), Ordering.then_assoc]

theorem compare_append_left {α : Type} [Ord α] [Std.ReflOrd α] (a r s : List α) :
    compare (a ++ r) (a ++ s) = compare r s := by
  rw [compare_append_of_length_eq rfl, Std.ReflOrd.compare_self, Ordering.eq_then]

/-- Bytes compare as the numbers they are. -/
theorem compare_toNat (a b : UInt8) : compare a.toNat b.toNat = compare a b := by
  simp only [compare, compareOfLessAndEq, UInt8.lt_iff_toNat_lt, UInt8.toNat_inj]

theorem compare_toNat_word (a b : UInt64) : compare a.toNat b.toNat = compare a b := by
  simp only [compare, compareOfLessAndEq, UInt64.lt_iff_toNat_lt, UInt64.toNat_inj]

namespace Bytes

/-! ## Big-endian numbers -/

theorem ofBigEndian_bigEndian (width n : Nat) :
    ofBigEndian (bigEndian width n) = n % 256 ^ width := by
  induction width generalizing n with
  | zero => simp [bigEndian, ofBigEndian, Nat.mod_one]
  | succ width ih =>
    rw [bigEndian, ofBigEndian_concat, ih, Nat.pow_succ, Nat.mul_comm (256 ^ width),
      Nat.mod_mul (a := 256)]
    simp only [UInt8.toNat_ofNat']
    omega

/-- The digits of a number are the bytes it was read from. -/
theorem bigEndian_ofBigEndian (bytes : Bytes) :
    bigEndian bytes.length (ofBigEndian bytes) = bytes := by
  induction bytes using List.reverseRecOn with
  | nil => rfl
  | append_singleton bytes byte ih =>
    have hbyte := byte.toNat_lt
    have hhigh : (ofBigEndian bytes * 256 + byte.toNat) / 256 = ofBigEndian bytes := by omega
    have hlow : UInt8.ofNat (ofBigEndian bytes * 256 + byte.toNat) = byte := by
      rw [← UInt8.toNat_inj, UInt8.toNat_ofNat']
      omega
    rw [List.length_append, List.length_singleton, ofBigEndian_concat, bigEndian, hhigh, ih, hlow]

/-- A number is below what its bytes have room for. -/
theorem ofBigEndian_lt (bytes : Bytes) : ofBigEndian bytes < 256 ^ bytes.length := by
  induction bytes using List.reverseRecOn with
  | nil => decide
  | append_singleton bytes byte ih =>
    have hbyte := byte.toNat_lt
    rw [ofBigEndian_concat, List.length_append, List.length_singleton, Nat.pow_succ]
    omega

/-- The first byte counts as many times as the bytes after it have room for numbers. -/
theorem ofBigEndian_cons (byte : UInt8) (bytes : Bytes) :
    ofBigEndian (byte :: bytes) = byte.toNat * 256 ^ bytes.length + ofBigEndian bytes := by
  induction bytes using List.reverseRecOn with
  | nil => simp [ofBigEndian]
  | append_singleton bytes last ih =>
    rw [← List.cons_append, ofBigEndian_concat, ofBigEndian_concat, ih, List.length_append,
      List.length_singleton, Nat.pow_succ, Nat.add_mul, Nat.mul_assoc, Nat.add_assoc]

theorem ofBigEndian_replicate_zero (width : Nat) :
    ofBigEndian (List.replicate width 0) = 0 := by
  induction width with
  | zero => rfl
  | succ width ih =>
    rw [List.replicate_succ, ofBigEndian_cons, ih]
    simp

/-- Numbers with one more digit compare by what stands before it, and then by the digit. -/
theorem compare_digit_last {x y : Nat} (hx : x < 256) (hy : y < 256) (n m : Nat) :
    compare (n * 256 + x) (m * 256 + y) = (compare n m).then (compare x y) := by
  rcases Nat.lt_trichotomy n m with h | rfl | h
  · rw [Nat.compare_eq_lt.2 h, Nat.compare_eq_lt.2 (by omega)]
    rfl
  · rw [Nat.compare_eq_eq.2 rfl, Ordering.eq_then]
    rcases Nat.lt_trichotomy x y with h | h | h
    · rw [Nat.compare_eq_lt.2 h, Nat.compare_eq_lt.2 (by omega)]
    · rw [Nat.compare_eq_eq.2 h, Nat.compare_eq_eq.2 (by omega)]
    · rw [Nat.compare_eq_gt.2 h, Nat.compare_eq_gt.2 (by omega)]
  · rw [Nat.compare_eq_gt.2 h, Nat.compare_eq_gt.2 (by omega)]
    rfl

/-- Byte strings of one length compare as the numbers they are. -/
theorem compare_ofBigEndian {a b : Bytes} (h : a.length = b.length) :
    compare (ofBigEndian a) (ofBigEndian b) = compare a b := by
  induction a using List.reverseRecOn generalizing b with
  | nil =>
    cases List.length_eq_zero_iff.1 h.symm
    rfl
  | append_singleton a x ih =>
    rcases List.eq_nil_or_concat b with rfl | ⟨b, y, rfl⟩
    · simp at h
    · have hlength : a.length = b.length := by simpa using h
      rw [List.concat_eq_append, ofBigEndian_concat, ofBigEndian_concat,
        compare_digit_last x.toNat_lt y.toNat_lt, ih hlength, compare_toNat,
        compare_append_of_length_eq hlength, List.compare_cons_cons, List.compare_nil_nil,
        Ordering.then_eq]

/-- At one width the byte order is the order of the numbers. -/
theorem compare_bigEndian {width n m : Nat} (hn : n < 256 ^ width) (hm : m < 256 ^ width) :
    compare (bigEndian width n) (bigEndian width m) = compare n m := by
  rw [← compare_ofBigEndian (by simp), ofBigEndian_bigEndian, ofBigEndian_bigEndian,
    Nat.mod_eq_of_lt hn, Nat.mod_eq_of_lt hm]

end Bytes

namespace Tlv.VarNumber

/-! ## Numbers of variable width -/

/-- The first byte of a written number. -/
def marker (n : UInt64) : UInt8 :=
  if n < 253 then n.toUInt8
  else if n < 0x10000 then 0xFD
  else if n < 0x100000000 then 0xFE
  else 0xFF

/-- A small number is its own marker, and nothing follows it. -/
theorem following_toUInt8 {n : UInt64} (h : n < 253) : following n.toUInt8 = 0 := by
  have hn : n.toNat < 253 := by simpa [UInt64.lt_iff_toNat_lt] using h
  have hb : n.toUInt8.toNat = n.toNat := by simp; omega
  unfold following
  rw [if_neg, if_neg, if_neg] <;> (intro he; rw [he] at hb; simp at hb; omega)

/-- The four written forms are one: a marker, and as many digits as it calls for. -/
theorem write_eq_marker_cons (n : UInt64) :
    write n = marker n :: Bytes.bigEndian (following (marker n)) n.toNat := by
  unfold write marker
  split_ifs with h1 h2 h3
  · rw [following_toUInt8 h1]
    rfl
  · rfl
  · rfl
  · rfl

/-- The four sizes of a number, with the marker and the room for digits of each. -/
theorem marker_cases (n : UInt64) :
    (n.toNat < 253 ∧ (marker n).toNat = n.toNat ∧ following (marker n) = 0) ∨
    (253 ≤ n.toNat ∧ n.toNat < 256 ^ 2 ∧ marker n = 0xFD) ∨
    (256 ^ 2 ≤ n.toNat ∧ n.toNat < 256 ^ 4 ∧ marker n = 0xFE) ∨
    (256 ^ 4 ≤ n.toNat ∧ n.toNat < 256 ^ 8 ∧ marker n = 0xFF) := by
  have hn := n.toNat_lt
  by_cases h1 : n < 253
  · have h : marker n = n.toUInt8 := if_pos h1
    rw [h, following_toUInt8 h1]
    simp only [UInt64.lt_iff_toNat_lt, UInt64.reduceToNat] at h1
    exact Or.inl ⟨h1, by simp; omega, rfl⟩
  · right
    unfold marker
    rw [if_neg h1]
    simp only [UInt64.lt_iff_toNat_lt, UInt64.reduceToNat] at h1 ⊢
    split_ifs <;> simp <;> omega

/-- A smaller marker belongs to a smaller number. -/
theorem compare_of_marker_lt {n m : UInt64} (h : compare (marker n) (marker m) = .lt) :
    compare n m = .lt := by
  rw [← compare_toNat, Nat.compare_eq_lt] at h
  rw [← compare_toNat_word, Nat.compare_eq_lt]
  rcases marker_cases n with ⟨h1, h2, _⟩ | ⟨h1, h2, hn⟩ | ⟨h1, h2, hn⟩ | ⟨h1, h2, hn⟩ <;>
    rcases marker_cases m with ⟨h3, h4, _⟩ | ⟨h3, h4, hm⟩ | ⟨h3, h4, hm⟩ | ⟨h3, h4, hm⟩ <;>
    simp_all <;> omega

/-- Without digits the marker is the number. -/
theorem toNat_marker {n : UInt64} (h : following (marker n) = 0) : (marker n).toNat = n.toNat := by
  rcases marker_cases n with ⟨_, h2, _⟩ | ⟨_, _, hn⟩ | ⟨_, _, hn⟩ | ⟨_, _, hn⟩
  · exact h2
  all_goals
    rw [hn] at h
    cases h

/-- The digits have room for the number. -/
theorem toNat_lt_of_following {n : UInt64} (h : following (marker n) ≠ 0) :
    n.toNat < 256 ^ following (marker n) := by
  rcases marker_cases n with ⟨_, _, h0⟩ | ⟨_, h2, hn⟩ | ⟨_, h2, hn⟩ | ⟨_, h2, hn⟩
  · exact absurd h0 h
  all_goals
    rw [hn]
    exact h2

/-- A first byte is a small number, or calls for one of three widths. -/
theorem following_cases (first : UInt8) :
    (following first = 0 ∧ first.toNat < 253) ∨ following first = 2 ∨ following first = 4 ∨
      following first = 8 := by
  have hfirst := first.toNat_lt
  unfold following
  split_ifs with h1 h2 h3
  · exact Or.inr (Or.inl rfl)
  · exact Or.inr (Or.inr (Or.inl rfl))
  · exact Or.inr (Or.inr (Or.inr rfl))
  · refine Or.inl ⟨rfl, ?_⟩
    rw [← UInt8.toNat_inj] at h1 h2 h3
    simp only [UInt8.reduceToNat] at h1 h2 h3
    omega

/-! ## Forms of a number -/

/-- The forms of a number, one for each width, however small the number in it. -/
inductive Form (n : UInt64) : Bytes → Prop where
  | one : n.toNat < 253 → Form n [n.toUInt8]
  | two : n.toNat < 256 ^ 2 → Form n (0xFD :: Bytes.bigEndian 2 n.toNat)
  | four : n.toNat < 256 ^ 4 → Form n (0xFE :: Bytes.bigEndian 4 n.toNat)
  | eight : Form n (0xFF :: Bytes.bigEndian 8 n.toNat)

/-- A marker with the digits that it calls for is a form. -/
theorem Form.of_marker {n : UInt64} {marker : UInt8} (h0 : following marker ≠ 0)
    (hn : n.toNat < 256 ^ following marker) :
    Form n (marker :: Bytes.bigEndian (following marker) n.toNat) := by
  unfold following at *
  split_ifs at * with h1 h2 h3
  · exact h1 ▸ .two hn
  · exact h2 ▸ .four hn
  · exact h3 ▸ .eight
  · exact absurd rfl h0

/-- A number is written in one of its forms. -/
theorem form_write (n : UInt64) : Form n (write n) := by
  rw [write_eq_marker_cons]
  rcases marker_cases n with ⟨hn, hmarker, h0⟩ | ⟨_, hn, h⟩ | ⟨_, hn, h⟩ | ⟨_, _, h⟩
  · have hsmall : marker n = n.toUInt8 := by
      rw [← UInt8.toNat_inj, hmarker, UInt64.toNat_toUInt8]
      omega
    rw [h0, hsmall]
    exact .one hn
  · rw [h]
    exact .two hn
  · rw [h]
    exact .four hn
  · rw [h]
    exact .eight

/-- A number is read from any of its forms, whatever follows. -/
theorem Form.read_append {n : UInt64} {form : Bytes} (h : Form n form) (r : Bytes) :
    read (form ++ r) = .ok (n, form.length) := by
  have hdigits : ∀ (marker : UInt8), following marker ≠ 0 →
      n.toNat < 256 ^ following marker →
      read (marker :: Bytes.bigEndian (following marker) n.toNat ++ r) =
        .ok (n, (marker :: Bytes.bigEndian (following marker) n.toNat).length) := by
    intro marker h0 hn
    have htake : (Bytes.bigEndian (following marker) n.toNat ++ r).take (following marker) =
        Bytes.bigEndian (following marker) n.toNat := List.take_left' (by simp)
    rw [List.cons_append]
    simp only [read, htake, if_neg h0, Bytes.length_bigEndian, Nat.lt_irrefl, if_false,
      Bytes.ofBigEndian_bigEndian, Nat.mod_eq_of_lt hn, UInt64.ofNat_toNat, List.length_cons,
      Nat.add_comm]
  cases h with
  | one hn =>
    have hsmall : n.toUInt8.toUInt64 = n := by
      rw [← UInt64.toNat_inj, UInt8.toNat_toUInt64, UInt64.toNat_toUInt8]
      omega
    have hbelow : n < 253 := by simpa [UInt64.lt_iff_toNat_lt] using hn
    have h0 : following n.toUInt8 = 0 := following_toUInt8 hbelow
    simp only [List.cons_append, List.nil_append, read, if_pos h0, hsmall, List.length_singleton]
  | two hn => exact hdigits 0xFD (by decide) hn
  | four hn => exact hdigits 0xFE (by decide) hn
  | eight => exact hdigits 0xFF (by decide) n.toNat_lt

/-- What a number is read from is one of its forms. -/
theorem read_eq_ok_iff {input : Bytes} {n : UInt64} {width : Nat} :
    read input = .ok (n, width) ↔
      ∃ form rest, input = form ++ rest ∧ form.length = width ∧ Form n form := by
  constructor
  · intro done
    cases input with
    | nil => cases done
    | cons first rest =>
      simp only [read] at done
      split at done
      · next h0 =>
        cases done
        have hsmall : first.toUInt64.toNat < 253 := by
          rcases following_cases first with h | h | h | h
          · exact UInt8.toNat_toUInt64 first ▸ h.2
          all_goals omega
        have hform : Form first.toUInt64 [first.toUInt64.toUInt8] := .one hsmall
        rw [UInt8.toUInt8_toUInt64] at hform
        exact ⟨[first], rest, rfl, rfl, hform⟩
      · next h0 =>
        split at done
        · cases done
        · next hlength =>
          cases done
          have hdigits : (rest.take (following first)).length = following first := by
            have := List.length_take_le (following first) rest
            omega
          refine ⟨first :: rest.take (following first), rest.drop (following first), ?_, ?_, ?_⟩
          · rw [List.cons_append, List.take_append_drop]
          · rw [List.length_cons, hdigits, Nat.add_comm]
          · have hroom := Bytes.ofBigEndian_lt (rest.take (following first))
            have hback := Bytes.bigEndian_ofBigEndian (rest.take (following first))
            rw [hdigits] at hroom hback
            have hn : (UInt64.ofNat (Bytes.ofBigEndian (rest.take (following first)))).toNat =
                Bytes.ofBigEndian (rest.take (following first)) := by
              have hword : 256 ^ following first ≤ 2 ^ 64 := by
                rcases following_cases first with ⟨h, _⟩ | h | h | h <;> rw [h] <;> decide
              rw [UInt64.toNat_ofNat', Nat.mod_eq_of_lt (Nat.lt_of_lt_of_le hroom hword)]
            have hform := Form.of_marker h0 (hn.symm ▸ hroom)
            rwa [hn, hback] at hform
  · rintro ⟨form, rest, rfl, rfl, h⟩
    exact h.read_append rest

/-- A number that cannot be read is cut off. -/
theorem eq_truncated_of_read {input : Bytes} {e : DecodeError} (failed : read input = .error e) :
    e = .truncated := by
  cases input with
  | nil => exact (Except.error.inj failed).symm
  | cons first rest =>
    simp only [read] at failed
    split at failed
    · cases failed
    · split at failed
      · exact (Except.error.inj failed).symm
      · cases failed

/-- A written number is read back, whatever follows it. -/
theorem read_write_append (n : UInt64) (r : Bytes) :
    read (write n ++ r) = .ok (n, (write n).length) :=
  (form_write n).read_append r

/-- No form of a number is shorter than the one in which it is written. -/
theorem Form.length_write_le {n : UInt64} {form : Bytes} (h : Form n form) :
    (write n).length ≤ form.length := by
  rw [write_eq_marker_cons, List.length_cons, Bytes.length_bigEndian]
  rcases marker_cases n with ⟨_, _, hm⟩ | ⟨hlow, _, hm⟩ | ⟨hlow, _, hm⟩ | ⟨hlow, _, hm⟩
  · rw [hm]
    cases h <;> simp
  all_goals
    rw [hm]
    cases h <;> simp [following] <;> omega

/-- At each length a number has one form. -/
theorem Form.eq_of_length_eq {n : UInt64} {a b : Bytes} (ha : Form n a) (hb : Form n b)
    (h : a.length = b.length) : a = b := by
  cases ha <;> cases hb <;> simp at h ⊢

/-- Numbers of one marker compare as their digits. -/
theorem compare_digits {n m : UInt64} (h : marker n = marker m) :
    compare (Bytes.bigEndian (following (marker n)) n.toNat)
      (Bytes.bigEndian (following (marker m)) m.toNat) = compare n m := by
  rw [← compare_toNat_word]
  by_cases h0 : following (marker n) = 0
  · have hnm : n.toNat = m.toNat := by
      rw [← toNat_marker h0, h, toNat_marker (h ▸ h0)]
    rw [h, hnm, Std.ReflOrd.compare_self, Std.ReflOrd.compare_self]
  · have hn := toNat_lt_of_following h0
    have hm := toNat_lt_of_following (h ▸ h0)
    rw [h] at hn ⊢
    exact Bytes.compare_bigEndian hn hm

/-- Written numbers compare as the numbers do, and equal ones leave the comparison to what comes
after them. -/
theorem compare_write_append (n m : UInt64) (r s : Bytes) :
    compare (write n ++ r) (write m ++ s) = (compare n m).then (compare r s) := by
  rw [write_eq_marker_cons, write_eq_marker_cons, List.cons_append, List.cons_append,
    List.compare_cons_cons]
  cases h : compare (marker n) (marker m) with
  | lt => rw [compare_of_marker_lt h, Ordering.lt_then, Ordering.lt_then]
  | eq =>
    have hm := Std.LawfulEqOrd.eq_of_compare h
    rw [Ordering.eq_then, compare_append_of_length_eq (by simp [hm]), compare_digits hm]
  | gt =>
    have h' := compare_of_marker_lt (Std.OrientedCmp.gt_iff_lt.1 h)
    rw [Std.OrientedCmp.gt_iff_lt.2 h', Ordering.gt_then, Ordering.gt_then]

theorem compare_write (n m : UInt64) : compare (write n) (write m) = compare n m := by
  have h := compare_write_append n m [] []
  rwa [List.append_nil, List.append_nil, Std.ReflOrd.compare_self, Ordering.then_eq] at h

/-- No written number is the beginning of another. -/
theorem write_isPrefix_iff {n m : UInt64} : write n <+: write m ↔ n = m := by
  constructor
  · rintro ⟨rest, h⟩
    have hn := read_write_append n rest
    have hm := read_write_append m []
    rw [List.append_nil, ← h, hn] at hm
    exact congrArg Prod.fst (Except.ok.inj hm)
  · rintro rfl
    exact List.prefix_rfl

/-- A number takes up at least the bytes in which it is written, and so many only if it is these
bytes that it is read from. -/
theorem length_write_le_of_read {input : Bytes} {n : UInt64} {width : Nat}
    (done : read input = .ok (n, width)) :
    (write n).length ≤ width ∧ (width = (write n).length ↔ input.take width = write n) := by
  obtain ⟨form, rest, rfl, rfl, hform⟩ := read_eq_ok_iff.1 done
  rw [List.take_left]
  exact ⟨hform.length_write_le, hform.eq_of_length_eq (form_write n), congrArg List.length⟩

/-- A number is read back from the bytes in which it is written, whatever follows them. All other
bytes from which it is read are longer. What is written is not the beginning of what is written for
another number, and as byte strings the written numbers are in the order of the numbers. -/
theorem write_is_shortest_and_in_order (n m : UInt64) :
    (∀ r, read (write n ++ r) = .ok (n, (write n).length)) ∧
      (∀ input width, read input = .ok (n, width) →
        (write n).length ≤ width ∧ (width = (write n).length ↔ input.take width = write n)) ∧
      (write n <+: write m ↔ n = m) ∧
      (n < m ↔ compare (write n) (write m) = .lt) := by
  refine ⟨read_write_append n, fun _ _ => length_write_le_of_read, write_isPrefix_iff, ?_⟩
  rw [compare_write, Std.compare_eq_lt]

/-- The number after the last of one byte is read from five bytes too, but written in three. -/
theorem write_is_shortest_and_in_order_at_253 :
    let form : Bytes := [0xFE, 0, 0, 0, 253]
    read form = .ok (253, 5) ∧ (write 253).length < 5 ∧ form.take 5 ≠ write 253 ∧
      ¬write 252 <+: write 253 ∧ compare (write 252) (write 253) = .lt := by
  intro form
  have done : read form = .ok (253, 5) := by decide
  have hne : 5 ≠ (write 253).length := by decide
  obtain ⟨-, hread, -⟩ := write_is_shortest_and_in_order 253 253
  obtain ⟨hle, hsame⟩ := hread form 5 done
  obtain ⟨-, -, hbegins, horder⟩ := write_is_shortest_and_in_order 252 253
  have hother : (252 : UInt64) ≠ 253 := by decide
  have hbelow : (252 : UInt64) < 253 := by decide
  exact ⟨done, Nat.lt_of_le_of_ne hle hne.symm, mt hsame.2 hne, mt hbegins.1 hother,
    horder.1 hbelow⟩

end Tlv.VarNumber

/-! ## Numbers as values -/

/-- Whether bytes are a number in one of the four widths, most significant byte first. -/
def Tlv.NonNeg.Form (n : UInt64) (value : Bytes) : Prop :=
  (value.length = 1 ∨ value.length = 2 ∨ value.length = 4 ∨ value.length = 8) ∧
    Bytes.ofBigEndian value = n.toNat

theorem Tlv.NonNeg.decode_eq_ok_iff {n : UInt64} {value : Bytes} :
    NonNeg.decode value = .ok n ↔ NonNeg.Form n value := by
  unfold decode
  split
  · next hwidth =>
    have hroom : Bytes.ofBigEndian value < 2 ^ 64 := by
      refine Nat.lt_of_lt_of_le (Bytes.ofBigEndian_lt value) ?_
      rcases hwidth with h | h | h | h <;> rw [h] <;> decide
    rw [Except.ok.injEq, ← UInt64.toNat_inj, UInt64.toNat_ofNat', Nat.mod_eq_of_lt hroom]
    exact ⟨fun h => ⟨hwidth, h⟩, fun h => h.2⟩
  · next hwidth => exact ⟨nofun, fun h => absurd h.1 hwidth⟩

theorem Tlv.NonNeg.length_encode_le (n : UInt64) : (NonNeg.encode n).length ≤ 8 := by
  unfold encode
  split_ifs <;> simp

/-- A number that is written as a value is read back. -/
theorem Tlv.NonNeg.decode_encode (n : UInt64) : NonNeg.decode (NonNeg.encode n) = .ok n := by
  have back : ∀ width, n.toNat < 256 ^ width →
      UInt64.ofNat (Bytes.ofBigEndian (Bytes.bigEndian width n.toNat)) = n := by
    intro width h
    rw [Bytes.ofBigEndian_bigEndian, Nat.mod_eq_of_lt h, UInt64.ofNat_toNat]
  have hn := n.toNat_lt
  unfold encode
  simp only [UInt64.lt_iff_toNat_lt, UInt64.reduceToNat]
  split_ifs <;> rw [decode, if_pos (by simp), back _ (by omega)]

end NamedData
