import NamedData.Proofs.Tlv.Element
/-!
# Elements at the front of an input that grows

An input either begins with a whole element, and then it begins with that element whatever comes
later, or what it has of one is cut off and no front of it is an element. So bytes can be read as
they arrive: nothing that was read has to be taken back, and no element is the beginning of another.

A header may say that its value is as long as a word can count, and the place behind such a value
need not be one that a word can count. Where places are words, it is added up with a check, and what
is cut out of the input has to lie in it. Reading by such places (`readByPlaces?`) comes to what
reading comes to, for every input whose length is a word, and never looks behind the end.

    add? p n = none ↔ 2 ^ 64 ≤ p.toNat + n.toNat                              (add?_eq_none_iff)
    input.length < 2 ^ 64 → readByPlaces? input = some (read input)            (readByPlaces?_eq)
    e.wire <+: f.wire → e = f   for elements that were read                  (eq_of_wire_isPrefix)
-/

namespace NamedData.Tlv

/-! ## Places in memory -/

namespace Place

/-- The place that lies so many bytes behind another, if it can be counted in a word. -/
def add? (place length : UInt64) : Option UInt64 :=
  if place + length < place then none else some (place + length)

/-- The bytes from one place up to another, if both are places in the input, in this order. -/
def between? (input : Bytes) (start stop : UInt64) : Option Bytes :=
  if start ≤ stop ∧ stop.toNat ≤ input.length then
    some ((input.take stop.toNat).drop start.toNat)
  else none

variable {place length stop : UInt64}

theorem add?_eq_some_iff : add? place length = some stop ↔
    place.toNat + length.toNat = stop.toNat := by
  have hplace := place.toNat_lt
  have hlength := length.toNat_lt
  have hstop := stop.toNat_lt
  unfold add?
  rw [Option.ite_none_left_eq_some, Option.some.injEq, ← UInt64.toNat_inj, UInt64.lt_iff_toNat_lt,
    UInt64.toNat_add]
  omega

theorem add?_eq_none_iff : add? place length = none ↔ 2 ^ 64 ≤ place.toNat + length.toNat := by
  have hplace := place.toNat_lt
  have hlength := length.toNat_lt
  unfold add?
  rw [ite_eq_left_iff, UInt64.lt_iff_toNat_lt, UInt64.toNat_add]
  simp only [reduceCtorEq, imp_false, not_not]
  omega

/-- What stands between two places is cut out. -/
theorem between?_append (before middle after : Bytes) {start : UInt64}
    (hstart : start.toNat = before.length) (hstop : stop.toNat = (before ++ middle).length) :
    between? (before ++ middle ++ after) start stop = some middle := by
  have hinside : start ≤ stop ∧ stop.toNat ≤ (before ++ middle ++ after).length := by
    rw [UInt64.le_iff_toNat_le]
    simp only [List.length_append] at hstop ⊢
    omega
  rw [between?, if_pos hinside, hstart, hstop, List.take_left, List.drop_left]

/-- What stands from a place to the end is cut out. -/
theorem between?_end {front rest : Bytes} (short : (front ++ rest).length < 2 ^ 64) :
    between? (front ++ rest) (.ofNat front.length) (.ofNat (front ++ rest).length) = some rest := by
  have hend := toNat_length short
  rw [List.length_append] at short
  have hfront : (UInt64.ofNat front.length).toNat = front.length := toNat_length (by omega)
  have h := between?_append front rest [] hfront hend
  rwa [List.append_nil] at h

end Place

namespace Element

/-- The element of a type with a header up to some place, and behind it a value as long as the
header says. There is no outcome if bytes are looked for where there are none. -/
def cut? (input : Bytes) (typ header length : UInt64) : Option (Except DecodeError Element) :=
  match Place.add? header length with
  | none => some (.error .truncated)
  | some stop =>
    if UInt64.ofNat input.length < stop then some (.error .truncated)
    else do
      let value ← Place.between? input header stop
      let wire ← Place.between? input 0 stop
      pure (.ok { typ, value, wire })

/-- Reads the element at the front of an input by places that are words. The widths of two numbers
are added without a check, since they are small. -/
def readByPlaces? (input : Bytes) : Option (Except DecodeError Element) :=
  match VarNumber.read input with
  | .error e => some (.error e)
  | .ok (typ, typWidth) => do
    let behind ← Place.between? input (.ofNat typWidth) (.ofNat input.length)
    match VarNumber.read behind with
    | .error e => some (.error e)
    | .ok (length, lengthWidth) => cut? input typ (.ofNat typWidth + .ofNat lengthWidth) length

/-- A value is cut out behind its header if the input is long enough for it. -/
theorem cut?_append {typ place length : UInt64} {header rest : Bytes}
    (short : (header ++ rest).length < 2 ^ 64) (hplace : place.toNat = header.length) :
    cut? (header ++ rest) typ place length =
      some (if length.toNat ≤ rest.length then
        .ok ⟨typ, rest.take length.toNat, header ++ rest.take length.toNat⟩
      else .error .truncated) := by
  have hsize := toNat_length short
  rw [List.length_append] at short hsize
  unfold cut?
  cases hstop : Place.add? place length with
  | none =>
    -- a length that leads out of what a word counts leads out of the input
    rw [Place.add?_eq_none_iff] at hstop
    rw [if_neg (by omega)]
  | some stop =>
    rw [Place.add?_eq_some_iff] at hstop
    simp only [UInt64.lt_iff_toNat_lt, List.length_append, hsize]
    by_cases henough : length.toNat ≤ rest.length
    · rw [if_neg (by omega), if_pos henough]
      have hwire : stop.toNat = (header ++ rest.take length.toNat).length := by
        rw [List.length_append, List.length_take_of_le henough]
        omega
      have hall : header ++ rest = header ++ rest.take length.toNat ++ rest.drop length.toNat := by
        rw [List.append_assoc, List.take_append_drop]
      have hfront : Place.between? (header ++ rest) 0 stop =
          some (header ++ rest.take length.toNat) := by
        rw [hall]
        exact Place.between?_append [] _ _ rfl hwire
      have hbehind : Place.between? (header ++ rest) place stop =
          some (rest.take length.toNat) := by
        rw [hall]
        exact Place.between?_append header _ _ hplace hwire
      rw [hfront, hbehind]
      rfl
    · rw [if_pos (by omega), if_neg henough]

/-- Reading by places that are words is reading. -/
theorem readByPlaces?_eq {input : Bytes} (short : input.length < 2 ^ 64) :
    readByPlaces? input = some (read input) := by
  unfold readByPlaces?
  cases htype : VarNumber.read input with
  | error e =>
    rw [read, htype]
    rfl
  | ok number =>
    obtain ⟨typ, typWidth⟩ := number
    obtain ⟨first, more, rfl, rfl, hfirst⟩ := VarNumber.read_eq_ok_iff.1 htype
    simp only [Place.between?_end short, bind, Option.bind]
    cases hlength : VarNumber.read more with
    | error e => simp only [read, htype, List.drop_left, hlength, bind, Except.bind]
    | ok number =>
      obtain ⟨length, lengthWidth⟩ := number
      obtain ⟨second, rest, rfl, rfl, hsecond⟩ := VarNumber.read_eq_ok_iff.1 hlength
      have hheader : Header typ length.toNat (first ++ second) :=
        ⟨length, first, second, hfirst, hsecond, rfl, rfl⟩
      rw [← List.append_assoc] at short ⊢
      have hwidth : (first ++ second).length < 2 ^ 64 := by
        rw [List.length_append] at short
        omega
      have hplace : (UInt64.ofNat first.length + UInt64.ofNat second.length).toNat =
          (first ++ second).length := by
        rw [← UInt64.ofNat_add, ← List.length_append, toNat_length hwidth]
      show cut? (first ++ second ++ rest) typ _ length = _
      rw [cut?_append short hplace, hheader.read_append]

/-! ## Growing inputs -/

/-- What cannot be read is cut off, and does not begin with an element. -/
theorem truncated_of_read {input : Bytes} {e : DecodeError} (failed : read input = .error e) :
    e = .truncated ∧ ∀ front, front <+: input → ∀ typ value, ¬Spells typ value front := by
  constructor
  · rcases exists_header_or_truncated input with ⟨typ, length, header, rest, rfl, h⟩ | htruncated
    · rw [h.read_append] at failed
      split at failed
      · cases failed
      · exact (Except.error.inj failed).symm
    · rw [htruncated] at failed
      exact (Except.error.inj failed).symm
  · rintro front ⟨rest, rfl⟩ typ value h
    rw [read_append_of_spells h] at failed
    cases failed

/-- Of two elements neither is the beginning of the other. -/
theorem eq_of_wire_isPrefix {a b : Bytes} {e f : Element} (he : read a = .ok e)
    (hf : read b = .ok f) (h : e.wire <+: f.wire) : e = f := by
  obtain ⟨rest, hrest⟩ := h
  obtain ⟨-, -, hspells⟩ := read_eq_ok_iff.1 he
  obtain ⟨-, -, hspells'⟩ := read_eq_ok_iff.1 hf
  rw [← List.append_nil f.wire] at hrest
  exact (hspells.eq_of_append_eq hspells' hrest).1

/-- A written element is read back, whatever follows. An input begins with an element and keeps it
whatever follows, or it is cut off and no front of it is an element. Behind a header the value is
read if there is as much as the header says, up to the greatest length; and by places that are words
the same is read, so that none of them wraps around or leads out of the input. No element is the
beginning of another. -/
theorem elements_at_the_front_stay :
    (∀ (typ : UInt64) (value r : Bytes), value.length < 2 ^ 64 →
      read (write typ value ++ r) = .ok ⟨typ, value, write typ value⟩) ∧
    (∀ input,
      (∃ element, read input = .ok element ∧ element.wire <+: input ∧
        ∀ r, read (input ++ r) = .ok element) ∨
      (read input = .error .truncated ∧
        ∀ front, front <+: input → ∀ typ value, ¬Spells typ value front)) ∧
    (∀ typ length header rest, Header typ length header →
      read (header ++ rest) =
        if length ≤ rest.length then .ok ⟨typ, rest.take length, header ++ rest.take length⟩
        else .error .truncated) ∧
    (∀ input : Bytes, input.length < 2 ^ 64 → readByPlaces? input = some (read input)) ∧
    ∀ a b e f, read a = .ok e → read b = .ok f → e.wire <+: f.wire → e = f := by
  refine ⟨fun _ _ r short => read_write_append short r, fun input => ?_,
    fun _ _ _ rest h => h.read_append rest, fun _ => readByPlaces?_eq,
    fun _ _ _ _ => eq_of_wire_isPrefix⟩
  cases hread : read input with
  | ok element => exact Or.inl ⟨element, rfl, wire_isPrefix hread, read_append hread⟩
  | error e =>
    obtain ⟨rfl, hnone⟩ := truncated_of_read hread
    exact Or.inr ⟨rfl, hnone⟩

/-- A header that says the greatest length of all is read as cut off, also by places; and an element
with its length in a longer form does not begin like the one with the shortest. -/
theorem elements_at_the_front_stay_at_greatest_length :
    let header : Bytes := 21 :: List.replicate 9 0xFF
    Header 21 (2 ^ 64 - 1) header ∧ read (header ++ [97]) = .error .truncated ∧
      readByPlaces? (header ++ [97]) = some (.error .truncated) ∧
      read (write 21 [97] ++ header) = .ok ⟨21, [97], [21, 1, 97]⟩ ∧
      read [21, 0xFD, 0, 1, 97] = .ok ⟨21, [97], [21, 0xFD, 0, 1, 97]⟩ ∧
      ¬[21, 1, 97] <+: ([21, 0xFD, 0, 1, 97] : Bytes) := by
  intro header
  obtain ⟨hwrite, -, hheader, hplaces, hfronts⟩ := elements_at_the_front_stay
  have hgreatest : Header 21 (2 ^ 64 - 1) header :=
    ⟨.ofNat (2 ^ 64 - 1), [21], List.replicate 9 0xFF, .one (by decide), .eight, by decide, rfl⟩
  have hcut : read (header ++ [97]) = .error .truncated := by
    rw [hheader 21 _ header [97] hgreatest, if_neg (by decide)]
  have hback := hwrite 21 [97] header (by decide)
  have hlong : read [21, 0xFD, 0, 1, 97] = .ok ⟨21, [97], [21, 0xFD, 0, 1, 97]⟩ := by decide
  refine ⟨hgreatest, hcut, ?_, hback, hlong, fun hfront => ?_⟩
  · rw [hplaces (header ++ [97]) (by decide), hcut]
  · have hsame := hfronts _ _ _ _ hback hlong hfront
    exact absurd hsame (by decide)

end Element

end NamedData.Tlv
