import NamedData.Proofs.Tlv.Element
/-!
# Where a reader stands

A reader goes over a buffer from element to element. Whatever steps it is asked for, the bytes
behind it are a row of elements, namely of those it has given away, in their order, and what is
ahead of it is the rest of the buffer. The argument is one of steps: a step either takes the element
that stands ahead, with all of its bytes, or leaves the reader where it is, for whatever reason it
fails or finds nothing (`moves_step`). So the row behind grows by what a step takes (`Behind.move`),
and over a run by what its steps take (`Behind.run`).

    Row es b → Row fs b → es = fs                                                   (Row.unique)
    Moves r (taken? (r.step s).1) (r.step s).2                                      (moves_step)
    Behind b es r → Behind b (es ++ (r.run steps).1.filterMap taken?) (r.run steps).2
                                                                                    (Behind.run)
-/

namespace NamedData.Tlv

/-! ## Sequences of elements -/

/-- Whether bytes are elements one after another, with nothing left over. -/
inductive Complete : Bytes → Prop where
  | nil : Complete []
  | cons {typ : UInt64} {value wire rest : Bytes} :
      Spells typ value wire → Complete rest → Complete (wire ++ rest)

section

variable {typ : UInt64} {value wire rest bytes : Bytes}

theorem complete_append_iff (h : Spells typ value wire) :
    Complete (wire ++ rest) ↔ Complete rest := by
  refine ⟨fun hcomplete => ?_, .cons h⟩
  generalize hbytes : wire ++ rest = bytes at hcomplete
  cases hcomplete with
  | nil => exact absurd hbytes (h.append_ne_nil rest)
  | cons hfirst hrest =>
    obtain ⟨-, rfl⟩ := h.eq_of_append_eq hfirst hbytes
    exact hrest

/-- Where nothing can be read, no element stands. -/
theorem not_complete_of_read {e : DecodeError} (hne : bytes ≠ [])
    (h : Element.read bytes = .error e) : ¬Complete bytes := by
  rintro (_ | ⟨hfirst, -⟩)
  · exact hne rfl
  · rw [Element.read_append_of_spells hfirst] at h
    cases h

end

/-! ## Rows of elements -/

/-- Whether bytes are these elements, one behind the other. -/
def Row (es : List Element) (bytes : Bytes) : Prop :=
  (∀ e ∈ es, Spells e.typ e.value e.wire) ∧ bytes = es.flatMap Element.wire

theorem Row.nil : Row [] [] := ⟨nofun, rfl⟩

theorem Row.singleton {typ : UInt64} {value wire : Bytes} (h : Spells typ value wire) :
    Row [⟨typ, value, wire⟩] wire := by
  refine ⟨?_, ?_⟩
  · rintro _ (_ | ⟨_, ⟨⟩⟩)
    exact h
  · rw [List.flatMap_singleton]

theorem Row.append {es fs : List Element} {bytes more : Bytes} (h : Row es bytes)
    (h' : Row fs more) : Row (es ++ fs) (bytes ++ more) := by
  obtain ⟨hes, rfl⟩ := h
  obtain ⟨hfs, rfl⟩ := h'
  exact ⟨List.forall_mem_append.2 ⟨hes, hfs⟩, List.flatMap_append.symm⟩

theorem Row.complete {es : List Element} {bytes : Bytes} (h : Row es bytes) : Complete bytes := by
  obtain ⟨hes, rfl⟩ := h
  induction es with
  | nil => exact .nil
  | cons e es ih =>
    rw [List.forall_mem_cons] at hes
    exact .cons hes.1 (ih hes.2)

/-- Bytes are a row of elements in one way. -/
theorem Row.unique {es fs : List Element} {bytes : Bytes} (h : Row es bytes) (h' : Row fs bytes) :
    es = fs := by
  obtain ⟨hes, rfl⟩ := h
  obtain ⟨hfs, hsame⟩ := h'
  -- no element is empty, so the two rows end together
  induction es generalizing fs with
  | nil =>
    cases fs with
    | nil => rfl
    | cons f fs => exact absurd hsame.symm ((hfs f List.mem_cons_self).append_ne_nil _)
  | cons e es ih =>
    cases fs with
    | nil => exact absurd hsame ((hes e List.mem_cons_self).append_ne_nil _)
    | cons f fs =>
      rw [List.forall_mem_cons] at hes hfs
      obtain ⟨hfirst, hrest⟩ := hes.1.eq_of_append_eq hfs.1 hsame
      obtain rfl : e = f := hfirst
      rw [ih hes.2 hfs.2 hrest]

/-- A field is a row of one element at most. -/
theorem SpellsOptional.exists_row {typ : UInt64} {field : Option Bytes} {wire : Bytes}
    (h : SpellsOptional typ field wire) :
    ∃ es, Row es wire ∧ (es.map Element.typ).Sublist [typ] := by
  cases field with
  | none =>
    cases h
    exact ⟨[], .nil, List.nil_sublist _⟩
  | some value => exact ⟨_, .singleton h, List.Sublist.refl _⟩

namespace Reader

/-! ## Steps -/

/-- The element that came of a step, if one did. -/
def taken? : Except DecodeError Yield → Option Element
  | .ok (.element element) => some element
  | _ => none

/-- Where a reader stands after it took the element ahead, or took none. -/
inductive Moves (r : Reader) : Option Element → Reader → Prop where
  | stay : Moves r none r
  | pass {element : Element} {rest : Bytes} : Spells element.typ element.value element.wire →
      r.rest = element.wire ++ rest →
      Moves r (some element) ⟨r.position + element.wire.length, rest⟩

variable {r : Reader}

theorem moves_of_read {element : Element} {after : Reader} (done : r.read = .ok (element, after)) :
    Moves r (some element) after := by
  obtain ⟨hrest, hposition, h⟩ := of_read done
  obtain ⟨position, rest⟩ := after
  cases hposition
  exact .pass h hrest

theorem moves_advance {outcome : Except DecodeError (Element × Reader)}
    (h : ∀ taken, outcome = .ok taken → r.read = .ok taken) :
    Moves r (taken? (r.advance outcome).1) (r.advance outcome).2 := by
  cases outcome with
  | error e => exact .stay
  | ok taken => exact moves_of_read (h taken rfl)

/-- To look for a field is to read it, or to find nothing. -/
theorem step_optional (r : Reader) (typ : UInt64) :
    r.step (.optional typ) =
      if r.peek? = some typ then r.step .read else (.ok .nothing, r) := by
  by_cases hpeek : r.peek? = some typ
  · simp only [step, optional, if_pos hpeek]
    cases r.read <;> rfl
  · simp only [step, optional, if_neg hpeek]

/-- A step takes the element ahead or leaves the reader where it is. -/
theorem moves_step (r : Reader) (s : Step) : Moves r (taken? (r.step s).1) (r.step s).2 := by
  have hread : Moves r (taken? (r.step .read).1) (r.step .read).2 :=
    moves_advance fun _ done => done
  cases s with
  | peek => exact .stay
  | read => exact hread
  | expect typ what => exact moves_advance fun _ done => (expect_eq_ok_iff.1 done).1
  | optional typ =>
    rw [step_optional]
    split
    · exact hread
    · exact .stay

/-- An element has bytes, so a reader that takes one does not stay. -/
theorem Moves.eq_iff {taken : Option Element} {after : Reader} (h : Moves r taken after) :
    after = r ↔ taken = none := by
  cases h with
  | stay => exact ⟨fun _ => rfl, fun _ => rfl⟩
  | pass hwire _ =>
    refine ⟨fun hsame => ?_, nofun⟩
    have hposition : r.position + _ = r.position := congrArg position hsame
    have hpos := hwire.length_pos
    omega

/-! ## Runs -/

/-- What comes of steps one after another, and the reader after the last of them. -/
def run (r : Reader) : List Step → List (Except DecodeError Yield) × Reader
  | [] => ([], r)
  | s :: steps => ((r.step s).1 :: ((r.step s).2.run steps).1, ((r.step s).2.run steps).2)

/-- Whether a reader stands in a buffer right behind these elements. -/
def Behind (buffer : Bytes) (es : List Element) (r : Reader) : Prop :=
  ∃ passed, Row es passed ∧ buffer = passed ++ r.rest ∧ r.position = passed.length

variable {buffer : Bytes} {es : List Element}

theorem behind_ofBytes (buffer : Bytes) : Behind buffer [] (ofBytes buffer) :=
  ⟨[], .nil, rfl, rfl⟩

theorem Behind.move {taken : Option Element} {after : Reader} (h : Behind buffer es r)
    (move : Moves r taken after) : Behind buffer (es ++ taken.toList) after := by
  cases move with
  | stay => rwa [Option.toList_none, List.append_nil]
  | pass hwire hrest =>
    obtain ⟨passed, hrow, hbuffer, hposition⟩ := h
    refine ⟨_, hrow.append (.singleton hwire), ?_, ?_⟩
    · rw [hbuffer, hrest, List.append_assoc]
    · rw [hposition, List.length_append]

theorem Behind.run (h : Behind buffer es r) (steps : List Step) :
    Behind buffer (es ++ (r.run steps).1.filterMap taken?) (r.run steps).2 := by
  induction steps generalizing r es with
  | nil => rwa [Reader.run, List.filterMap_nil, List.append_nil]
  | cons s steps ih =>
    have hafter := ih (h.move (moves_step r s))
    rw [List.append_assoc] at hafter
    rw [Reader.run, List.filterMap_cons]
    cases htaken : taken? (r.step s).1 with
    | none => rwa [htaken] at hafter
    | some element => rwa [htaken] at hafter

theorem Behind.take_eq (h : Behind buffer es r) :
    r.position ≤ buffer.length ∧ Row es (buffer.take r.position) ∧
      r.rest = buffer.drop r.position := by
  obtain ⟨passed, hrow, rfl, hposition⟩ := h
  rw [hposition, List.take_left, List.drop_left, List.length_append]
  exact ⟨Nat.le_add_right _ _, hrow, rfl⟩

/-- After any steps a reader stands in its buffer, with the rest of the buffer ahead. The bytes
behind it are the elements that the steps took, one after another and each complete; and from there
a step leaves the reader where it stands just if it takes no element. -/
theorem stands_between_elements (buffer : Bytes) (steps : List Step) :
    let outcomes := ((ofBytes buffer).run steps).1
    let r := ((ofBytes buffer).run steps).2
    r.position ≤ buffer.length ∧ r.rest = buffer.drop r.position ∧
      buffer.take r.position = (outcomes.filterMap taken?).flatMap Element.wire ∧
      Complete (buffer.take r.position) ∧
      ∀ s, (r.step s).2 = r ↔ taken? (r.step s).1 = none := by
  intro outcomes r
  obtain ⟨hposition, hrow, hrest⟩ := ((behind_ofBytes buffer).run steps).take_eq
  exact ⟨hposition, hrest, hrow.2, hrow.complete, fun s => (moves_step r s).eq_iff⟩

/-- A field that is missing and one that is there, an element of another type, and one cut off. -/
example :
    let steps := [.optional 25, .expect 24 "ContentType", .expect 7 "Name", .peek, .read]
    let (outcomes, r) := (ofBytes [24, 1, 2, 21, 3, 97]).run steps
    outcomes.filterMap taken? = [⟨24, [2], [24, 1, 2]⟩] ∧ r = ⟨3, [21, 3, 97]⟩ := by decide

end Reader

end NamedData.Tlv
