import NamedData.Proofs.Name.Wire
/-!
# The shortest encoding of a name

A name has many encodings, since each component may have its type and its length in longer forms
than they need. The one that is written is the shortest of them, and no other is as short. It is
read as the name, unless a digest component is not of the length of a digest: then the first of
these decides the error.

    misfit? n.components = none → decodeValue n.encodeValue = .ok n
    misfit? n.components = some c → decodeValue n.encodeValue = .error (.invalidDigestLength …)
                                                                 (decodeValue_encodeValue_eq)
    decodeValue w = .ok n → w.length ≤ n.encodeValue.length → w = n.encodeValue
                                                                 (eq_encodeValue_of_decodeValue)
-/

namespace NamedData

open Tlv

namespace Component

instance (c : Component) : Decidable c.Sound := inferInstanceAs (Decidable (_ → _))

/-- The first component of the digest type that is not of the length of a digest. -/
def misfit? (cs : List Component) : Option Component := cs.find? fun c => ¬c.Sound

theorem misfit?_eq_none_iff {cs : List Component} : misfit? cs = none ↔ ∀ c ∈ cs, c.Sound := by
  simp [misfit?]

theorem checked_of_not_sound {c : Component} (h : ¬c.Sound) :
    c.checked = .error (.invalidDigestLength c.value.length) :=
  if_pos (Classical.not_imp.1 h)

/-- Components are checked in turn, and the first misfit ends it. -/
theorem mapM_checked (cs : List Component) :
    cs.mapM checked =
      (misfit? cs).elim (.ok cs) fun c => .error (.invalidDigestLength c.value.length) := by
  induction cs with
  | nil => rfl
  | cons c cs ih =>
    rw [List.mapM_cons, ih]
    by_cases h : c.Sound
    · have hrest : misfit? (c :: cs) = misfit? cs := List.find?_cons_of_neg (by simpa using h)
      rw [checked_eq_ok_iff.2 ⟨h, rfl⟩, hrest]
      cases misfit? cs <;> rfl
    · have hfirst : misfit? (c :: cs) = some c := List.find?_cons_of_pos (by simpa using h)
      rw [checked_of_not_sound h, hfirst]
      rfl

end Component

namespace Name

open Component

/-- The encoding of a name is read as the name, up to the first misfit. -/
theorem decodeValue_encodeValue_eq {name : Name} (short : name.Writable) :
    decodeValue name.encodeValue = (misfit? name.components).elim (.ok name) fun c =>
      .error (.invalidDigestLength c.value.length) := by
  rw [decodeValue, encodeValue, decodeComponents_flatMap_encode short, mapM_checked]
  cases misfit? name.components <;> rfl

/-- The encoding of a name is read as that name if all its components of the digest type have the
length of a digest; else the length of the first that has not is reported. Of all byte strings that
are read as a name its encoding is the shortest, and no other is as short. -/
theorem encodeValue_is_canonical :
    (∀ name : Name, name.Fits →
      (name.Sound → decodeValue name.encodeValue = .ok name) ∧
        (¬name.Sound → ∃ c, misfit? name.components = some c ∧
          decodeValue name.encodeValue = .error (.invalidDigestLength c.value.length))) ∧
      ∀ (bytes : Bytes) (name : Name), decodeValue bytes = .ok name →
        name.encodeValue.length ≤ bytes.length ∧
          (name.encodeValue.length = bytes.length → name.encodeValue = bytes) := by
  refine ⟨fun name fits => ⟨decodeValue_encodeValue fits.writable, ?_⟩, ?_⟩
  · intro hunsound
    cases h : misfit? name.components with
    | none => exact absurd (misfit?_eq_none_iff.1 h) hunsound
    | some c => exact ⟨c, rfl, by rw [decodeValue_encodeValue_eq fits.writable, h]; rfl⟩
  · intro bytes name done
    refine ⟨length_encodeValue_le_of_decodeValue done, fun hlength => ?_⟩
    exact (eq_encodeValue_of_decodeValue done (Nat.le_of_eq hlength.symm)).symm

/-- A name whose second and third component are too short for digests; and a name that was read from
bytes in which a type and a length are longer than they need be. -/
theorem encodeValue_is_canonical_of_misfits :
    let misfits : Name := ⟨[.ofText "a", ⟨1, [7]⟩, ⟨1, [7, 7]⟩]⟩
    let name : Name := ⟨[.generic [97]]⟩
    let bytes : Bytes := [0xFD, 0, 8, 0xFD, 0, 1, 97]
    misfits.Fits ∧ ¬misfits.Sound ∧
      decodeValue misfits.encodeValue = .error (.invalidDigestLength 1) ∧
      name.Fits ∧ name.Sound ∧ decodeValue name.encodeValue = .ok name ∧
      decodeValue bytes = .ok name ∧ name.encodeValue.length ≤ bytes.length ∧
      name.encodeValue ≠ bytes := by
  intro misfits name bytes
  obtain ⟨hwritten, hread⟩ := encodeValue_is_canonical
  have hfits : misfits.Fits := by unfold Fits; decide
  have hunsound : ¬misfits.Sound := by unfold Sound; decide
  have hfits' : name.Fits := by unfold Fits; decide
  have hsound : name.Sound := sound_singleton (by decide)
  obtain ⟨c, hc, herror⟩ := (hwritten misfits hfits).2 hunsound
  have hlength : c.value.length = 1 := by
    have hfirst : misfit? misfits.components = some ⟨1, [7]⟩ := by decide
    cases Option.some.inj (hc.symm.trans hfirst)
    rfl
  have hbytes : decodeValue bytes = .ok name := by
    have hspells : Spells Code.genericComponent [97] bytes :=
      ⟨_, ⟨1, _, _, .two (by decide), .two (by decide), rfl, rfl⟩, rfl⟩
    have hsequence : Sequence name.components (bytes ++ []) :=
      .cons (hsound _ List.mem_cons_self) hspells .nil
    exact map_eq_ok.2 ⟨_, decodeComponents_eq_ok_iff.2 hsequence, rfl⟩
  exact ⟨hfits, hunsound, hlength ▸ herror, hfits', hsound, (hwritten name hfits').1 hsound, hbytes,
    (hread bytes name hbytes).1, by decide⟩

end Name

end NamedData
