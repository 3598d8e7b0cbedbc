import NamedData.Proofs.Store.Durable
/-!
# Looking up through the index

A durable store looks names up in its table and not in its index. In step with each other, the
two answer alike: the least row that extends a name is the one of the least entry that does.

    Answers store.table (under q view) (what the entry found for q says)     (answers_index)
    store.find n mode = what the index finds                                 (find_eq)
    store.read n = the packet of the entry that the index finds              (read_eq)
-/

namespace NamedData.Store

theorem Row.Holds.named {row : Row} {entry : Entry} (h : row.Holds entry) :
    row.Named entry.name :=
  ⟨h.name, h.encoded, h.fits⟩

namespace DurableStore

/-- There is one result that answers. -/
theorem Answers.unique {β : Type} {table : Table} {view : Row → Name → Option β}
    {a b : Except Error (Option β)} (ha : Answers table view a) (hb : Answers table view b) :
    a = b := by
  match a with
  | .error cause => exact absurd rfl (ha.succeeds cause)
  | .ok none => exact (hb.nothing.2 (ha.nothing.1 rfl)).symm
  | .ok (some x) => exact ((hb.least x).2 ((ha.least x).1 rfl)).symm

namespace Faithful

variable {store : DurableStore}

theorem canonical (h : store.Faithful) : store.table.Canonical := by
  intro row hrow
  obtain ⟨entry, hheld⟩ := h.held row hrow
  exact ⟨entry.name, hheld.named⟩

/-- Where each row and its entry give the same answer, the entry that the index finds gives that
of the least row. -/
theorem answers_index (h : store.Faithful) (q : Name) {β : Type} {view : Row → Name → Option β}
    {answer : Entry → Option β}
    (agree : ∀ row ∈ store.table.rows, ∀ entry, row.Holds entry →
      ∃ b, view row entry.name = some b ∧ answer entry = some b) :
    Answers store.table (under q view) (.ok ((store.index.find? q).bind answer)) := by
  have hentry : ∀ row ∈ store.table.rows, ∀ name, row.Named name →
      ∃ entry ∈ store.index.entries, entry.name = name := by
    intro row hrow name named
    obtain ⟨entry, hheld⟩ := h.held row hrow
    exact ⟨entry, h.mem_entries_iff.2 ⟨row, hrow, hheld⟩, hheld.named.eq named⟩
  cases hfound : store.index.find? q with
  | none =>
    apply answers_none
    intro row hrow name named
    obtain ⟨entry, hmem, rfl⟩ := hentry row hrow name named
    rw [under, if_neg (Index.find?_eq_none_iff.1 hfound entry hmem)]
  | some entry =>
    obtain ⟨hmem, hprefix⟩ := Index.mem_of_find? hfound
    obtain ⟨row, hrow, hheld⟩ := h.mem_entries_iff.1 hmem
    obtain ⟨b, hview, hanswer⟩ := agree row hrow entry hheld
    rw [Option.bind_some, hanswer]
    apply answers_some hrow hheld.named
    · rw [under, if_pos hprefix]
      exact hview
    · intro other hother later hlater hsome
      obtain ⟨following, hfollowing, rfl⟩ := hentry other hother later hlater
      by_cases hunder : q.isPrefixOf following.name
      · exact Index.isLE_of_find? hfound hfollowing hunder
      · rw [under, if_neg hunder] at hsome
        cases hsome

/-! ## Answers -/

/-- The table has a row of exactly a name where the index has an entry. -/
theorem rowOfName?_eq (h : store.Faithful) (name : Name) :
    (store.table.rowOfName? name.encodeValue).map Row.id = store.index.get? name := by
  cases hrow : store.table.rowOfName? name.encodeValue with
  | none =>
    cases hentry : store.index.entry? name with
    | none => rw [Index.get?, hentry]; rfl
    | some entry =>
      obtain ⟨hmem, rfl⟩ := Index.entry?_eq_some_iff.1 hentry
      obtain ⟨row, hin, hheld⟩ := h.mem_entries_iff.1 hmem
      exact absurd hheld.encoded (by simpa using List.find?_eq_none.1 hrow row hin)
  | some row =>
    obtain ⟨hin, hname⟩ := Table.mem_of_rowOfName? hrow
    obtain ⟨entry, hheld⟩ := h.held row hin
    have hsame : entry.name = name :=
      (Name.encodeValue_inj hheld.fits).1 (hheld.encoded.symm.trans hname)
    have hentry : store.index.entry? name = some entry :=
      Index.entry?_eq_some_iff.2 ⟨h.mem_entries_iff.2 ⟨row, hin, hheld⟩, hsame⟩
    rw [Index.get?, hentry]
    exact congrArg some hheld.id.symm

/-- Looking a name up in the table answers what the index answers. -/
theorem find_eq (h : store.Faithful) (name : Name) (mode : Match) :
    store.find name mode =
      match mode with
      | .exactly => (store.index.get? name).map fun id => ⟨id, name⟩
      | .extending => (store.index.find? name).map fun entry => ⟨entry.id, entry.name⟩ := by
  cases mode with
  | exactly =>
    simp only [find]
    rw [← h.rowOfName?_eq name, Option.map_map]
    rfl
  | extending =>
    let answer : Entry → Option Found := fun entry => some ⟨entry.id, entry.name⟩
    have hindex : Answers store.table (under name fun row found => some (Found.mk row.id found))
        (.ok ((store.index.find? name).bind answer)) := by
      apply h.answers_index
      intro row _ entry hheld
      exact ⟨⟨row.id, entry.name⟩, rfl, by rw [← hheld.id]⟩
    have hsame := (answers_find_extending h.canonical name).unique hindex
    rw [Except.ok.inj hsame]
    exact Option.map_eq_bind.symm

/-- Reading under a name reads the row of the first entry that extends it. -/
theorem read_eq (h : store.Faithful) (name : Name) :
    store.read name = (store.index.find? name).bind fun entry => store.readById entry.id := by
  apply Except.ok.inj
  apply (answers_read h.canonical name).unique
  apply h.answers_index
  intro row hrow entry hheld
  obtain ⟨data, hdata, _⟩ := hheld.data
  have hread : (Data.decode row.data).toOption = some data := by rw [hdata]; rfl
  refine ⟨data, hread, ?_⟩
  rw [readById, hheld.id, Table.rowOfId?_eq_some hrow]
  exact hread

end Faithful

end DurableStore

end NamedData.Store
