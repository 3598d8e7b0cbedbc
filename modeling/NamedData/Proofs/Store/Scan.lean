import Mathlib.Data.List.Nodup
import NamedData.Proofs.Name.Extension
import NamedData.Proofs.Packet.Wire
import NamedData.Store.Durable
/-!
# What a scan of the table finds

Lookups of a durable store go to its table, whatever its index holds. A table is legible if every
name in it that can be read is the encoding of what is read; it is canonical if besides all names
can be read. The data may be any bytes. In such a table a lookup answers as if all rows were gone
through in the order of their names and the first taken that gives an answer: rows that give none
are passed over, and none is left out.

    row ∈ table.range p p.successor ↔ row ∈ table.rows ∧ p.isPrefixOf name       (mem_range_iff)
    rowsUnder table q is sorted by name, and holds the rows under q     (pairwise_rowsUnder,
                                                                         mem_rowsUnder_iff)
    Answers table view (.ok (the first answer of `view` over rowsUnder table q))
                                                                         (answers_rowsUnder)
-/

namespace NamedData

/-- In a list that is sorted by a key, the first answer is that of the least element with one. -/
theorem exists_least_of_findSome? {α β κ : Type} [Ord κ] [Std.TransOrd κ] (key : α → κ)
    {f : α → Option β} {l : List α}
    (sorted : l.Pairwise fun a b => compare (key a) (key b) = .lt) {b : β}
    (h : l.findSome? f = some b) :
    ∃ a ∈ l, f a = some b ∧ ∀ c ∈ l, (f c).isSome → (compare (key a) (key c)).isLE := by
  obtain ⟨before, a, after, rfl, hfa, hbefore⟩ := List.findSome?_eq_some_iff.1 h
  refine ⟨a, List.mem_append_right _ List.mem_cons_self, hfa, ?_⟩
  intro c hc hfc
  rcases List.mem_append.1 hc with hc | hc
  · rw [hbefore c hc] at hfc
    cases hfc
  · rcases List.mem_cons.1 hc with rfl | hc
    · exact Std.ReflCmp.isLE_rfl
    · have hlt := (List.pairwise_cons.1 (List.pairwise_append.1 sorted).2.1).1 c hc
      rw [hlt]
      rfl

namespace Store

/-! ## Tables -/

/-- Whether the name of a row is what it ought to be for a name: its encoding, which is read as
that name again, and no longer than a byte string in memory can be. -/
structure Row.Named (row : Row) (name : Name) : Prop where
  decodes : Name.decodeValue row.name = .ok name
  encoded : row.name = name.encodeValue
  fits : name.Fits

theorem Row.Named.eq {row : Row} {a b : Name} (ha : row.Named a) (hb : row.Named b) : a = b :=
  Except.ok.inj (ha.decodes.symm.trans hb.decodes)

namespace Table

/-- Whether all rows have the names they ought to have. Their data may be damaged. -/
def Canonical (table : Table) : Prop := ∀ row ∈ table.rows, ∃ name, row.Named name

/-- Whether the rows whose names can be read have the names they ought to have. -/
def Legible (table : Table) : Prop :=
  ∀ row ∈ table.rows, ∀ name, Name.decodeValue row.name = .ok name → row.Named name

theorem Canonical.legible {table : Table} (h : table.Canonical) : table.Legible := by
  intro row hrow name hname
  obtain ⟨found, named⟩ := h row hrow
  rwa [Except.ok.inj (hname.symm.trans named.decodes)]

/-- Rows of one name are the same. -/
theorem eq_of_name_eq {table : Table} {a b : Row} (ha : a ∈ table.rows) (hb : b ∈ table.rows)
    (h : a.name = b.name) : a = b :=
  List.inj_on_of_nodup_map (List.pairwise_map.2 table.names_distinct) ha hb h

/-- What is found by name is a row of that name. -/
theorem mem_of_rowOfName? {table : Table} {name : Bytes} {row : Row}
    (h : table.rowOfName? name = some row) : row ∈ table.rows ∧ row.name = name := by
  unfold rowOfName? at h
  exact ⟨List.mem_of_find?_eq_some h, by simpa using List.find?_some h⟩

theorem mem_byName {rows : List Row} {row : Row} : row ∈ byName rows ↔ row ∈ rows :=
  (List.mergeSort_perm rows _).mem_iff

theorem pairwise_byName (rows : List Row) :
    (byName rows).Pairwise fun a b => (compare a.name b.name).isLE := by
  refine List.pairwise_mergeSort (fun a b c => Std.TransCmp.isLE_trans) (fun a b => ?_) rows
  rw [Bool.or_eq_true]
  by_cases h : (compare a.name b.name).isLE
  · exact Or.inl h
  · exact Or.inr (by rw [Std.OrientedCmp.lt_of_not_isLE h]; rfl)

/-- Rows of a table, picked and sorted by name, have strictly increasing names. -/
theorem lt_byName (table : Table) (p : Row → Bool) :
    (byName (table.rows.filter p)).Pairwise fun a b => compare a.name b.name = .lt := by
  have hdistinct : (byName (table.rows.filter p)).Pairwise fun a b => a.name ≠ b.name :=
    ((List.mergeSort_perm (table.rows.filter p) _).pairwise_iff fun hab => hab.symm).2
      (table.names_distinct.sublist List.filter_sublist)
  refine (pairwise_byName _).imp₂ (fun a b hle hne => ?_) hdistinct
  cases h : compare a.name b.name with
  | lt => rfl
  | eq => exact absurd (Std.LawfulEqOrd.eq_of_compare h) hne
  | gt => rw [h] at hle; cases hle

/-- The rows between the bounds of a name are those whose names extend it. -/
theorem mem_range_iff {table : Table} {p : Name} (nonempty : p.isEmpty = false)
    (short : ∀ c ∈ p.components, c.value.length + 1 < 2 ^ 64) {row : Row} {name : Name}
    (named : row.Named name) :
    row ∈ table.range p.encodeValue p.successor.encodeValue ↔
      row ∈ table.rows ∧ p.isPrefixOf name := by
  rw [range, mem_byName, List.mem_filter, Bool.and_eq_true, named.encoded,
    Name.encodeValue_between_iff nonempty short named.fits.writable]

/-- A scan from the encoding of a name up to that of its successor is exact. Of the names in memory
just those that extend the name have their encodings within the bounds; so of rows whose names are
encodings the range misses none that it ought to hold, and there is none in it to be sorted out. -/
theorem scan_bounds_are_exact {p : Name} (nonempty : p.isEmpty = false) (hp : p.InMemory) :
    (∀ x : Name, x.InMemory →
      (((compare p.encodeValue x.encodeValue).isLE ∧
        (compare x.encodeValue p.successor.encodeValue).isLT) ↔ p.isPrefixOf x)) ∧
    ∀ (table : Table) (row : Row) (name : Name), row.Named name →
      (row ∈ table.range p.encodeValue p.successor.encodeValue ↔
        row ∈ table.rows ∧ p.isPrefixOf name) := by
  have short : ∀ c ∈ p.components, c.value.length + 1 < 2 ^ 64 := by
    intro c hc
    have hlength := hp c hc
    omega
  constructor
  · intro x hx
    exact Name.encodeValue_between_iff nonempty short hx.writable
  · intro table row name named
    exact mem_range_iff nonempty short named

/-- The bounds hold just the extensions where counting up runs over into one more byte. -/
theorem scan_bounds_are_exact_at_overrun :
    let p : Name := ⟨[.generic [0xFF, 0xFF]]⟩
    let x : Name := p.pushNumber 7
    let y : Name := ⟨[.generic [0, 0, 0]]⟩
    p.successor = y ∧ p.isPrefixOf x ∧ (compare x.encodeValue p.successor.encodeValue).isLT ∧
      ¬p.isPrefixOf y ∧ ¬(compare y.encodeValue p.successor.encodeValue).isLT := by
  intro p x y
  have hp : p.InMemory := by unfold Name.InMemory; decide
  have hx : x.InMemory := by unfold Name.InMemory; decide
  have hprefix : p.isPrefixOf x := by decide
  have hsuccessor : p.successor = y := by decide
  refine ⟨hsuccessor, hprefix, (((scan_bounds_are_exact rfl hp).1 x hx).2 hprefix).2,
    by decide, ?_⟩
  rw [hsuccessor, Std.ReflOrd.compare_self]
  decide

end Table

namespace DurableStore

/-! ## The rows under a name -/

/-- A row with its name, if the name can be read and extends `q`. -/
def readUnder (q : Name) (row : Row) : Option (Row × Name) :=
  match Name.decodeValue row.name with
  | .ok found => if q.isPrefixOf found then some (row, found) else none
  | .error _ => none

theorem readUnder_eq_some_iff {q : Name} {row : Row} {found : Row × Name} :
    readUnder q row = some found ↔
      found.1 = row ∧ Name.decodeValue row.name = .ok found.2 ∧ q.isPrefixOf found.2 := by
  obtain ⟨other, name⟩ := found
  unfold readUnder
  constructor
  · intro h
    split at h
    · next decoded hdecoded =>
      split at h
      · next hprefix =>
        cases h
        exact ⟨rfl, hdecoded, hprefix⟩
      · cases h
    · cases h
  · rintro ⟨rfl, hdecoded, hprefix⟩
    simp only [hdecoded, if_pos hprefix]

/-- The rows under a name are read from a part of the table, sorted by name, that has all rows
whose names extend the name. -/
theorem rowsUnder_eq (table : Table) (q : Name) :
    ∃ p : Row → Bool,
      rowsUnder table q = (Table.byName (table.rows.filter p)).filterMap (readUnder q) ∧
      ∀ row name, row.Named name → q.isPrefixOf name → p row := by
  unfold rowsUnder
  cases hempty : q.isEmpty with
  | true =>
    refine ⟨fun _ => true, ?_, fun _ _ _ _ => rfl⟩
    rw [List.filter_true]
    rfl
  | false =>
    refine ⟨_, rfl, ?_⟩
    intro row name named hprefix
    rw [named.encoded, Bool.and_eq_true]
    exact Name.encodeValue_between hempty named.fits hprefix

section

variable {table : Table} (legible : table.Legible) (q : Name)
include legible

theorem mem_rowsUnder_iff {found : Row × Name} :
    found ∈ rowsUnder table q ↔
      found.1 ∈ table.rows ∧ found.1.Named found.2 ∧ q.isPrefixOf found.2 := by
  obtain ⟨p, hrows, hp⟩ := rowsUnder_eq table q
  rw [hrows, List.mem_filterMap]
  constructor
  · rintro ⟨row, hrow, hread⟩
    obtain ⟨rfl, hdecoded, hprefix⟩ := readUnder_eq_some_iff.1 hread
    have hin := (List.mem_filter.1 (Table.mem_byName.1 hrow)).1
    exact ⟨hin, legible _ hin _ hdecoded, hprefix⟩
  · rintro ⟨hrow, named, hprefix⟩
    refine ⟨found.1, Table.mem_byName.2 (List.mem_filter.2 ⟨hrow, hp _ _ named hprefix⟩), ?_⟩
    exact readUnder_eq_some_iff.2 ⟨rfl, named.decodes, hprefix⟩

/-- The rows under a name stand in the order of their names, not only of their encodings. -/
theorem pairwise_rowsUnder :
    (rowsUnder table q).Pairwise fun a b => compare a.2 b.2 = .lt := by
  obtain ⟨p, hrows, _⟩ := rowsUnder_eq table q
  rw [hrows, List.pairwise_filterMap]
  apply (table.lt_byName p).imp_of_mem
  intro a b ha hb hlt found hfound other hother
  obtain ⟨rfl, ha', _⟩ := readUnder_eq_some_iff.1 hfound
  obtain ⟨rfl, hb', _⟩ := readUnder_eq_some_iff.1 hother
  have hc := legible _ (List.mem_filter.1 (Table.mem_byName.1 ha)).1 _ ha'
  have hd := legible _ (List.mem_filter.1 (Table.mem_byName.1 hb)).1 _ hb'
  rwa [hc.encoded, hd.encoded, Name.compare_encodeValue hc.fits.writable hd.fits.writable] at hlt

end

/-! ## Answers -/

/-- Whether a lookup succeeds and answers for the least row, by name, for which a view of the rows
has an answer, and with none if there is no such row. -/
structure Answers {β : Type} (table : Table) (view : Row → Name → Option β)
    (result : Except Error (Option β)) : Prop where
  succeeds : ∀ cause, result ≠ .error cause
  least : ∀ b, result = .ok (some b) ↔
    ∃ row ∈ table.rows, ∃ name, row.Named name ∧ view row name = some b ∧
      ∀ other ∈ table.rows, ∀ later, other.Named later → (view other later).isSome →
        (compare name later).isLE
  nothing : result = .ok none ↔ ∀ row ∈ table.rows, ∀ name, row.Named name → view row name = none

section

variable {β : Type} {table : Table} {view : Row → Name → Option β}

theorem answers_none (h : ∀ row ∈ table.rows, ∀ name, row.Named name → view row name = none) :
    Answers table view (.ok none) := by
  refine ⟨nofun, fun b => ⟨nofun, ?_⟩, iff_of_true rfl h⟩
  rintro ⟨row, hrow, name, named, hview, _⟩
  rw [h row hrow name named] at hview
  cases hview

/-- There is one least row, so what is found for one is what is found. -/
theorem answers_some {row : Row} (hrow : row ∈ table.rows) {name : Name} (named : row.Named name)
    {b : β} (hview : view row name = some b)
    (hleast : ∀ other ∈ table.rows, ∀ later, other.Named later → (view other later).isSome →
      (compare name later).isLE) :
    Answers table view (.ok (some b)) := by
  refine ⟨nofun, fun c => ⟨?_, ?_⟩, iff_of_false nofun ?_⟩
  · intro hc
    cases hc
    exact ⟨row, hrow, name, named, hview, hleast⟩
  · rintro ⟨other, hother, later, hlater, hanswer, hfirst⟩
    have hle := hleast other hother later hlater (Option.isSome_of_eq_some hanswer)
    have hge := hfirst row hrow name named (Option.isSome_of_eq_some hview)
    obtain rfl := Std.LawfulEqOrd.eq_of_compare (Std.OrientedCmp.isLE_antisymm hle hge)
    obtain rfl := Table.eq_of_name_eq hother hrow (hlater.encoded.trans named.encoded.symm)
    rw [hview] at hanswer
    exact congrArg Except.ok hanswer
  · intro hnone
    rw [hnone row hrow name named] at hview
    cases hview

end

/-- A view of the rows that extend `q` alone. -/
def under {β : Type} (q : Name) (view : Row → Name → Option β) (row : Row) (name : Name) :
    Option β :=
  if q.isPrefixOf name then view row name else none

/-- Of the rows under a name the first that has an answer decides. -/
theorem answers_rowsUnder {store : DurableStore} (legible : store.table.Legible) (q : Name)
    {β : Type} (view : Row → Name → Option β) :
    Answers store.table (under q view)
      (.ok ((rowsUnder store.table q).findSome? fun found => view found.1 found.2)) := by
  have hmem := @mem_rowsUnder_iff _ legible q
  cases h : (rowsUnder store.table q).findSome? fun found => view found.1 found.2 with
  | none =>
    apply answers_none
    intro row hrow name named
    by_cases hprefix : q.isPrefixOf name
    · rw [under, if_pos hprefix]
      exact List.findSome?_eq_none_iff.1 h (row, name) (hmem.2 ⟨hrow, named, hprefix⟩)
    · rw [under, if_neg hprefix]
  | some b =>
    obtain ⟨⟨row, name⟩, hfound, hview, hleast⟩ :=
      exists_least_of_findSome? Prod.snd (pairwise_rowsUnder legible q) h
    obtain ⟨hrow, named, hprefix⟩ := hmem.1 hfound
    apply answers_some hrow named
    · rw [under, if_pos hprefix]
      exact hview
    · intro other hother later hlater hsome
      by_cases hunder : q.isPrefixOf later
      · rw [under, if_pos hunder] at hsome
        exact hleast (other, later) (hmem.2 ⟨hother, hlater, hunder⟩) hsome
      · rw [under, if_neg hunder] at hsome
        cases hsome

section

variable {store : DurableStore} (canonical : store.table.Canonical) (q : Name)
include canonical

theorem answers_find_extending :
    Answers store.table (under q fun row name => some (Found.mk row.id name))
      (.ok (store.find q .extending)) := by
  have hfirst : store.find q .extending =
      (rowsUnder store.table q).findSome? fun found => some (Found.mk found.1.id found.2) := by
    rw [find]
    cases rowsUnder store.table q <;> rfl
  rw [hfirst]
  exact answers_rowsUnder canonical.legible q fun row name => some (Found.mk row.id name)

theorem answers_read :
    Answers store.table (under q fun row _ => (Data.decode row.data).toOption)
      (.ok (store.read q)) :=
  answers_rowsUnder canonical.legible q fun row _ => (Data.decode row.data).toOption

theorem answers_find_exactly :
    Answers store.table (fun row name => if name = q then some (Found.mk row.id name) else none)
      (.ok (store.find q .exactly)) := by
  -- a row whose name is the encoding of `q` has no other name than `q`, however long `q` is
  have hname : ∀ (row : Row) (name : Name), row.Named name →
      (row.name = q.encodeValue ↔ name = q) := by
    intro row name named
    rw [named.encoded, Name.encodeValue_inj named.fits]
  rw [find]
  cases hrow : store.table.rowOfName? q.encodeValue with
  | none =>
    apply answers_none
    intro row hmem name named
    rw [if_neg]
    intro hq
    exact absurd ((hname row name named).2 hq) (by simpa using List.find?_eq_none.1 hrow row hmem)
  | some row =>
    obtain ⟨hmem, hencoded⟩ := Table.mem_of_rowOfName? hrow
    obtain ⟨name, named⟩ := canonical row hmem
    obtain rfl := (hname row name named).1 hencoded
    apply answers_some hmem named
    · rw [if_pos rfl]
    · intro other _ later _ hsome
      by_cases hlater : later = name
      · rw [hlater]
        exact Std.ReflCmp.isLE_rfl
      · rw [if_neg hlater] at hsome
        cases hsome

end

/-- In a table whose names are sound and whose data may be any bytes, every lookup succeeds. By
prefix it finds the least name that extends `q`; reading gives the packet of the least such row
whose bytes are one; exactly it finds the row of `q`. Each gives none just if there is no such
row. -/
theorem damaged_rows_hide_nothing {store : DurableStore} (canonical : store.table.Canonical)
    (q : Name) :
    Answers store.table (under q fun row name => some (Found.mk row.id name))
        (Backend.find store q .extending) ∧
      Answers store.table (under q fun row _ => (Data.decode row.data).toOption)
        (Backend.read store q) ∧
      Answers store.table (fun row name => if name = q then some (Found.mk row.id name) else none)
        (Backend.find store q .exactly) :=
  ⟨answers_find_extending canonical q, answers_read canonical q, answers_find_exactly canonical q⟩

/-- A row whose data is cut off stands in front of one that can be read. -/
theorem damaged_rows_hide_nothing_of_two :
    let v : Name := ⟨[.ofText "v"]⟩
    let damaged : Row := ⟨1, (v.pushNumber 1).encodeValue, [6, 10, 1]⟩
    let good : Row := ⟨2, (v.pushNumber 2).encodeValue, Data.blank.wire⟩
    let table : Table :=
      ⟨[damaged, good], 2, by decide, by decide, by decide, by simp [damaged, good]; decide⟩
    let store : DurableStore := ⟨table, .empty 2⟩
    Backend.find store v .extending = .ok (some ⟨1, v.pushNumber 1⟩) ∧
      (∃ data, Data.decode Data.blank.wire = .ok data ∧
        Backend.read store v = .ok (some data)) ∧
      Backend.find store v .exactly = .ok none := by
  intro v damaged good table store
  have hsound : ∀ n, (v.pushNumber n).Sound := by
    intro n c hc
    rcases List.mem_append.1 hc with hc | hc <;>
    · rw [List.mem_singleton.1 hc]
      nofun
  have hdamaged : damaged.Named (v.pushNumber 1) := by
    have hfits : (v.pushNumber 1).Fits := by unfold Name.Fits; decide
    exact ⟨Name.decodeValue_encodeValue hfits.writable (hsound 1), rfl, hfits⟩
  have hgood : good.Named (v.pushNumber 2) := by
    have hfits : (v.pushNumber 2).Fits := by unfold Name.Fits; decide
    exact ⟨Name.decodeValue_encodeValue hfits.writable (hsound 2), rfl, hfits⟩
  have hrows : ∀ row ∈ store.table.rows, row = damaged ∨ row = good := by
    intro row hrow
    simpa [store, table] using hrow
  have canonical : store.table.Canonical := by
    intro row hrow
    rcases hrows row hrow with rfl | rfl
    · exact ⟨_, hdamaged⟩
    · exact ⟨_, hgood⟩
  obtain ⟨hfind, hread, hexact⟩ := damaged_rows_hide_nothing canonical v
  refine ⟨(hfind.least _).2 ?_, ?_, hexact.nothing.2 ?_⟩
  · refine ⟨damaged, List.mem_cons_self, _, hdamaged, by decide, ?_⟩
    intro other hother later hlater _
    rcases hrows other hother with rfl | rfl
    · rw [hlater.eq hdamaged]
      decide
    · rw [hlater.eq hgood]
      decide
  · obtain ⟨data, hdata⟩ := Data.readable_blank.decodes
    refine ⟨data, hdata, (hread.least data).2 ?_⟩
    refine ⟨good, List.mem_cons_of_mem _ List.mem_cons_self, _, hgood, ?_, ?_⟩
    · rw [under, if_pos (by decide), show good.data = Data.blank.wire from rfl, hdata]
      rfl
    · intro other hother later hlater hsome
      rcases hrows other hother with rfl | rfl
      · -- the bytes end before the packet does
        rw [hlater.eq hdamaged] at hsome
        cases hsome
      · rw [hlater.eq hgood]
        decide
  · intro row hrow name named
    rcases hrows row hrow with rfl | rfl
    · rw [named.eq hdamaged]
      decide
    · rw [named.eq hgood]
      decide

end DurableStore

end Store

end NamedData
