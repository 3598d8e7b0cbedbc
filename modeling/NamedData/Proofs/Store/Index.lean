import Mathlib.Data.List.Nodup
import Mathlib.Data.List.TakeWhile
import NamedData.Proofs.Name.Extension
import NamedData.Store.Index
/-!
# What an index holds and finds

An index is determined by its capacity and by what it holds, in any order. The entries that extend
a name stand together, from where those below it end, so a lookup that begins there and stops at the
first that does not extend the name misses none.

    (place e es).Perm (e :: es)      if no entry has the name of e          (perm_place)
    a.entries.Perm b.entries → a = b   at one capacity                      (eq_of_perm)
    those not below n while they extend n = all that extend n      (takeWhile_notBelow)
    entries.find? p = some e ↔ e is the least that passes p        (find?_entries_eq_some_iff)
-/

namespace NamedData

theorem Name.ne_of_lt {a b : Name} (h : a < b) : a ≠ b := by
  rintro rfl
  have hself : compare a a = .lt := h
  rw [Std.ReflOrd.compare_self] at hself
  cases hself

namespace Store

namespace Index

/-! ## What an index holds -/

/-- The names of an index are all different. -/
theorem nodup_names (index : Index) : (index.entries.map Entry.name).Nodup :=
  List.pairwise_map.2 (index.sorted.imp fun h => Name.ne_of_lt h)

/-- Entries of one name are the same. -/
theorem eq_of_name_eq {index : Index} {a b : Entry} (ha : a ∈ index.entries)
    (hb : b ∈ index.entries) (h : a.name = b.name) : a = b :=
  List.inj_on_of_nodup_map index.nodup_names ha hb h

theorem entry?_eq_some_iff {index : Index} {name : Name} {e : Entry} :
    index.entry? name = some e ↔ e ∈ index.entries ∧ e.name = name := by
  constructor
  · intro h
    exact ⟨List.mem_of_find?_eq_some h, by simpa using List.find?_some h⟩
  · rintro ⟨he, hname⟩
    cases h : index.entry? name with
    | none => exact absurd hname (by simpa using List.find?_eq_none.1 h e he)
    | some f =>
      have hf : f ∈ index.entries ∧ f.name = name :=
        ⟨List.mem_of_find?_eq_some h, by simpa using List.find?_some h⟩
      rw [eq_of_name_eq hf.1 he (hf.2.trans hname.symm)]

theorem contains_eq_true_iff {index : Index} {name : Name} :
    index.contains name = true ↔ ∃ e ∈ index.entries, e.name = name := by
  rw [contains, Option.isSome_iff_exists]
  exact ⟨fun ⟨e, h⟩ => ⟨e, entry?_eq_some_iff.1 h⟩, fun ⟨e, h⟩ => ⟨e, entry?_eq_some_iff.2 h⟩⟩

theorem contains_eq_false_iff {index : Index} {name : Name} :
    index.contains name = false ↔ ∀ e ∈ index.entries, e.name ≠ name := by
  rw [Bool.eq_false_iff, ne_eq, contains_eq_true_iff]
  constructor
  · intro h e he hname
    exact h ⟨e, he, hname⟩
  · rintro h ⟨e, he, hname⟩
    exact h e he hname

theorem perm_place {new : Entry} {entries : List Entry}
    (fresh : ∀ e ∈ entries, e.name ≠ new.name) : (place new entries).Perm (new :: entries) := by
  induction entries with
  | nil => exact List.Perm.refl _
  | cons e rest ih =>
    unfold place
    split
    · exact List.Perm.refl _
    · next h =>
      exact absurd (Std.LawfulEqOrd.eq_of_compare h).symm (fresh e List.mem_cons_self)
    · exact ((ih fun x hx => fresh x (List.mem_cons_of_mem e hx)).cons e).trans (.swap new e rest)

/-- Two indexes of one capacity that hold the same are the same. -/
theorem eq_of_perm {a b : Index} (hcap : a.capacity = b.capacity)
    (h : a.entries.Perm b.entries) : a = b := by
  have hlist : a.entries = b.entries := by
    refine List.Perm.eq_of_pairwise ?_ a.sorted b.sorted h
    intro x y _ _ hxy hyx
    exact absurd rfl (Name.ne_of_lt (Std.TransCmp.lt_trans hxy hyx))
  obtain ⟨capacity, entries, sorted⟩ := a
  cases hcap
  cases hlist
  rfl

/-- An entry that is new and has room is added. -/
theorem insert_eq_ok {index : Index} {new : Entry} (positive : 0 < new.id)
    (fresh : ∀ e ∈ index.entries, e.name ≠ new.name) (room : index.size < index.capacity) :
    ∃ after, index.insert new = .ok (true, after) ∧ after.capacity = index.capacity ∧
      after.entries.Perm (new :: index.entries) := by
  have hcontains : index.contains new.name = false := contains_eq_false_iff.2 fresh
  have hfull : index.isFull = false := by simpa [isFull] using room
  refine ⟨⟨index.capacity, place new index.entries, pairwise_place new index.sorted⟩, ?_, rfl,
    perm_place fresh⟩
  rw [insert, if_neg (by omega), hcontains, hfull]
  rfl

/-- The same by the questions that a store asks of its index first. -/
theorem insert_of_vacant {index : Index} {new : Entry} (positive : 0 < new.id)
    (absent : index.contains new.name = false) (vacant : index.isFull = false) :
    ∃ after, index.insert new = .ok (true, after) ∧ after.capacity = index.capacity ∧
      after.entries.Perm (new :: index.entries) := by
  have hroom : index.size < index.capacity := by simpa [isFull] using vacant
  exact insert_eq_ok positive (contains_eq_false_iff.1 absent) hroom

theorem insert_of_contains {index : Index} {new : Entry} (positive : 0 < new.id)
    (present : index.contains new.name = true) : index.insert new = .ok (false, index) := by
  rw [insert, if_neg (Int.not_le.2 positive), if_pos present]

/-- Erasing a name that is not there changes nothing. -/
theorem erase_eq_of_not_contains {index : Index} {name : Name}
    (absent : index.contains name = false) : index.erase name = (false, index) := by
  have hkept : (index.entries.filter fun e => e.name ≠ name) = index.entries := by
    apply List.filter_eq_self.2
    intro e he
    exact decide_eq_true (contains_eq_false_iff.1 absent e he)
  rw [erase, absent]
  simp only [hkept]

/-! ## What an index finds -/

/-- The entries that extend a name stand together: they begin where those below it end. -/
theorem takeWhile_notBelow (index : Index) (name : Name) :
    ((index.notBelow name).takeWhile fun e => name.isPrefixOf e.name) =
      index.entries.filter fun e => name.isPrefixOf e.name := by
  obtain ⟨capacity, entries, sorted⟩ := index
  simp only [notBelow]
  induction entries with
  | nil => rfl
  | cons e rest ih =>
    obtain ⟨hbelow, hrest⟩ := List.pairwise_cons.1 sorted
    by_cases hlt : e.name < name
    · -- an entry below the name is none of its extensions
      have hnot : name.isPrefixOf e.name = false := by
        rw [Bool.eq_false_iff]
        intro h
        exact Std.OrientedCmp.not_isLE_of_lt hlt (Name.isLE_of_isPrefixOf h)
      rw [List.dropWhile_cons_of_pos (by simpa using hlt), List.filter_cons_of_neg (by simp [hnot])]
      exact ih hrest
    · have hle : (compare name e.name).isLE := by
        by_contra h
        exact hlt (Std.OrientedCmp.lt_of_not_isLE h)
      rw [List.dropWhile_cons_of_neg (by simpa using hlt), List.takeWhile_cons, List.filter_cons]
      by_cases h : name.isPrefixOf e.name
      · have hkept : rest.dropWhile (fun e => decide (e.name < name)) = rest := by
          refine List.dropWhile_eq_self_iff.2 fun hpos hfirst => ?_
          have hlow : rest[0].name < name := by simpa using hfirst
          exact hlt (Std.TransCmp.lt_trans (hbelow _ (List.getElem_mem hpos)) hlow)
        rw [if_pos h, if_pos h, ← ih hrest, hkept]
      · -- if the first that is not below is no extension, none after it is
        have hnone : rest.filter (fun e => name.isPrefixOf e.name) = [] := by
          refine List.filter_eq_nil_iff.2 fun x hx hprefix => h ?_
          have hex : compare e.name x.name = .lt := hbelow x hx
          exact Name.isPrefixOf_of_between hle (by rw [hex]; rfl) hprefix
        rw [if_neg h, if_neg h, hnone]

/-- Whether an entry is the first, in the order of names, of those that pass a test. -/
structure Least (index : Index) (test : Entry → Prop) (e : Entry) : Prop where
  mem : e ∈ index.entries
  passes : test e
  isLE : ∀ f ∈ index.entries, test f → (compare e.name f.name).isLE

/-- The first entry that passes a test is the least, as the entries stand in order. -/
theorem find?_entries_eq_some_iff {index : Index} {test : Entry → Bool} {e : Entry} :
    index.entries.find? test = some e ↔ index.Least (fun f => test f) e := by
  have hfirst : ∀ {first : Entry}, index.entries.find? test = some first →
      index.Least (fun f => test f) first := by
    intro first hfound
    obtain ⟨hpasses, before, behind, hentries, hbefore⟩ := List.find?_eq_some_iff_append.1 hfound
    refine ⟨List.mem_of_find?_eq_some hfound, hpasses, fun f hf htest => ?_⟩
    have hsorted := index.sorted
    rw [hentries] at hf hsorted
    rcases List.mem_append.1 hf with hf | hf
    · have hfails := hbefore f hf
      rw [htest] at hfails
      cases hfails
    · rcases List.mem_cons.1 hf with rfl | hf
      · exact Std.ReflCmp.isLE_rfl
      · have hlater : compare first.name f.name = .lt :=
          (List.pairwise_cons.1 (List.pairwise_append.1 hsorted).2.1).1 f hf
        rw [hlater]
        rfl
  refine ⟨hfirst, fun least => ?_⟩
  cases hfound : index.entries.find? test with
  | none => exact absurd least.passes (List.find?_eq_none.1 hfound e least.mem)
  | some first =>
    have hother := hfirst hfound
    have hname : first.name = e.name := Std.LawfulEqOrd.eq_of_compare
      (Std.OrientedCmp.isLE_antisymm (hother.isLE e least.mem least.passes)
        (least.isLE first hother.mem hother.passes))
    rw [eq_of_name_eq hother.mem least.mem hname]

/-- The entry that is found is the first that extends the name. -/
theorem find?_eq (index : Index) (name : Name) :
    index.find? name = index.entries.find? fun e => name.isPrefixOf e.name := by
  rw [find?, ← List.head?_takeWhile, takeWhile_notBelow, List.head?_filter]

theorem find?_eq_some_iff {index : Index} {name : Name} {e : Entry} :
    index.find? name = some e ↔ index.Least (fun f => name.isPrefixOf f.name) e := by
  rw [find?_eq, find?_entries_eq_some_iff]

/-- What is found is held, and extends the name. -/
theorem mem_of_find? {index : Index} {name : Name} {e : Entry} (h : index.find? name = some e) :
    e ∈ index.entries ∧ name.isPrefixOf e.name :=
  ⟨(find?_eq_some_iff.1 h).mem, (find?_eq_some_iff.1 h).passes⟩

/-- No entry that extends the name stands in front of what is found. -/
theorem isLE_of_find? {index : Index} {name : Name} {e f : Entry}
    (h : index.find? name = some e) (hf : f ∈ index.entries) (hunder : name.isPrefixOf f.name) :
    (compare e.name f.name).isLE :=
  (find?_eq_some_iff.1 h).isLE f hf hunder

theorem find?_eq_none_iff {index : Index} {name : Name} :
    index.find? name = none ↔ ∀ f ∈ index.entries, ¬name.isPrefixOf f.name := by
  rw [find?_eq, List.find?_eq_none]

/-! ## What an index finds for a request -/

/-- A request for the packets of one publisher finds the first entry under its name that has the
fingerprint of the publisher, among all that stand there. -/
theorem findInterest?_of_publisher (index : Index) {interest : Interest} {publisher : Digest}
    (wanted : interest.publisher = some publisher) :
    index.findInterest? interest = index.entries.find? fun e =>
      interest.name.isPrefixOf e.name ∧ e.fingerprint = some publisher := by
  rw [findInterest?, wanted]
  simp only [takeWhile_notBelow, List.find?_filter, decide_eq_true_eq]

/-- Whatever was put into an index and taken out of it, a lookup by name finds the first of the
entries that extend the name, and so finds nothing just if there is none. A request for the packets
of one publisher finds the first of those under its name whose fingerprint is that of the publisher;
a packet that does not tell its key has no fingerprint and is never found. A request that leaves the
publisher open is a lookup of its name. -/
theorem lookups_find_least (index : Index) :
    (∀ name,
      (∀ e, index.find? name = some e ↔ index.Least (fun f => name.isPrefixOf f.name) e) ∧
      (index.find? name = none ↔ ∀ f ∈ index.entries, ¬name.isPrefixOf f.name)) ∧
    ∀ interest : Interest,
      (∀ publisher, interest.publisher = some publisher →
        (∀ e, index.findInterest? interest = some e ↔ index.Least (fun f =>
          interest.name.isPrefixOf f.name ∧ f.fingerprint = some publisher) e) ∧
        (index.findInterest? interest = none ↔ ∀ f ∈ index.entries,
          ¬(interest.name.isPrefixOf f.name ∧ f.fingerprint = some publisher)) ∧
        ∀ data id, data.signatureInfo.keyLocator = none →
          index.findInterest? interest ≠ some (entryOf data id)) ∧
      (interest.publisher = none → index.findInterest? interest = index.find? interest.name) := by
  refine ⟨fun name => ⟨fun e => find?_eq_some_iff, find?_eq_none_iff⟩, fun interest => ⟨?_, ?_⟩⟩
  · intro publisher wanted
    have hsome : ∀ e, index.findInterest? interest = some e ↔ index.Least (fun f =>
        interest.name.isPrefixOf f.name ∧ f.fingerprint = some publisher) e := by
      intro e
      rw [index.findInterest?_of_publisher wanted, find?_entries_eq_some_iff]
      simp only [decide_eq_true_eq]
    refine ⟨hsome, ?_, ?_⟩
    · rw [index.findInterest?_of_publisher wanted, List.find?_eq_none]
      simp only [decide_eq_true_eq]
    · intro data id keyless hfound
      have hnone : (entryOf data id).fingerprint = none := by
        rw [entryOf, Data.fingerprint?, keyless]
        rfl
      cases hnone.symm.trans ((hsome _).1 hfound).passes.2
  · intro unasked
    rw [findInterest?, unasked]

/-- Of three packets under one name, the first without a key and the others of two publishers, a
request for those of the second publisher finds the third, though it is the last in order. -/
theorem lookups_find_least_of_two_publishers :
    let first : Digest := ⟨List.replicate 32 1, rfl⟩
    let second : Digest := ⟨List.replicate 32 2, rfl⟩
    let keyless : Entry := ⟨Name.empty.pushNumber 1, 1, none⟩
    let others : Entry := ⟨Name.empty.pushNumber 2, 2, some first⟩
    let wanted : Entry := ⟨Name.empty.pushNumber 3, 3, some second⟩
    let index : Index := ⟨3, [keyless, others, wanted], by decide⟩
    let interest : Interest := { Interest.ofName .empty with publisher := some second }
    index.find? .empty = some keyless ∧ index.findInterest? interest = some wanted := by
  intro first second keyless others wanted index interest
  obtain ⟨hnames, hinterests⟩ := lookups_find_least index
  refine ⟨((hnames .empty).1 keyless).2 ⟨List.mem_cons_self, rfl, ?_⟩,
    (((hinterests interest).1 second rfl).1 wanted).2 ⟨by simp [index], ⟨rfl, rfl⟩, ?_⟩⟩
  · decide
  · decide

end Index

end Store

end NamedData
