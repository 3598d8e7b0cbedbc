import NamedData.Proofs.Packet.Signature
import NamedData.Proofs.Store.Refusal
import NamedData.Repo.Basic
/-!
# Insertions beside damaged rows

The index of a table that was just opened has the names of the rows that can be read, and no others;
but a row that cannot be read keeps its name from being written again. So a packet whose name is
taken by such a row is called stored, though it is not there: the name is blocked. Any other packet
that is not refused is there.

    load table c = .ok store → (store has n ↔ table.Serves n)                           (of_load)
    the row of exactly `n` is the first that a read of `n` looks at                 (read_of_row)
    a packet was taken → (it is there ↔ its name is not blocked)         (present_unless_blocked)
-/

namespace NamedData

open Store

/-- A full name has at least its digest. -/
theorem Data.isEmpty_fullName (data : Data) : data.fullName.isEmpty = false := by
  simp [fullName, Name.push, Name.isEmpty]

namespace Store

/-! ## What a table serves -/

namespace Table

/-- Whether a packet can be read under a name: from a row with that name and readable data. -/
def Serves (table : Table) (name : Name) : Prop :=
  ∃ row ∈ table.rows, Name.decodeValue row.name = .ok name ∧
    ∃ packet, Data.decode row.data = .ok packet

/-- Whether a name is taken, and nothing can be read under it. -/
def Blocks (table : Table) (name : Name) : Prop :=
  (∃ row ∈ table.rows, row.name = name.encodeValue) ∧ ¬table.Serves name

/-- Whether data that can be read are the packet whose full name the row has. -/
def Truthful (table : Table) : Prop :=
  ∀ row ∈ table.rows, ∀ packet, Data.decode row.data = .ok packet → row.Named packet.fullName

/-- A row that is not below the lower bound of a range but equal to it comes first. -/
theorem range_eq_cons {table : Table} {low high : Bytes} {row : Row} (hrow : row ∈ table.rows)
    (hlow : row.name = low) (hhigh : (compare low high).isLT) :
    ∃ rest, table.range low high = row :: rest := by
  have hmem : row ∈ table.range low high := by
    rw [range, mem_byName, List.mem_filter, hlow, Std.ReflOrd.compare_self, hhigh]
    exact ⟨hrow, rfl⟩
  have hbound : ∀ other ∈ table.range low high, (compare low other.name).isLE := by
    intro other hother
    rw [range, mem_byName, List.mem_filter, Bool.and_eq_true] at hother
    exact hother.2.1
  have hsorted : (table.range low high).Pairwise fun a b => compare a.name b.name = .lt :=
    table.lt_byName _
  cases hrange : table.range low high with
  | nil =>
    rw [hrange] at hmem
    cases hmem
  | cons first rest =>
    rw [hrange] at hmem hbound hsorted
    rcases List.mem_cons.1 hmem with rfl | hlater
    · exact ⟨rest, rfl⟩
    · -- what stands in front is below the row, but nothing is below the bound
      have hlt : compare first.name row.name = .lt := (List.pairwise_cons.1 hsorted).1 row hlater
      have hle := hbound first List.mem_cons_self
      rw [← hlow] at hle
      exact absurd hle (Std.OrientedCmp.not_isLE_of_lt hlt)

end Table

namespace DurableStore

theorem entryOfRow?_isSome_iff {row : Row} {name : Name} :
    (∃ entry, entryOfRow? row = some entry ∧ entry.name = name) ↔
      Name.decodeValue row.name = .ok name ∧ ∃ packet, Data.decode row.data = .ok packet := by
  unfold entryOfRow?
  constructor
  · rintro ⟨entry, hentry, rfl⟩
    split at hentry
    · next found packet hname hdata =>
      cases hentry
      exact ⟨hname, packet, hdata⟩
    · cases hentry
  · rintro ⟨hname, packet, hdata⟩
    exact ⟨⟨name, row.id, packet.fingerprint?⟩, by rw [hname, hdata], rfl⟩

/-- The index of a table that was opened holds the names that the table serves. -/
theorem of_load {table : Table} {capacity : Nat} {store : DurableStore}
    (opened : load table capacity = .ok store) :
    store.table = table ∧ ∀ name, store.index.contains name = true ↔ table.Serves name := by
  unfold load at opened
  split at opened
  · next index hindex =>
    cases opened
    obtain ⟨_, _, hnames⟩ := names_of_indexRows hindex (Nat.zero_le _)
    refine ⟨rfl, fun name => ?_⟩
    rw [Index.contains_eq_decide, decide_eq_true_iff, hnames]
    refine (or_iff_right nofun).trans (exists_congr fun row => and_congr_right fun _ => ?_)
    exact entryOfRow?_isSome_iff
  · cases opened

/-- Reading a name gives the packet in the row of exactly that name. -/
theorem read_of_row {store : DurableStore} {row : Row} (hrow : row ∈ store.table.rows)
    {name : Name} (nonempty : name.isEmpty = false) (named : row.Named name) {packet : Data}
    (hdata : Data.decode row.data = .ok packet) : store.read name = some packet := by
  have hprefix : name.isPrefixOf name = true := Name.isPrefixOf_iff.2 ⟨[], by simp⟩
  obtain ⟨_, hhigh⟩ := Name.encodeValue_between nonempty named.fits hprefix
  obtain ⟨rest, hrange⟩ := Table.range_eq_cons hrow named.encoded hhigh
  unfold read rowsUnder
  simp [nonempty, hrange, named.decodes, hprefix, hdata, Except.toOption]

end DurableStore

end Store

/-! ## The repository over such a table -/

namespace Repo

variable {table : Table} {capacity : Nat} {store : DurableStore} {data : Data}

/-- A packet that a truthful table serves is read back from its row. -/
theorem read_of_serves (truthful : table.Truthful) (serves : table.Serves data.fullName)
    (index : Index) : ∃ found, DurableStore.read ⟨table, index⟩ data.fullName = some found ∧
      found.fullName = data.fullName := by
  obtain ⟨row, hrow, hname, found, hfound⟩ := serves
  have hnamed := truthful row hrow found hfound
  have hfull : found.fullName = data.fullName := Except.ok.inj (hnamed.decodes.symm.trans hname)
  rw [hfull] at hnamed
  exact ⟨found, DurableStore.read_of_row hrow data.isEmpty_fullName hnamed hfound, hfull⟩

/-- A packet that was just given a row is read back from it. -/
theorem read_of_new_row (readable : data.Readable) {id : Int}
    (hrow : ⟨id, data.fullName.encodeValue, data.wire⟩ ∈ store.table.rows) :
    ∃ found, store.read data.fullName = some found ∧ found.wire = data.wire ∧
      found.fullName = data.fullName := by
  obtain ⟨found, hfound, hwire, hname, _, hsound, hlength⟩ := readable.decode_wire
  have hfits := Data.fits_fullName hlength
  have hdecodes := Name.decodeValue_encodeValue hfits.writable (Data.sound_fullName hsound)
  refine ⟨found, ?_, hwire, by rw [Data.fullName, Data.digest, hname, hwire]; rfl⟩
  exact DurableStore.read_of_row hrow data.isEmpty_fullName ⟨hdecodes, rfl, hfits⟩ hfound

/-- Packets of one full name have the same bytes, or their digests collide. -/
theorem wire_eq_or_collide {a b : Data} (h : a.fullName = b.fullName) :
    a.wire = b.wire ∨ Collide Sha256.hash a.wire b.wire := by
  have hlast := congrArg Name.last? h
  rw [Data.fullName, Data.fullName, Name.last?_push, Name.last?_push] at hlast
  exact eq_or_collide (congrArg Component.value (Option.some.inj hlast))

/-- How a packet can be taken: its name is in the index, or is not in it but in the table, or it
gets a row and an entry. -/
theorem insert_eq_ok_cases {sent : List Event} {outcome : InsertOutcome}
    {after : Repo DurableStore}
    (done : (⟨store, sent⟩ : Repo DurableStore).insert data = (.ok outcome, after)) :
    (store.index.contains data.fullName = true ∧ outcome = .alreadyPresent ∧
        after = ⟨store, sent⟩) ∨
      store.index.contains data.fullName = false ∧
        (((∃ row ∈ store.table.rows, row.name = data.fullName.encodeValue) ∧
            outcome = .alreadyPresent ∧ after = ⟨store, sent⟩) ∨
          ∃ id, outcome = .inserted id ∧ store.insert data = (.ok id, after.backend)) := by
  cases hcontains : store.index.contains data.fullName with
  | true =>
    left
    simp only [Repo.insert, Backend.has, hcontains] at done
    cases done
    exact ⟨rfl, rfl, rfl⟩
  | false =>
    right
    refine ⟨rfl, ?_⟩
    simp only [Repo.insert, Backend.has, Backend.insert, hcontains] at done
    split at done
    · next id backend hinsert =>
      cases done
      exact Or.inr ⟨id, rfl, hinsert⟩
    · next name backend hinsert =>
      obtain ⟨htaken, rfl⟩ := DurableStore.of_insert_eq_duplicate hinsert
      cases done
      exact Or.inl ⟨htaken, rfl, rfl⟩
    · cases done

/-- A packet given to a repository whose table was just opened, with whatever rows. If it is not
refused, it is there afterwards unless its name is blocked: taken by a row that cannot be read.
Being present already it changes nothing; being inserted it is read back; and being there at all it
is read back if all rows that can be read are what they say they are. -/
theorem present_unless_blocked {sent : List Event} {outcome : InsertOutcome}
    {after : Repo DurableStore} (opened : DurableStore.load table capacity = .ok store)
    (readable : data.Readable)
    (done : (⟨store, sent⟩ : Repo DurableStore).insert data = (.ok outcome, after)) :
    (after.has data.fullName = .ok true ↔ ¬table.Blocks data.fullName) ∧
      (outcome = .alreadyPresent → after = ⟨store, sent⟩) ∧
      (∀ id, outcome = .inserted id →
        ∃ found, after.read data.fullName = .ok (some found) ∧ found.wire = data.wire) ∧
      (table.Truthful → ¬table.Blocks data.fullName →
        ∃ found, after.read data.fullName = .ok (some found) ∧
          found.fullName = data.fullName ∧
          (found.wire = data.wire ∨ Collide Sha256.hash found.wire data.wire)) := by
  obtain ⟨rfl, hserves⟩ := DurableStore.of_load opened
  have hhas : ∀ repo : Repo DurableStore, repo.has data.fullName = .ok true ↔
      repo.backend.index.contains data.fullName = true := fun repo => by
    simp [Repo.has, Backend.has, Except.mapError]
  have hread : ∀ (repo : Repo DurableStore) found, repo.backend.read data.fullName = some found →
      repo.read data.fullName = .ok (some found) := by
    rintro repo found hfound
    simp [Repo.read, Backend.read, Except.mapError, hfound]
  rw [hhas]
  obtain ⟨present, rfl, rfl⟩ | ⟨absent, ⟨taken, rfl, rfl⟩ | ⟨id, rfl, stored⟩⟩ :=
    insert_eq_ok_cases done
  · -- the index has the name, so the table serves it
    have hserved := (hserves _).1 present
    refine ⟨iff_of_true present fun blocked => blocked.2 hserved, fun _ => rfl,
      fun id inserted => absurd inserted (by simp), ?_⟩
    intro truthful _
    obtain ⟨found, hfound, hfull⟩ := read_of_serves truthful hserved store.index
    exact ⟨found, hread _ _ hfound, hfull, wire_eq_or_collide hfull⟩
  · -- the table has the name and does not serve it
    have hblocked : store.table.Blocks data.fullName :=
      ⟨taken, fun serves => by simp [(hserves _).2 serves] at absent⟩
    exact ⟨iff_of_false (by simp [absent]) (not_not.2 hblocked), fun _ => rfl,
      fun id inserted => absurd inserted (by simp), fun _ free => absurd hblocked free⟩
  · obtain ⟨free, hrow, hadded⟩ := DurableStore.of_insert_eq_ok stored
    have hcontains : after.backend.index.contains data.fullName = true := by
      rw [Index.contains_eq_decide, decide_eq_true hadded]
    obtain ⟨found, hfound, hwire, hfull⟩ := read_of_new_row readable hrow
    exact ⟨iff_of_true hcontains fun blocked => free blocked.1,
      fun present => absurd present (by simp),
      fun _ _ => ⟨found, hread _ _ hfound, hwire⟩,
      fun _ _ => ⟨found, hread _ _ hfound, hfull, Or.inl hwire⟩⟩

/-- Of two rows the first can be read and is present; a packet with the name of the second, whose
data are damaged, is called present too, its name being blocked; a third packet is inserted and
read back. -/
theorem present_unless_blocked_of_damage :
    let second : Data := .bare (Name.empty.pushNumber 1)
    let third : Data := .bare (Name.empty.pushNumber 2)
    let first := (DurableStore.insert ⟨.empty, .empty 3⟩ .blank).2
    let table := ((first.insert second).2.table.replaceData second.fullName.encodeValue [6]).2
    let repo : Repo DurableStore := ⟨⟨table, first.index⟩, []⟩
    DurableStore.load table 3 = .ok repo.backend ∧
      repo.insert .blank = (.ok .alreadyPresent, repo) ∧ ¬table.Blocks Data.blank.fullName ∧
      repo.insert second = (.ok .alreadyPresent, repo) ∧ table.Blocks second.fullName ∧
      ∃ found, (repo.insert third).2.read third.fullName = .ok (some found) ∧
        found.wire = third.wire := by
  intro second third first table repo
  have hopened : DurableStore.load table 3 = .ok repo.backend := by decide +kernel
  have hread : ∀ n, (Data.bare (Name.empty.pushNumber n)).wire.length < 2 ^ 63 →
      (Data.bare (Name.empty.pushNumber n)).Readable :=
    fun n => Data.readable_bare (Name.sound_singleton nofun)
  have hpair : ∀ data outcome, (repo.insert data).1 = .ok outcome →
      repo.insert data = (.ok outcome, (repo.insert data).2) := fun data outcome h => Prod.ext h rfl
  have hfirst := hpair .blank .alreadyPresent (by decide +kernel)
  have hsecond := hpair second .alreadyPresent (by decide +kernel)
  have hthird := hpair third (.inserted 3) (by decide +kernel)
  obtain ⟨hserved, hsame, _⟩ := present_unless_blocked hopened Data.readable_blank hfirst
  obtain ⟨hblocked, hsame', _⟩ :=
    present_unless_blocked hopened (hread 1 (by decide)) hsecond
  obtain ⟨_, _, hstored, _⟩ := present_unless_blocked hopened (hread 2 (by decide)) hthird
  have hpresent : repo.has Data.blank.fullName = .ok true := by decide +kernel
  have habsent : repo.has second.fullName ≠ .ok true := by decide +kernel
  rw [hsame rfl] at hserved hfirst
  rw [hsame' rfl] at hblocked hsecond
  exact ⟨hopened, hfirst, hserved.1 hpresent, hsecond, not_not.1 (mt hblocked.2 habsent),
    hstored 3 rfl⟩

/-- A packet whose row is damaged, and the table opened again, is called present and is not there:
nothing is found under its name. -/
theorem absent_though_called_present :
    let table := ((DurableStore.insert ⟨.empty, .empty 1⟩ .blank).2.table.replaceData
      Data.blank.fullName.encodeValue [6]).2
    ∃ store, DurableStore.load table 1 = .ok store ∧ Data.blank.Readable ∧
      ((⟨store, []⟩ : Repo DurableStore).insert .blank).1 = .ok .alreadyPresent ∧
      ((⟨store, []⟩ : Repo DurableStore).insert .blank).2.has Data.blank.fullName = .ok false ∧
      ((⟨store, []⟩ : Repo DurableStore).insert .blank).2.read Data.blank.fullName =
        .ok none := by
  intro table
  exact ⟨⟨table, .empty 1⟩, by decide +kernel, Data.readable_blank, by decide +kernel,
    by decide +kernel, by decide +kernel⟩

end Repo

end NamedData
