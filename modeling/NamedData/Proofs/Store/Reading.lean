import NamedData.Proofs.Store.Verdict
/-!
# What a read answers

A packet can be built under a name that cannot be read, and then it cannot be read from its own
bytes. A store holds such packets as well. A read in a table passes them over, and answers with the
packet of the least full name among those that can be read. A read in memory takes the least of all
full names under the one asked for, and fails if the packet stored there cannot be read, whatever
stands behind it.

    Filled storage → Kept storage                                                     (kept)
    storage.Kept → reading `q` answers for the first of what it tries under `q`       (read_cases)
-/

namespace NamedData

open Tlv

/-! ## Packets that were read or built -/

namespace Data

variable {data : Data}

theorem Genuine.inMemory (h : data.Genuine) (short : data.wire.length < 2 ^ 63) :
    data.InMemory := by
  cases h with
  | read done =>
    obtain ⟨hwire, value, hlength, hname⟩ := decode_eq_ok done
    have hle := Name.length_encodeValue_le_of_decodeValue hname
    rw [hwire] at short
    exact Nat.lt_of_le_of_lt (Nat.le_trans hle hlength) short
  | built draft typ signer => exact (Draft.short_parts short).2.1

/-- What is read from the bytes of such a packet has its full name, which can be read. -/
theorem Genuine.fullName_of_decode (h : data.Genuine) (short : data.wire.length < 2 ^ 63)
    {found : Data} (done : decode data.wire = .ok found) :
    found.wire = data.wire ∧ found.fullName = data.fullName ∧ data.fullName.Sound := by
  obtain ⟨other, hother, hwire, hname, -, hsound, -⟩ := Readable.decode_wire ⟨h, short, found, done⟩
  obtain rfl := Except.ok.inj (done.symm.trans hother)
  refine ⟨hwire, ?_, sound_fullName hsound⟩
  rw [fullName, fullName, digest, digest, hwire, hname]

end Data

namespace Store

/-! ## What a store is filled with -/

namespace Storage

/-- Whether a store comes about from one without packets when packets, each read or built, are given
to it and names are erased. -/
inductive Filled : Storage → Prop where
  | empty (kind : Kind) (capacity : Nat) : Filled (.empty kind capacity)
  | insert {storage : Storage} {data : Data} : Filled storage → data.Genuine →
    data.wire.length < 2 ^ 63 → Filled (storage.insert data).2
  | erase {storage : Storage} (name : Name) : Filled storage → Filled (storage.erase name).2

/-- Whether what a store holds are packets, each under its full name and one for each, and no name
is blocked. -/
structure Kept (storage : Storage) : Prop where
  inStep : storage.InStep
  clear : ∀ name, ¬storage.Blocks name
  packet : ∀ name wire, storage.Holds name wire →
    ∃ data : Data, data.Genuine ∧ data.wire.length < 2 ^ 63 ∧ data.fullName = name ∧
      data.wire = wire
  one : ∀ name wire other, storage.Holds name wire → storage.Holds name other → wire = other

variable {storage : Storage}

/-- Erasing adds nothing. -/
theorem holds_of_erase {erased name : Name} {wire : Bytes}
    (held : (storage.erase erased).2.Holds name wire) : storage.Holds name wire := by
  cases storage with
  | memory store =>
    have hheld : (Storage.memory (store.erase erased).2).Holds name wire := held
    unfold MemoryStore.erase at hheld
    split at hheld
    · exact hheld
    · obtain ⟨entry, hentry, hname, hrow⟩ := hheld
      exact ⟨entry, (List.mem_filter.1 hentry).1, hname, (List.mem_filter.1 hrow).1⟩
  | durable store =>
    obtain ⟨row, hrow, hencoded, hdata⟩ := held
    exact ⟨row, (List.mem_filter.1 hrow).1, hencoded, hdata⟩

theorem Filled.kept (h : storage.Filled) : storage.Kept := by
  induction h with
  | empty kind capacity =>
    have hnone : ∀ name wire, ¬(Storage.empty kind capacity).Holds name wire := by
      intro name wire held
      cases kind <;> exact absurd held.choose_spec.1 List.not_mem_nil
    exact ⟨inStep_empty kind capacity, not_blocks_empty kind capacity,
      fun name wire held => absurd held (hnone name wire),
      fun name wire _ held => absurd held (hnone name wire)⟩
  | @insert storage data _ genuine short ih =>
    obtain ⟨hinStep, hblocks, hholds⟩ := ih.inStep.holds_of_insert (genuine.inMemory short)
    have hthere : ∀ {name wire}, storage.Holds name wire → name ∈ storage.names :=
      fun held => (ih.inStep.mem_names_iff ih.clear).2 ⟨_, held⟩
    refine ⟨hinStep, fun name => mt (hblocks name).1 (ih.clear name), ?_, ?_⟩
    · intro name wire held
      rcases hholds name wire held with held | ⟨-, rfl, rfl⟩
      · exact ih.packet name wire held
      · exact ⟨data, genuine, short, rfl, rfl⟩
    · -- a name that is new was not held before
      intro name wire other held held'
      rcases hholds name wire held with held | ⟨absent, rfl, rfl⟩ <;>
        rcases hholds _ other held' with held' | ⟨absent', hname, rfl⟩
      · exact ih.one name wire other held held'
      · exact absurd (hname ▸ hthere held) absent'
      · exact absurd (hthere held') absent
      · rfl
  | @erase storage name _ ih =>
    obtain ⟨hinStep, hblocks⟩ := ih.inStep.erase name
    refine ⟨hinStep, fun other => mt (hblocks other) (ih.clear other), ?_, ?_⟩
    · exact fun other wire held => ih.packet other wire (holds_of_erase held)
    · exact fun other wire bytes held held' =>
        ih.one other wire bytes (holds_of_erase held) (holds_of_erase held')

/-! ## Reading -/

end Storage

/-- Whether a read tries the bytes of a packet: in a table only if they can be read. -/
def Kind.Tries (kind : Kind) (wire : Bytes) : Prop :=
  kind = .durable → ∃ data, Data.decode wire = .ok data

theorem Kind.tries_memory (wire : Bytes) : Kind.memory.Tries wire := by
  intro durable
  cases durable

namespace Storage

variable {storage : Storage} {q : Name}

/-- Whether a packet stands under the least full name that extends `q`, of those that are tried. -/
structure First (storage : Storage) (q name : Name) (wire : Bytes) : Prop where
  holds : storage.Holds name wire
  extends_q : q.isPrefixOf name
  tried : storage.kind.Tries wire
  isLE : ∀ other bytes, storage.Holds other bytes → q.isPrefixOf other →
    storage.kind.Tries bytes → (compare name other).isLE

/-- What is read from stored bytes. -/
def answer (wire : Bytes) : Except Error (Option Data) :=
  match Data.decode wire with
  | .ok data => .ok (some data)
  | .error cause => .error (.decode cause)

theorem answer_eq_some_iff {wire : Bytes} {data : Data} :
    answer wire = .ok (some data) ↔ Data.decode wire = .ok data := by
  rw [answer]
  cases Data.decode wire <;> simp

theorem answer_ne_none (wire : Bytes) : answer wire ≠ .ok none := by
  rw [answer]
  cases Data.decode wire <;> nofun

theorem answer_eq_error_iff {wire : Bytes} {cause : Error} :
    answer wire = .error cause ↔
      ∃ reason, Data.decode wire = .error reason ∧ cause = .decode reason := by
  rw [answer]
  cases Data.decode wire <;> simp [eq_comm]

namespace Kept

theorem first_unique (h : storage.Kept) {name other : Name} {wire bytes : Bytes}
    (hfirst : storage.First q name wire) (hfirst' : storage.First q other bytes) :
    name = other ∧ wire = bytes := by
  have hle := hfirst.isLE other bytes hfirst'.holds hfirst'.extends_q hfirst'.tried
  have hge := hfirst'.isLE name wire hfirst.holds hfirst.extends_q hfirst.tried
  obtain rfl := Std.LawfulEqOrd.eq_of_compare (Std.OrientedCmp.isLE_antisymm hle hge)
  exact ⟨rfl, h.one name wire bytes hfirst.holds hfirst'.holds⟩

/-- What can be read of a store has the full name under which it is stored. -/
theorem of_decode (h : storage.Kept) {name : Name} {wire : Bytes} (held : storage.Holds name wire)
    {data : Data} (done : Data.decode wire = .ok data) :
    data.wire = wire ∧ data.fullName = name ∧ name.Sound := by
  obtain ⟨packet, genuine, short, rfl, rfl⟩ := h.packet name wire held
  exact genuine.fullName_of_decode short done

end Kept

end Storage

/-- A read in memory answers with what stands under the first name of the index. -/
theorem MemoryStore.InStep.read_cases {store : MemoryStore} (h : store.InStep) (q : Name) :
    (store.read q = .ok none ∧ ∀ name wire, (Storage.memory store).Holds name wire →
      ¬q.isPrefixOf name) ∨
    ∃ name wire, (Storage.memory store).First q name wire ∧ store.read q = Storage.answer wire := by
  rw [MemoryStore.read]
  cases hfound : store.index.find? q with
  | none =>
    refine Or.inl ⟨rfl, ?_⟩
    rintro _ wire ⟨entry, hentry, rfl, -⟩
    exact Index.find?_eq_none_iff.1 hfound entry hentry
  | some entry =>
    obtain ⟨hentry, hprefix⟩ := Index.mem_of_find? hfound
    obtain ⟨wire, hlookup⟩ : ∃ wire, store.rows.lookup entry.id = some wire := by
      obtain ⟨wire, hrow⟩ := h.rowed entry hentry
      exact Option.isSome_iff_exists.1 (List.lookup_isSome_iff.2 ⟨_, hrow, beq_self_eq_true _⟩)
    have hrow : (entry.id, wire) ∈ store.rows := by
      obtain ⟨before, after, hsplit, -⟩ := List.lookup_eq_some_iff.1 hlookup
      rw [hsplit]
      exact List.mem_append_right _ List.mem_cons_self
    refine Or.inr ⟨entry.name, wire,
      ⟨⟨entry, hentry, rfl, hrow⟩, hprefix, Kind.tries_memory wire, ?_⟩, ?_⟩
    · rintro _ bytes ⟨other, hother, rfl, -⟩ hunder -
      exact Index.isLE_of_find? hfound hother hunder
    · simp only [load, hlookup]
      rfl

theorem DurableStore.InStep.legible {store : DurableStore} (h : store.InStep) :
    store.table.Legible := by
  intro row hrow name hdecoded
  obtain ⟨found, hbears, -⟩ := h.named row hrow
  have hread := hdecoded
  rw [hbears.encoded, Name.decodeValue_encodeValue_eq_ok_iff hbears.fits.writable] at hread
  obtain ⟨-, rfl⟩ := hread
  exact ⟨hdecoded, hbears.encoded, hbears.fits⟩

/-- A read in a table answers with what stands under the first name whose bytes can be read. -/
theorem DurableStore.read_cases {store : DurableStore} (h : (Storage.durable store).Kept)
    (q : Name) :
    (store.read q = none ∧ ∀ name wire, (Storage.durable store).Holds name wire →
      q.isPrefixOf name → ¬Kind.durable.Tries wire) ∨
    ∃ name wire, (Storage.durable store).First q name wire ∧
      Except.ok (store.read q) = Storage.answer wire := by
  have hstep : store.InStep := by
    cases h.inStep with
    | durable hstep => exact hstep
  have hmem := @DurableStore.mem_rowsUnder_iff _ hstep.legible q
  -- what can be read is stored under a name that can be read, so the scan does not pass it over
  have hscanned : ∀ name wire, (Storage.durable store).Holds name wire → q.isPrefixOf name →
      Kind.durable.Tries wire →
        ∃ row, (row, name) ∈ DurableStore.rowsUnder store.table q ∧ row.data = wire := by
    intro name wire held hprefix tried
    obtain ⟨data, hdata⟩ := tried rfl
    obtain ⟨-, -, hsound⟩ := h.of_decode held hdata
    obtain ⟨row, hrow, hencoded, hwire⟩ := held
    have hfits : name.Fits := hstep.fits ⟨row, hrow, hencoded⟩
    have hdecoded : Name.decodeValue row.name = .ok name :=
      hencoded ▸ Name.decodeValue_encodeValue hfits.writable hsound
    exact ⟨row, hmem.2 ⟨hrow, ⟨hdecoded, hencoded, hfits⟩, hprefix⟩, hwire⟩
  cases hread : store.read q with
  | none =>
    refine Or.inl ⟨rfl, fun name wire held hprefix tried => ?_⟩
    obtain ⟨row, hrow, rfl⟩ := hscanned name wire held hprefix tried
    obtain ⟨data, hdata⟩ := tried rfl
    have hnone : (Data.decode row.data).toOption = none :=
      List.findSome?_eq_none_iff.1 hread _ hrow
    rw [hdata] at hnone
    cases hnone
  | some data =>
    obtain ⟨⟨row, name⟩, hfound, hview, hleast⟩ := exists_least_of_findSome? Prod.snd
      (DurableStore.pairwise_rowsUnder hstep.legible q) hread
    obtain ⟨hrow, named, hprefix⟩ := hmem.1 hfound
    have hdata : Data.decode row.data = .ok data := toOption_eq_some_iff.1 hview
    refine Or.inr ⟨name, row.data, ⟨⟨row, hrow, named.encoded, rfl⟩, hprefix,
      fun _ => ⟨data, hdata⟩, fun other bytes held hunder tried => ?_⟩, ?_⟩
    · obtain ⟨later, hlater, rfl⟩ := hscanned other bytes held hunder tried
      obtain ⟨found, hsome⟩ := tried rfl
      have hthere : (Data.decode later.data).toOption.isSome := by rw [hsome]; rfl
      exact hleast (later, other) hlater hthere
    · rw [Storage.answer, hdata]

namespace Storage

variable {storage : Storage} {q : Name}

theorem Kept.read_cases (h : storage.Kept) (q : Name) :
    (Backend.read storage q = .ok none ∧ ∀ name wire, storage.Holds name wire →
      q.isPrefixOf name → ¬storage.kind.Tries wire) ∨
    ∃ name wire, storage.First q name wire ∧ Backend.read storage q = answer wire := by
  cases storage with
  | memory store =>
    have hstep : store.InStep := by
      cases h.inStep with
      | memory hstep => exact hstep
    refine (hstep.read_cases q).imp_left fun ⟨hread, hnone⟩ => ⟨hread, ?_⟩
    exact fun name wire held hprefix => absurd hprefix (hnone name wire held)
  | durable store =>
    refine (DurableStore.read_cases h q).imp_left fun ⟨hread, hnone⟩ => ⟨?_, hnone⟩
    exact congrArg Except.ok hread

theorem Kept.read_of_first (h : storage.Kept) {name : Name} {wire : Bytes}
    (hfirst : storage.First q name wire) : Backend.read storage q = answer wire := by
  rcases h.read_cases q with ⟨-, hnone⟩ | ⟨other, bytes, hother, hread⟩
  · exact absurd hfirst.tried (hnone name wire hfirst.holds hfirst.extends_q)
  · obtain ⟨-, rfl⟩ := h.first_unique hfirst hother
    exact hread

theorem Kept.exists_first (h : storage.Kept) {result : Except Error (Option Data)}
    (hread : Backend.read storage q = result) (found : result ≠ .ok none) :
    ∃ name wire, storage.First q name wire ∧ answer wire = result := by
  rcases h.read_cases q with ⟨hnone, -⟩ | ⟨name, wire, hfirst, hanswer⟩
  · exact absurd (hread.symm.trans hnone) found
  · exact ⟨name, wire, hfirst, hanswer.symm.trans hread⟩

/-- A read answers for the first of what it tries under a name: with that packet if its bytes can be
read, and else with what is wrong with them. It finds nothing if there is nothing to try. In a table
only what can be read is tried, so there a read does not fail; in memory everything is. -/
theorem read_answers_for_first (h : storage.Filled) (q : Name) :
    (∀ data, Backend.read storage q = .ok (some data) ↔
      storage.First q data.fullName data.wire ∧ Data.decode data.wire = .ok data) ∧
      (∀ cause, Backend.read storage q = .error cause ↔ ∃ name wire reason,
        storage.First q name wire ∧ Data.decode wire = .error reason ∧ cause = .decode reason) ∧
      (Backend.read storage q = .ok none ↔ ∀ name wire, storage.Holds name wire →
        q.isPrefixOf name → ¬storage.kind.Tries wire) ∧
      (storage.kind = .durable → ∀ cause, Backend.read storage q ≠ .error cause) := by
  have kept := h.kept
  refine ⟨fun data => ⟨fun hread => ?_, fun ⟨hfirst, hdecode⟩ => ?_⟩,
    fun cause => ⟨fun hread => ?_, ?_⟩, ⟨fun hread => ?_, fun hnone => ?_⟩,
    fun durable cause hread => ?_⟩
  · obtain ⟨name, wire, hfirst, hanswer⟩ := kept.exists_first hread nofun
    have hdecode := answer_eq_some_iff.1 hanswer
    obtain ⟨rfl, rfl, -⟩ := kept.of_decode hfirst.holds hdecode
    exact ⟨hfirst, hdecode⟩
  · rw [kept.read_of_first hfirst]
    exact answer_eq_some_iff.2 hdecode
  · obtain ⟨name, wire, hfirst, hanswer⟩ := kept.exists_first hread nofun
    obtain ⟨reason, hfails, hcause⟩ := answer_eq_error_iff.1 hanswer
    exact ⟨name, wire, reason, hfirst, hfails, hcause⟩
  · rintro ⟨name, wire, reason, hfirst, hfails, hcause⟩
    rw [kept.read_of_first hfirst]
    exact answer_eq_error_iff.2 ⟨reason, hfails, hcause⟩
  · rcases kept.read_cases q with ⟨-, hnone⟩ | ⟨name, wire, -, hanswer⟩
    · exact hnone
    · exact absurd (hanswer.symm.trans hread) (answer_ne_none wire)
  · rcases kept.read_cases q with ⟨hread, -⟩ | ⟨name, wire, hfirst, -⟩
    · exact hread
    · exact absurd hfirst.tried (hnone name wire hfirst.holds hfirst.extends_q)
  · -- what a read in a table tries can be read
    obtain ⟨name, wire, hfirst, hanswer⟩ := kept.exists_first hread nofun
    obtain ⟨data, hdecode⟩ := hfirst.tried durable
    obtain ⟨reason, hfails, -⟩ := answer_eq_error_iff.1 hanswer
    rw [hdecode] at hfails
    cases hfails

/-! ### A packet that cannot be read -/

/-- A packet under a digest of one byte. -/
def misfit : Data := .bare ⟨[⟨Code.digestComponent, [0]⟩]⟩

theorem genuine_misfit : misfit.Genuine :=
  .built ⟨⟨[⟨Code.digestComponent, [0]⟩]⟩, .empty, [], none⟩ digestSignature fun _ => []

theorem decode_misfit : Data.decode misfit.wire = .error (.invalidDigestLength 1) := by
  have hname : Name.decodeValue (Name.encodeValue ⟨[⟨Code.digestComponent, [0]⟩]⟩) =
      .error (.invalidDigestLength 1) := by
    rw [Name.decodeValue, Name.encodeValue, Name.decodeComponents_flatMap_encode (by decide)]
    rfl
  rw [misfit, Data.bare, Data.Draft.decode_signWith _ _ _ (by decide), hname]
  rfl

/-- A store with that packet and one that can be read. -/
def pair (kind : Kind) : Storage := (((empty kind 2).insert misfit).2.insert .blank).2

theorem filled_pair (kind : Kind) : (pair kind).Filled := by
  have hmisfit : Filled ((empty kind 2).insert misfit).2 :=
    .insert (.empty kind 2) genuine_misfit (by decide)
  exact hmisfit.insert Data.readable_blank.genuine Data.readable_blank.short

/-- The rows of the two packets in a table. -/
theorem rows_pair : ∃ store, pair .durable = .durable store ∧ store.table.rows =
    [⟨1, misfit.fullName.encodeValue, misfit.wire⟩,
      ⟨2, Data.blank.fullName.encodeValue, Data.blank.wire⟩] := ⟨_, rfl, rfl⟩

/-- What stands for them in memory. -/
theorem entries_pair : ∃ store, pair .memory = .memory store ∧
    store.index.entries = [Index.entryOf misfit 1, Index.entryOf .blank 2] ∧
    store.rows = [(1, misfit.wire), (2, Data.blank.wire)] := ⟨_, rfl, rfl, rfl⟩

/-- From a table the packet is read that can be, though another stands before it. -/
theorem read_answers_for_first_of_pair :
    ∃ data, Data.decode Data.blank.wire = .ok data ∧
      Backend.read (pair .durable) .empty = .ok (some data) := by
  obtain ⟨hread, -, -, -⟩ := read_answers_for_first (filled_pair .durable) .empty
  obtain ⟨data, done⟩ := Data.readable_blank.decodes
  obtain ⟨hwire, hname, -⟩ :=
    Data.readable_blank.genuine.fullName_of_decode Data.readable_blank.short done
  obtain ⟨store, hstore, hrows⟩ := rows_pair
  have hfits : Data.blank.fullName.Fits := Data.fits_fullName (by decide)
  refine ⟨data, done, (hread data).2 ⟨?_, by rwa [hwire]⟩⟩
  rw [hwire, hname, hstore]
  refine ⟨⟨_, hrows ▸ List.mem_cons_of_mem _ List.mem_cons_self, rfl, rfl⟩, rfl,
    fun _ => ⟨data, done⟩, ?_⟩
  rintro other _ ⟨row, hrow, hencoded, rfl⟩ - tried
  rw [hrows] at hrow
  rcases List.mem_cons.1 hrow with rfl | hrow
  · obtain ⟨found, hfound⟩ := tried rfl
    rw [decode_misfit] at hfound
    cases hfound
  · obtain rfl := List.mem_singleton.1 hrow
    rw [(Name.encodeValue_inj hfits).1 hencoded]
    exact Std.ReflCmp.isLE_rfl

/-- In memory the packet that cannot be read stands before one that can, and the read fails. -/
theorem read_fails_though_another_can_be_read :
    (pair .memory).Filled ∧ (pair .memory).Holds Data.blank.fullName Data.blank.wire ∧
      (∃ data, Data.decode Data.blank.wire = .ok data) ∧
      Backend.read (pair .memory) .empty = .error (.decode (.invalidDigestLength 1)) := by
  obtain ⟨store, hstore, hentries, hrows⟩ := entries_pair
  have hread : Backend.read (pair .memory) .empty = answer misfit.wire := rfl
  refine ⟨filled_pair .memory, ?_, Data.readable_blank.decodes, ?_⟩
  · rw [hstore]
    exact ⟨_, hentries ▸ List.mem_cons_of_mem _ List.mem_cons_self, rfl,
      hrows ▸ List.mem_cons_of_mem _ List.mem_cons_self⟩
  · rw [hread, answer, decode_misfit]

end Storage

end Store

end NamedData
