import Mathlib.Data.List.Dedup
import Mathlib.Data.List.Perm.Subperm
import NamedData.Proofs.Repo.Events
import NamedData.Proofs.Store.Presence
/-!
# Packets from many clients

Clients share a repository. Each gives its packets in an order of its own, and the repository takes
one packet at a time, from whichever client. If there is room for all of them, none is refused: a
packet is stored when it comes first, be it in the last free place, and is known to be there when it
comes again, be the store full by then. So what is stored in the end does not depend on the order.

    room for a packet that is not there → it is told to be there, or added         (insert_of_room)
    s.Tallies listed capacity → s.Step s' → s'.Tallies listed capacity            (tallies_of_step)
    s.Tallies listed capacity → s.Done → the listed packets are stored            (mem_contents_iff)
-/

namespace NamedData

open Store

/-- The names in the index of a store are those of its objects. -/
theorem Store.Storage.Sound.mem_names_iff {storage : Storage} (h : storage.Sound) {name : Name} :
    name ∈ storage.names ↔ name ∈ storage.objects.map Object.fullName := by
  have hhas := (Storage.has_eq storage name).symm.trans (h.has_eq name)
  exact decide_eq_decide.1 (Except.ok.inj hhas)

/-- A store that holds packets under their full names blocks none. -/
theorem Store.Storage.Sound.not_blocks {storage : Storage} (h : storage.Sound) (name : Name) :
    ¬storage.Blocks name := by
  cases h with
  | memory _ => exact id
  | durable h =>
    rintro ⟨absent, taken⟩
    have hcontains := h.contains_iff.2 taken
    rw [Index.contains_eq_decide, decide_eq_true_iff] at hcontains
    exact absent hcontains

namespace Repo

/-- The bytes that are stored under each full name, in the order of names. -/
def contents (repo : Repo Storage) : List (Name × Bytes) :=
  repo.backend.objects.map fun object => (object.fullName, object.wire)

/-- A packet is not refused if there is room for it or it is there: in the one case it is added, and
in the other nothing changes. -/
theorem insert_of_room {repo : Repo Storage} (sound : repo.backend.Sound)
    (inStep : repo.backend.InStep) {data : Data} (readable : data.Readable)
    (nonempty : data.name.isEmpty = false)
    (room : data.fullName ∉ repo.backend.names →
      repo.backend.names.length < repo.backend.index.capacity) :
    repo.insert data = (.ok .alreadyPresent, repo) ∧ data.fullName ∈ repo.backend.names ∨
      ∃ newId after, repo.insert data = (.ok (.inserted newId), after) ∧
        Adds repo ⟨newId, data.fullName, data.wire⟩ after ∧ after.backend.InStep ∧
        after.backend.index.capacity = repo.backend.index.capacity := by
  by_cases present : data.fullName ∈ repo.backend.names
  · exact Or.inl ⟨insert_of_mem present, present⟩
  · right
    obtain ⟨_, _, _, _, _, _, small⟩ := readable.decode_wire
    have free : ¬repo.backend.Taken data.fullName :=
      not_or.2 ⟨present, sound.not_blocks data.fullName⟩
    obtain ⟨newId, backend, hdone, halters, _⟩ :=
      inStep.insert_of_takes small free ⟨nonempty, room present⟩
    rcases sound.insert_cases readable with ⟨_, _, hsame, hsound, _, hperm⟩ | ⟨_, hrefused, _⟩
    · cases hdone.symm.trans hsame
      refine ⟨newId, ⟨backend, repo.sent ++ [.inserted data.name]⟩, ?_, ⟨hperm, ?_, hsound⟩,
        halters.inStep, halters.capacity⟩
      · rw [insert, Storage.has_eq, decide_eq_false present]
        simp only [hdone]
      · rw [data.withoutDigest_fullName]
    · cases hdone.symm.trans hrefused

/-! ## Answers -/

/-- A packet that was given to a repository, and what was answered. -/
structure Answer where
  data : Data
  outcome : Except Error InsertOutcome

namespace Answer

/-- The id that was given to the packet, if it was stored. -/
def id? (answer : Answer) : Option Int :=
  match answer.outcome with
  | .ok (.inserted id) => some id
  | _ => none

/-- The object that the packet became, if it was stored. -/
def object? (answer : Answer) : Option Object :=
  answer.id?.map fun id => ⟨id, answer.data.fullName, answer.data.wire⟩

/-- The event for the packet, if it was stored. -/
def event? (answer : Answer) : Option Event :=
  answer.id?.map fun _ => .inserted answer.data.name

/-- Whether a packet was stored under a full name. -/
def stores (answer : Answer) (fullName : Name) : Bool :=
  answer.id?.isSome && answer.data.fullName = fullName

variable {answer : Answer}

theorem id?_eq_some_iff {id : Int} :
    answer.id? = some id ↔ answer.outcome = .ok (.inserted id) := by
  unfold id?
  split
  · next other houtcome => simp [houtcome]
  · next hother => simpa using hother id

theorem object?_eq_some_iff {object : Object} :
    answer.object? = some object ↔
      answer.outcome = .ok (.inserted object.id) ∧
        answer.data.fullName = object.fullName ∧ answer.data.wire = object.wire := by
  rw [object?, Option.map_eq_some_iff]
  constructor
  · rintro ⟨id, hid, rfl⟩
    exact ⟨id?_eq_some_iff.1 hid, rfl, rfl⟩
  · rintro ⟨houtcome, hname, hwire⟩
    exact ⟨object.id, id?_eq_some_iff.2 houtcome, by rw [hname, hwire]⟩

end Answer

/-! ## Clients that take turns -/

/-- What clients have still to give, each in its own order, the repository they share, and what it
has answered so far. -/
structure Ingestion where
  waiting : List (List Data)
  repo : Repo Storage
  answers : List Answer

/-- Whether a store with room for so many packets can take all that are listed: they can be read,
have names, are the same if they have one full name, and are not too many. -/
structure Deliverable (capacity : Nat) (listed : List Data) : Prop where
  readable : ∀ data ∈ listed, data.Readable
  named : ∀ data ∈ listed, data.name.isEmpty = false
  coherent : ∀ a ∈ listed, ∀ b ∈ listed, a.fullName = b.fullName → a.wire = b.wire
  room : (listed.map Data.fullName).dedup.length ≤ capacity

namespace Ingestion

/-- Clients before a store of a kind that holds nothing. -/
def start (kind : Kind) (capacity : Nat) (clients : List (List Data)) : Ingestion :=
  ⟨clients, ofBackend (.empty kind capacity), []⟩

/-- One of the clients gives its next packet. -/
inductive Step (s : Ingestion) : Ingestion → Prop where
  | give (before after : List (List Data)) (data : Data) (rest : List Data) :
    s.waiting = before ++ (data :: rest) :: after →
    Step s ⟨before ++ rest :: after, (s.repo.insert data).2,
      s.answers ++ [⟨data, (s.repo.insert data).1⟩]⟩

/-- Clients that have gone on for a while, in any interleaving. -/
def Run : Ingestion → Ingestion → Prop := Relation.ReflTransGen Step

/-- Whether no client has any packet left. -/
def Done (s : Ingestion) : Prop := ∀ queue ∈ s.waiting, queue = []

/-- All packets, those that were given before those that wait. -/
def packets (s : Ingestion) : List Data := s.answers.map Answer.data ++ s.waiting.flatten

/-- Whether the answers account for what is stored and for the events sent. -/
structure Tallies (listed : List Data) (capacity : Nat) (s : Ingestion) : Prop where
  sound : s.repo.backend.Sound
  inStep : s.repo.backend.InStep
  capacity : s.repo.backend.index.capacity = capacity
  packets : s.packets.Perm listed
  objects : s.repo.backend.objects.Perm (s.answers.filterMap Answer.object?)
  sent : s.repo.sent = s.answers.filterMap Answer.event?
  taken : ∀ answer ∈ s.answers,
    answer.outcome = .ok .alreadyPresent ∨ ∃ id, answer.outcome = .ok (.inserted id)
  present : ∀ answer ∈ s.answers, answer.data.fullName ∈ s.repo.backend.names

variable {listed : List Data} {capacity : Nat} {s s' : Ingestion}

/-- No packet is lost, and none comes in. -/
theorem packets_of_step (step : s.Step s') : s'.packets.Perm s.packets := by
  obtain ⟨before, after, data, rest, hwaiting⟩ := step
  have hgiven : (before ++ rest :: after).flatten = before.flatten ++ (rest ++ after.flatten) := by
    rw [List.flatten_append, List.flatten_cons]
  have hleft : s.waiting.flatten = before.flatten ++ data :: (rest ++ after.flatten) := by
    rw [hwaiting, List.flatten_append, List.flatten_cons, List.cons_append]
  unfold packets
  simp only [List.map_append, List.map_cons, List.map_nil, List.append_assoc,
    List.singleton_append]
  rw [hgiven, hleft]
  exact List.perm_middle.symm.append_left _

/-- Clients can always go on until all packets were given. -/
theorem exists_done (s : Ingestion) : ∃ after, s.Run after ∧ after.Done := by
  induction hleft : s.waiting.flatten.length using Nat.strong_induction_on generalizing s with
  | _ left ih =>
    by_cases done : ∀ queue ∈ s.waiting, queue = []
    · exact ⟨s, .refl, done⟩
    · push Not at done
      obtain ⟨queue, hqueue, hne⟩ := done
      obtain ⟨data, rest, rfl⟩ := List.exists_cons_of_ne_nil hne
      obtain ⟨before, behind, hwaiting⟩ := List.append_of_mem hqueue
      have hfewer : (before ++ rest :: behind).flatten.length < left := by
        rw [← hleft, hwaiting]
        simp only [List.flatten_append, List.flatten_cons, List.length_append, List.length_cons]
        omega
      obtain ⟨after, run, done⟩ := ih _ hfewer ⟨before ++ rest :: behind, _, _⟩ rfl
      exact ⟨after, .head (.give before behind data rest hwaiting) run, done⟩

namespace Tallies

/-- What is there was given, and so is listed. -/
theorem exists_answer (h : s.Tallies listed capacity) {object : Object}
    (hobject : object ∈ s.repo.backend.objects) :
    ∃ answer ∈ s.answers, answer.data ∈ listed ∧ answer.data.fullName = object.fullName ∧
      answer.data.wire = object.wire := by
  obtain ⟨answer, hanswer, hbecame⟩ := List.mem_filterMap.1 (h.objects.mem_iff.1 hobject)
  obtain ⟨-, hname, hwire⟩ := Answer.object?_eq_some_iff.1 hbecame
  have hgiven : answer.data ∈ s.packets :=
    List.mem_append_left _ (List.mem_map_of_mem hanswer)
  exact ⟨answer, hanswer, h.packets.mem_iff.1 hgiven, hname, hwire⟩

/-- Packets that are not there yet have room. -/
theorem room (h : s.Tallies listed capacity) (deliverable : Deliverable capacity listed)
    {data : Data} (hdata : data ∈ listed) (absent : data.fullName ∉ s.repo.backend.names) :
    s.repo.backend.names.length < s.repo.backend.index.capacity := by
  have hlisted : ∀ name ∈ data.fullName :: s.repo.backend.names,
      name ∈ (listed.map Data.fullName).dedup := by
    intro name hname
    rw [List.mem_dedup]
    rcases List.mem_cons.1 hname with rfl | hname
    · exact List.mem_map_of_mem hdata
    · obtain ⟨object, hobject, rfl⟩ := List.mem_map.1 (h.sound.mem_names_iff.1 hname)
      obtain ⟨answer, _, hanswer, hsame, _⟩ := h.exists_answer hobject
      exact hsame ▸ List.mem_map_of_mem hanswer
  have hnodup := List.nodup_cons.2 ⟨absent, s.repo.backend.nodup_names⟩
  have hlength := (List.subperm_of_subset hnodup hlisted).length_le
  rw [h.capacity]
  exact Nat.lt_of_lt_of_le hlength deliverable.room

variable {waiting : List (List Data)} {data : Data}

/-- A packet that is known to be there leaves an answer and nothing else. -/
theorem known (h : s.Tallies listed capacity) (hpresent : data.fullName ∈ s.repo.backend.names)
    (hpackets : (Ingestion.packets
      ⟨waiting, s.repo, s.answers ++ [⟨data, .ok .alreadyPresent⟩]⟩).Perm listed) :
    Tallies listed capacity ⟨waiting, s.repo, s.answers ++ [⟨data, .ok .alreadyPresent⟩]⟩ where
  sound := h.sound
  inStep := h.inStep
  capacity := h.capacity
  packets := hpackets
  objects := by
    have hobject : Answer.object? ⟨data, .ok .alreadyPresent⟩ = none := rfl
    rw [List.filterMap_append, List.filterMap_cons_none hobject, List.filterMap_nil,
      List.append_nil]
    exact h.objects
  sent := by
    have hevent : Answer.event? ⟨data, .ok .alreadyPresent⟩ = none := rfl
    rw [List.filterMap_append, List.filterMap_cons_none hevent, List.filterMap_nil,
      List.append_nil]
    exact h.sent
  taken := List.forall_mem_append.2 ⟨h.taken, List.forall_mem_singleton.2 (Or.inl rfl)⟩
  present := List.forall_mem_append.2 ⟨h.present, List.forall_mem_singleton.2 hpresent⟩

/-- A packet that is added becomes an object, with an event for it. -/
theorem added (h : s.Tallies listed capacity) {newId : Int} {repo : Repo Storage}
    (adds : Adds s.repo ⟨newId, data.fullName, data.wire⟩ repo) (hinStep : repo.backend.InStep)
    (hcapacity : repo.backend.index.capacity = s.repo.backend.index.capacity)
    (hpackets : (Ingestion.packets
      ⟨waiting, repo, s.answers ++ [⟨data, .ok (.inserted newId)⟩]⟩).Perm listed) :
    Tallies listed capacity ⟨waiting, repo, s.answers ++ [⟨data, .ok (.inserted newId)⟩]⟩ where
  sound := adds.sound
  inStep := hinStep
  capacity := hcapacity.trans h.capacity
  packets := hpackets
  objects := by
    have hobject : Answer.object? ⟨data, .ok (.inserted newId)⟩ =
        some ⟨newId, data.fullName, data.wire⟩ := rfl
    rw [List.filterMap_append, List.filterMap_cons_some hobject, List.filterMap_nil]
    exact adds.objects.trans ((h.objects.cons _).trans (List.perm_append_singleton _ _).symm)
  sent := by
    have hevent : Answer.event? ⟨data, .ok (.inserted newId)⟩ = some (.inserted data.name) := rfl
    rw [List.filterMap_append, List.filterMap_cons_some hevent, List.filterMap_nil, adds.sent,
      data.withoutDigest_fullName, h.sent]
  taken := List.forall_mem_append.2 ⟨h.taken, List.forall_mem_singleton.2 (Or.inr ⟨newId, rfl⟩)⟩
  present := by
    have hnames : ∀ name, name ∈ repo.backend.names ↔
        name = data.fullName ∨ name ∈ s.repo.backend.names := by
      intro name
      rw [adds.sound.mem_names_iff, (adds.objects.map Object.fullName).mem_iff,
        h.sound.mem_names_iff]
      exact List.mem_cons
    refine List.forall_mem_append.2 ⟨?_, List.forall_mem_singleton.2 ((hnames _).2 (Or.inl rfl))⟩
    intro answer hanswer
    exact (hnames _).2 (Or.inr (h.present answer hanswer))

end Tallies

theorem tallies_start {kind : Kind} {clients : List (List Data)}
    (split : clients.flatten.Perm listed) :
    (start kind capacity clients).Tallies listed capacity where
  sound := Storage.sound_empty kind capacity
  inStep := Storage.inStep_empty kind capacity
  capacity := by cases kind <;> rfl
  packets := split
  objects := by
    rw [start, ofBackend, Storage.objects_empty]
    exact List.Perm.nil
  sent := rfl
  taken := List.forall_mem_nil _
  present := List.forall_mem_nil _

theorem tallies_of_step (deliverable : Deliverable capacity listed) (h : s.Tallies listed capacity)
    (step : s.Step s') : s'.Tallies listed capacity := by
  have hpackets := (packets_of_step step).trans h.packets
  obtain ⟨before, after, data, rest, hwaiting⟩ := step
  have hdata : data ∈ listed := by
    apply h.packets.mem_iff.1
    unfold packets
    rw [hwaiting]
    simp
  rcases insert_of_room h.sound h.inStep (deliverable.readable data hdata)
    (deliverable.named data hdata) (h.room deliverable hdata) with
    ⟨hinsert, hpresent⟩ | ⟨newId, repo, hinsert, adds, hinStep, hcapacity⟩
  · rw [hinsert] at hpackets ⊢
    exact h.known hpresent hpackets
  · rw [hinsert] at hpackets ⊢
    exact h.added adds hinStep hcapacity hpackets

theorem tallies_of_run (deliverable : Deliverable capacity listed) {kind : Kind}
    {clients : List (List Data)} (split : clients.flatten.Perm listed)
    (run : (start kind capacity clients).Run s) : s.Tallies listed capacity := by
  induction run with
  | refl => exact tallies_start split
  | tail _ step ih => exact tallies_of_step deliverable ih step

/-! ## What is there in the end -/

namespace Tallies

/-- No id is given twice. -/
theorem nodup_ids (h : s.Tallies listed capacity) : (s.answers.filterMap Answer.id?).Nodup := by
  have hids : s.answers.filterMap Answer.id? =
      (s.answers.filterMap Answer.object?).map Object.id := by
    rw [List.map_filterMap]
    apply List.filterMap_congr
    intro answer _
    rw [Answer.object?, Option.map_map]
    exact Option.map_id'.symm
  rw [hids]
  exact (h.objects.map Object.id).nodup_iff.1 h.sound.nodup_ids

/-- What is there was stored once. -/
theorem stored_once (h : s.Tallies listed capacity) {name : Name}
    (hname : name ∈ s.repo.backend.names) : s.answers.countP (·.stores name) = 1 := by
  have hcount := List.count_eq_one_of_mem h.sound.nodup_names (h.sound.mem_names_iff.1 hname)
  rw [(h.objects.map Object.fullName).count_eq, List.map_filterMap, List.count_filterMap] at hcount
  rw [← hcount]
  apply List.countP_congr
  intro answer _
  rw [Answer.stores, Answer.object?]
  cases answer.id? <;> simp

theorem answered_of_done (h : s.Tallies listed capacity) (done : s.Done) :
    (s.answers.map Answer.data).Perm listed := by
  have hnone : s.waiting.flatten = [] := List.flatten_eq_nil_iff.2 done
  have hpackets := h.packets
  rwa [Ingestion.packets, hnone, List.append_nil] at hpackets

theorem mem_names_of_done (h : s.Tallies listed capacity) (done : s.Done) {data : Data}
    (hdata : data ∈ listed) : data.fullName ∈ s.repo.backend.names := by
  obtain ⟨answer, hanswer, rfl⟩ := List.mem_map.1 ((h.answered_of_done done).mem_iff.2 hdata)
  exact h.present answer hanswer

/-- When all packets were given, just these are there. -/
theorem mem_contents_iff (h : s.Tallies listed capacity) (deliverable : Deliverable capacity listed)
    (done : s.Done) {name : Name} {wire : Bytes} :
    (name, wire) ∈ s.repo.contents ↔ ∃ data ∈ listed, data.fullName = name ∧ data.wire = wire := by
  rw [contents, List.mem_map]
  constructor
  · rintro ⟨object, hobject, hsame⟩
    obtain ⟨rfl, rfl⟩ := Prod.mk.inj hsame
    obtain ⟨answer, _, hlisted, hname, hwire⟩ := h.exists_answer hobject
    exact ⟨answer.data, hlisted, hname, hwire⟩
  · rintro ⟨data, hdata, rfl, rfl⟩
    obtain ⟨object, hobject, hname⟩ :=
      List.mem_map.1 (h.sound.mem_names_iff.1 (h.mem_names_of_done done hdata))
    -- the object came of a listed packet of the same full name
    obtain ⟨answer, _, hlisted, hname', hwire⟩ := h.exists_answer hobject
    have hsame := deliverable.coherent _ hlisted data hdata (hname'.trans hname)
    exact ⟨object, hobject, by rw [hname, ← hwire, hsame]⟩

end Tallies

/-- Clients share a repository on an empty store, of either kind, that has room for all their
packets; the packets were split among them in whatever way and are given in whatever order. Then no
packet is refused, no id is given twice, and an event is sent for each packet that is stored, and no
other. When all packets were given, each was answered; of those under one full name, one was stored;
the bytes stored under full names are those of the packets, and are the same as after any other
split and order. -/
theorem ingestion_loses_and_duplicates_nothing (deliverable : Deliverable capacity listed)
    {kind : Kind} {clients : List (List Data)} (split : clients.flatten.Perm listed)
    (run : (start kind capacity clients).Run s) :
    (∀ answer ∈ s.answers,
        answer.outcome = .ok .alreadyPresent ∨ ∃ id, answer.outcome = .ok (.inserted id)) ∧
      (s.answers.filterMap Answer.id?).Nodup ∧
      s.repo.sent = s.answers.filterMap Answer.event? ∧
      (s.Done →
        (s.answers.map Answer.data).Perm listed ∧
        (∀ data ∈ listed, s.answers.countP (·.stores data.fullName) = 1) ∧
        (s.repo.contents.map Prod.fst).Nodup ∧
        (∀ name wire, (name, wire) ∈ s.repo.contents ↔
          ∃ data ∈ listed, data.fullName = name ∧ data.wire = wire) ∧
        ∀ (kind' : Kind) (clients' : List (List Data)) (s' : Ingestion),
          clients'.flatten.Perm listed → (start kind' capacity clients').Run s' → s'.Done →
            s'.repo.contents = s.repo.contents) := by
  have h := tallies_of_run deliverable split run
  refine ⟨h.taken, h.nodup_ids, h.sent, fun done => ⟨h.answered_of_done done, ?_, ?_, ?_, ?_⟩⟩
  · intro data hdata
    exact h.stored_once (h.mem_names_of_done done hdata)
  · rw [contents, List.map_map]
    exact h.sound.nodup_names
  · exact fun name wire => h.mem_contents_iff deliverable done
  · intro kind' clients' s' split' run' done'
    have h' := tallies_of_run deliverable split' run'
    apply eq_of_sorted_of_mem_iff Prod.fst
    · exact List.pairwise_map.2 h'.sound.pairwise_objects
    · exact List.pairwise_map.2 h.sound.pairwise_objects
    · rintro ⟨name, wire⟩
      rw [h'.mem_contents_iff deliverable done', h.mem_contents_iff deliverable done]

/-- Two clients, one of which gives a packet that is there when the store is full; and the same
packets from one client to a store of the other kind. -/
theorem ingestion_loses_and_duplicates_nothing_of_two :
    let other := Data.bare ⟨[.ofText "b"]⟩
    ∃ s s', (start .durable 2 [[.blank, other], [.blank]]).Run s ∧ s.Done ∧
      s.answers.map Answer.data = [.blank, other, .blank] ∧
      s.answers.countP (·.stores Data.blank.fullName) = 1 ∧
      (start .memory 2 [[.blank, .blank, other]]).Run s' ∧ s'.Done ∧
      s'.repo.contents = s.repo.contents := by
  intro other
  have deliverable : Deliverable 2 [.blank, other, .blank] := by
    have hreadable : other.Readable :=
      Data.readable_bare (Name.sound_singleton (by decide)) (by decide)
    refine ⟨?_, by decide, ?_, ?_⟩
    · simp [Data.readable_blank, hreadable]
    · have hlisted : ∀ data ∈ [.blank, other, .blank], data = .blank ∨ data = other := by
        simp
      have hne : Data.blank.name ≠ other.name := by decide
      intro a ha b hb hfull
      have hname : a.name = b.name := by
        rw [← a.withoutDigest_fullName, hfull, b.withoutDigest_fullName]
      rcases hlisted a ha with rfl | rfl <;> rcases hlisted b hb with rfl | rfl
      · rfl
      · exact absurd hname hne
      · exact absurd hname.symm hne
      · rfl
    · -- the first name comes again
      have hagain : Data.blank.fullName ∈ [other.fullName, Data.blank.fullName] := by simp
      rw [List.map_cons, List.map_cons, List.map_singleton, List.dedup_cons_of_mem hagain]
      exact (List.dedup_sublist _).length_le
  have run : (start .durable 2 [[.blank, other], [.blank]]).Run _ :=
    ((Relation.ReflTransGen.single (.give [] [[.blank]] .blank [other] rfl)).tail
      (.give [] [[.blank]] other [] rfl)).tail (.give [[]] [] .blank [] rfl)
  obtain ⟨_, _, _, hend⟩ := ingestion_loses_and_duplicates_nothing deliverable (.refl _) run
  have done : ∀ queue ∈ [[], ([] : List Data)], queue = [] := by simp
  obtain ⟨_, honce, _, _, hsame⟩ := hend done
  obtain ⟨s', run', done'⟩ := exists_done (start .memory 2 [[.blank, .blank, other]])
  refine ⟨_, s', run, done, rfl, honce _ List.mem_cons_self, run', done', ?_⟩
  exact hsame .memory [[.blank, .blank, other]] s' (.cons _ (.swap _ _ _)) run' done'

end Ingestion

end Repo

end NamedData
