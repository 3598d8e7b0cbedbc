import NamedData.Proofs.Store.Presence
import NamedData.Proofs.Sync.Budget
import NamedData.Proofs.Sync.Face
import NamedData.Proofs.Sync.Inert
import NamedData.Proofs.Sync.Log
import NamedData.Proofs.Sync.Range
/-!
# Where stored objects come from

A manager at a face in memory, with what is under way between the two: requests that the manager
wants sent, and outcomes that it has not yet handled. The face may be filled and told to refuse at
any time, requests may be sent and outcomes handled in any order, and commands, reports and timers
come as they like.

Whatever then comes to be stored was given by the face for a request that the manager had made, was
accepted by the validator, and lies under a name that had been reported missing. Every request and
every outcome under way has its part of that evidence.

    a turn asks for what is reported to it, or again for what was asked for     (asked_of_turn)
    Traced w → Step w v → Traced v                                             (traced_of_step)
    what is stored was there, or there is evidence for it       (stored_objects_were_asked_for)
-/

namespace NamedData.Sync

open Store

/-! ## A manager at a face -/

/-- A request that was sent, and the face as it was then. -/
structure Dispatch where
  errand : Errand
  face : Face

/-- What comes of a request for an errand. -/
def Errand.over (errand : Errand) (outcome : Outcome) : Message :=
  .fetched errand.root errand.generation errand.interest.name outcome

/-- What comes of the answer of a face: a packet is validated. -/
def Face.Answer.outcome (validator : Validator) : Face.Answer → Outcome
  | .delivered data =>
    match validator.checkData data with
    | .ok () => .valid data
    | .error cause => .invalid cause
  | .refused => .failed Face.refusal
  | .silence => .failed .timeout

/-- A manager, its repository and a face; the requests to be sent, those that were sent, the
outcomes to be handled, and the turns so far. -/
structure Exchange where
  manager : Manager
  repo : Repo Storage
  face : Face
  waiting : List Errand
  sent : List Dispatch
  brought : List Message
  log : List (Occasion Storage)

namespace Exchange

/-- A fresh manager at a face. -/
def fresh (repo : Repo Storage) (face : Face) : Exchange := ⟨.empty, repo, face, [], [], [], []⟩

/-- The next turn on a message. -/
def occasion (w : Exchange) (now : Nat) (message : Message) : Occasion Storage :=
  ⟨w.manager, now, w.repo, message⟩

/-- The exchange after the manager has handled a message. -/
def turn (w : Exchange) (now : Nat) (message : Message) : Exchange :=
  let o := w.occasion now message
  { w with
    manager := o.result.manager
    repo := o.result.repo
    waiting := w.waiting ++ o.result.effects.filterMap Effect.errand?
    log := w.log ++ [o] }

/-- The exchange after a request was sent. -/
def express (w : Exchange) (validator : Validator) (errand : Errand) : Exchange :=
  let (answer, face) := w.face.express errand.interest
  { w with
    face := face
    waiting := w.waiting.erase errand
    sent := w.sent ++ [⟨errand, w.face⟩]
    brought := w.brought ++ [errand.over (answer.outcome validator)] }

/-- One step: something is done to the face, a request is sent, or the manager handles a message,
which is an outcome that was brought or something else. A turn after which the manager cannot go on
is a step as well; a run may end with it. -/
inductive Step (validator : Validator) (w : Exchange) : Exchange → Prop where
  | put {data : Data} : data.InMemory → Step validator w { w with face := w.face.put data }
  | refuse (name : Name) : Step validator w { w with face := w.face.refuse name }
  | express {errand : Errand} : errand ∈ w.waiting → Step validator w (w.express validator errand)
  | outcome (now : Nat) {message : Message} : message ∈ w.brought →
    Step validator w ({ w with brought := w.brought.erase message }.turn now message)
  | other (now : Nat) {message : Message} :
    (∀ root generation name outcome, message ≠ .fetched root generation name outcome) →
    Step validator w (w.turn now message)

/-! ## Evidence -/

/-- Whether a name was reported to a session in a log. -/
def Reported (log : List (Occasion Storage)) (root : Name) (generation : Nat) (name : Name) :
    Prop :=
  ∃ o ∈ log, ∃ ranges, o.message = .missing root generation ranges ∧
    name ∈ ranges.flatMap Range.names

/-- Whether a request was made in a turn of a log, for a name that was reported to its session. -/
structure Asked (log : List (Occasion Storage)) (errand : Errand) : Prop where
  issued : ∃ o ∈ log,
    Effect.fetch errand.root errand.generation errand.interest ∈ o.result.effects
  reported : Reported log errand.root errand.generation errand.interest.name

/-- Whether the face gave a packet for a request, and the validator accepted it. -/
structure Given (validator : Validator) (sent : List Dispatch) (errand : Errand) (data : Data) :
    Prop where
  delivered : ∃ face, ⟨errand, face⟩ ∈ sent ∧
    (face.express errand.interest).1 = .delivered data
  accepted : validator.checkData data = .ok ()

/-- Whether an outcome is that of a request that was made, and a valid one brings a packet that was
given for it. -/
def Backed (validator : Validator) (log : List (Occasion Storage)) (sent : List Dispatch)
    (message : Message) : Prop :=
  ∃ errand outcome, message = errand.over outcome ∧ Asked log errand ∧
    ∀ data, outcome = .valid data → data.InMemory ∧ Given validator sent errand data ∧
      errand.interest.name.isPrefixOf data.name

/-- Whether a packet was given for a request of some session, accepted and then stored while that
session ran; and its name extends that of an object that was reported missing to the session. -/
structure Provenance (validator : Validator) (log : List (Occasion Storage)) (sent : List Dispatch)
    (errand : Errand) (data : Data) : Prop extends Given validator sent errand data where
  issued : ∃ o ∈ log,
    Effect.fetch errand.root errand.generation errand.interest ∈ o.result.effects
  stored : ∃ o ∈ log, o.message = errand.over (.valid data) ∧
    o.manager.sessions.running? errand.root errand.generation ≠ none ∧
    o.repo.has data.fullName = .ok false ∧ o.result.repo.backend.Holds data.fullName data.wire
  reported : ∃ o ∈ log, ∃ ranges, o.message = .missing errand.root errand.generation ranges ∧
    ∃ range ∈ ranges, ∃ seq, range.low ≤ seq ∧ seq ≤ range.high ∧
      (range.session.pushNumber seq).isPrefixOf data.name

/-- Whether what is stored under a full name was there at the start, or there is evidence for it. -/
def Accounted (validator : Validator) (start : Repo Storage) (log : List (Occasion Storage))
    (sent : List Dispatch) (fullName : Name) (wire : Bytes) : Prop :=
  start.backend.Holds fullName wire ∨ ∃ errand data, fullName = data.fullName ∧ wire = data.wire ∧
    Provenance validator log sent errand data

variable {validator : Validator} {start : Repo Storage} {w v : Exchange} {errand : Errand}
  {log more : List (Occasion Storage)} {sent later : List Dispatch}

theorem Asked.mono (h : Asked log errand) (longer : log ⊆ more) : Asked more errand := by
  obtain ⟨⟨o, ho, hissued⟩, ⟨p, hp, hreported⟩⟩ := h
  exact ⟨⟨o, longer ho, hissued⟩, ⟨p, longer hp, hreported⟩⟩

theorem Given.mono {data : Data} (h : Given validator sent errand data) (longer : sent ⊆ later) :
    Given validator later errand data := by
  obtain ⟨⟨face, hface, hdelivered⟩, haccepted⟩ := h
  exact ⟨⟨face, longer hface, hdelivered⟩, haccepted⟩

theorem Backed.mono {message : Message} (h : Backed validator log sent message)
    (longer : log ⊆ more) (moreSent : sent ⊆ later) : Backed validator more later message := by
  obtain ⟨errand, outcome, hover, hasked, hvalid⟩ := h
  refine ⟨errand, outcome, hover, hasked.mono longer, ?_⟩
  intro data hdata
  obtain ⟨hsmall, hgiven, hunder⟩ := hvalid data hdata
  exact ⟨hsmall, hgiven.mono moreSent, hunder⟩

theorem Accounted.mono {fullName : Name} {wire : Bytes}
    (h : Accounted validator start log sent fullName wire) (longer : log ⊆ more)
    (moreSent : sent ⊆ later) : Accounted validator start more later fullName wire := by
  refine h.imp_right ?_
  rintro ⟨errand, data, hname, hwire, hgiven, hissued, hstored, hreported⟩
  obtain ⟨o, ho, hissued⟩ := hissued
  obtain ⟨p, hp, hstored⟩ := hstored
  obtain ⟨q, hq, hreported⟩ := hreported
  exact ⟨errand, data, hname, hwire, hgiven.mono moreSent, ⟨o, longer ho, hissued⟩,
    ⟨p, longer hp, hstored⟩, ⟨q, longer hq, hreported⟩⟩

/-- A name that extends one that was reported extends one with a number of a range. -/
theorem Reported.ranged {root name found : Name} {generation : Nat}
    (h : Reported log root generation name) (under : name.isPrefixOf found) :
    ∃ o ∈ log, ∃ ranges, o.message = .missing root generation ranges ∧
      ∃ range ∈ ranges, ∃ seq, range.low ≤ seq ∧ seq ≤ range.high ∧
        (range.session.pushNumber seq).isPrefixOf found := by
  obtain ⟨o, ho, ranges, hmessage, hname⟩ := h
  obtain ⟨range, hrange, hnumber⟩ := List.mem_flatMap.1 hname
  obtain ⟨seq, hlow, hhigh, rfl⟩ := range.mem_names_iff.1 hnumber
  exact ⟨o, ho, ranges, hmessage, range, hrange, seq, hlow, hhigh, under⟩

/-! ## One turn -/

/-- What a turn asks for is reported to it, or was asked for before. -/
theorem asked_of_turn {o : Occasion Storage}
    (before : ∀ root generation name outcome, o.message = .fetched root generation name outcome →
      Reported log root generation name)
    (asks : errand ∈ o.result.effects.filterMap Effect.errand?) : Asked (log ++ [o]) errand := by
  obtain ⟨effect, heffect, herrand⟩ := List.mem_filterMap.1 asks
  have hlast : o ∈ log ++ [o] := List.mem_append_right _ List.mem_cons_self
  refine ⟨⟨o, hlast, Effect.errand?_eq_some_iff.1 herrand ▸ heffect⟩, ?_⟩
  have hrequest : errand.request ∈ o.result.effects.filterMap Effect.request? := by
    rw [requests_eq_map]
    exact List.mem_map_of_mem asks
  have hsends := o.manager.sends_handle o.now o.repo o.message
  rw [← Occasion.result] at hsends
  generalize hmessage : o.message = message at hsends
  generalize o.result.effects.filterMap Effect.request? = requests at hsends hrequest
  cases hsends with
  | nothing => cases hrequest
  | report ranges _ =>
    obtain ⟨name, hname, hsame⟩ := List.mem_map.1 hrequest
    cases hsame
    exact ⟨o, hlast, ranges, hmessage, hname⟩
  | retry name outcome _ _ =>
    cases List.mem_singleton.1 hrequest
    obtain ⟨p, hp, hreported⟩ := before _ _ _ _ hmessage
    exact ⟨p, List.mem_append_left _ hp, hreported⟩

/-! ## What every step keeps -/

/-- Whether there is evidence for all that is under way, and for all that is stored and was not
there at the start. -/
structure Traced (validator : Validator) (start : Repo Storage) (w : Exchange) : Prop where
  inStep : w.repo.backend.InStep
  queued : ∀ data ∈ w.face.queued, data.InMemory
  waiting : ∀ errand ∈ w.waiting, Asked w.log errand
  brought : ∀ message ∈ w.brought, Backed validator w.log w.sent message
  stored : ∀ fullName wire, w.repo.backend.Holds fullName wire →
    Accounted validator start w.log w.sent fullName wire

/-- A turn on a message keeps the evidence, and what it stores has all of it, if there is evidence
for the message in case it is an outcome. -/
theorem Traced.turn (h : Traced validator start w) (now : Nat) {message : Message}
    (backed : ∀ root generation name outcome, message = .fetched root generation name outcome →
      Backed validator w.log w.sent message) : Traced validator start (w.turn now message) := by
  have hlog : w.log ⊆ (w.turn now message).log := List.subset_append_left _ _
  have hkept : ∀ {fullName wire}, w.repo.backend.Holds fullName wire →
      Accounted validator start (w.turn now message).log w.sent fullName wire :=
    fun hbefore => (h.stored _ _ hbefore).mono hlog (List.Subset.refl _)
  suffices hrepo : (w.turn now message).repo.backend.InStep ∧
      ∀ fullName wire, (w.turn now message).repo.backend.Holds fullName wire →
        Accounted validator start (w.turn now message).log w.sent fullName wire by
    refine ⟨hrepo.1, h.queued, ?_, fun other hother => (h.brought other hother).mono hlog
      (List.Subset.refl _), hrepo.2⟩
    intro errand herrand
    rcases List.mem_append.1 herrand with hold | hnew
    · exact (h.waiting errand hold).mono hlog
    · refine asked_of_turn ?_ hnew
      intro root generation name outcome hmessage
      obtain ⟨asked, _, hover, hasked, _⟩ := backed root generation name outcome hmessage
      cases hover.symm.trans hmessage
      exact hasked.reported
  rcases w.manager.repo_of_handle now w.repo message with
    hsame | ⟨_, _, _, data, hmessage, runs, hinsert⟩
  · have hrepo : (w.turn now message).repo = w.repo := hsame
    rw [hrepo]
    exact ⟨h.inStep, fun _ _ => hkept⟩
  · have hrepo : (w.turn now message).repo = (w.repo.insert data).2 := hinsert
    obtain ⟨errand, _, hover, hasked, hvalid⟩ := backed _ _ _ _ hmessage
    cases hover.symm.trans hmessage
    obtain ⟨hsmall, hgiven, hunder⟩ := hvalid data rfl
    obtain ⟨hinStep, hholds⟩ := Repo.holds_of_insert h.inStep hsmall
    refine ⟨hrepo ▸ hinStep, ?_⟩
    intro fullName wire hafter
    rcases hholds fullName wire (hrepo ▸ hafter) with hbefore | ⟨habsent, rfl, rfl⟩
    · exact hkept hbefore
    · -- the packet is new: this turn has stored it
      have hlonger := hasked.mono hlog
      refine Or.inr ⟨errand, data, rfl, rfl, hgiven, hlonger.issued, ?_,
        hlonger.reported.ranged hunder⟩
      refine ⟨w.occasion now message, List.mem_append_right _ List.mem_cons_self, hover, runs, ?_,
        hafter⟩
      show w.repo.has data.fullName = .ok false
      rw [Repo.has_eq, decide_eq_false habsent]

/-- Only a packet that was delivered and accepted becomes a valid outcome. -/
theorem given_of_outcome {face : Face} {data : Data} (h : (face.express errand.interest).1.outcome
    validator = .valid data) (sent : List Dispatch) :
    data ∈ face.queued ∧ Given validator (sent ++ [⟨errand, face⟩]) errand data ∧
      errand.interest.name.isPrefixOf data.name := by
  cases hanswer : (face.express errand.interest).1 with
  | delivered given =>
    rw [hanswer] at h
    simp only [Face.Answer.outcome] at h
    split at h
    · next haccepted =>
      cases h
      obtain ⟨hunder, hqueued⟩ := (Face.expresses_express _ _).of_delivered hanswer
      exact ⟨hqueued, ⟨⟨face, List.mem_append_right _ List.mem_cons_self, hanswer⟩, haccepted⟩,
        hunder⟩
    · cases h
  | refused =>
    rw [hanswer] at h
    cases h
  | silence =>
    rw [hanswer] at h
    cases h

theorem Traced.express (h : Traced validator start w) (waits : errand ∈ w.waiting) :
    Traced validator start (w.express validator errand) := by
  have hsent : w.sent ⊆ (w.express validator errand).sent := List.subset_append_left _ _
  refine ⟨h.inStep, ?_, ?_, ?_, ?_⟩
  · intro data hdata
    exact h.queued data ((w.face.expresses_express errand.interest).queued_subset hdata)
  · intro other hother
    exact h.waiting other (List.mem_of_mem_erase hother)
  · intro message hmessage
    rcases List.mem_append.1 hmessage with hold | hnew
    · exact (h.brought message hold).mono (List.Subset.refl _) hsent
    · refine ⟨errand, (w.face.express errand.interest).1.outcome validator,
        List.mem_singleton.1 hnew, h.waiting errand waits, ?_⟩
      intro data hdata
      obtain ⟨hqueued, hgiven⟩ := given_of_outcome hdata w.sent
      exact ⟨h.queued data hqueued, hgiven⟩
  · intro fullName wire hholds
    exact (h.stored fullName wire hholds).mono (List.Subset.refl _) hsent

theorem traced_of_step (h : Traced validator start w) (step : Step validator w v) :
    Traced validator start v := by
  cases step with
  | @put data small =>
    refine ⟨h.inStep, ?_, h.waiting, h.brought, h.stored⟩
    intro other hother
    rcases List.mem_append.1 hother with hold | hnew
    · exact h.queued other hold
    · exact List.mem_singleton.1 hnew ▸ small
  | refuse name => exact ⟨h.inStep, h.queued, h.waiting, h.brought, h.stored⟩
  | express waits => exact h.express waits
  | @outcome now message waits =>
    have hrest : Traced validator start { w with brought := w.brought.erase message } :=
      ⟨h.inStep, h.queued, h.waiting, fun other hother =>
        h.brought other (List.mem_of_mem_erase hother), h.stored⟩
    exact hrest.turn now fun _ _ _ _ _ => h.brought message waits
  | other now unbrought =>
    apply h.turn
    intro root generation name outcome hmessage
    exact absurd hmessage (unbrought root generation name outcome)

/-! ## Whole runs -/

/-- However a manager and a face go on from a store in step with its rows, of which some may be
unreadable, and whatever the validator is: an object that is stored was there at the start, or it
was given by the face for a request of some session, was accepted by the validator and was stored
while that session ran, and its name extends that of an object of a range that was reported to the
session. -/
theorem stored_objects_were_asked_for {repo : Repo Storage} (inStep : repo.backend.InStep)
    {face : Face} (small : ∀ data ∈ face.queued, data.InMemory)
    (run : Relation.ReflTransGen (Step validator) (fresh repo face) w) :
    (∀ fullName, w.repo.has fullName = .ok true → ∃ wire, w.repo.backend.Holds fullName wire) ∧
      ∀ fullName wire, w.repo.backend.Holds fullName wire →
        repo.backend.Holds fullName wire ∨
          ∃ errand data, fullName = data.fullName ∧ wire = data.wire ∧
            Provenance validator w.log w.sent errand data := by
  have htraced : Traced validator repo w := by
    induction run with
    | refl => exact ⟨inStep, small, nofun, nofun, fun _ _ => Or.inl⟩
    | tail _ step ih => exact traced_of_step ih step
  refine ⟨?_, htraced.stored⟩
  intro fullName there
  rw [Repo.has_eq] at there
  exact htraced.inStep.exists_holds (of_decide_eq_true (Except.ok.inj there))

/-- A packet that is brought for a name that was reported is stored, with all the evidence. -/
theorem stored_objects_were_asked_for_of_one :
    let data : Data := .bare (Name.empty.pushNumber 1)
    let idle : Exchange := fresh (.ofBackend (.empty .memory 1)) ⟨[data], [], []⟩
    let started := idle.turn 0 (.start .empty (.ofName .empty))
    let reported := started.turn 1 (.missing .empty 1 [⟨.empty, 1, 1⟩])
    let interest : Interest := ⟨Name.empty.pushNumber 1, Interest.defaultLifetime, true, none⟩
    let errand : Errand := ⟨.empty, 1, interest⟩
    let expressed := reported.express .acceptAll errand
    let stored := Exchange.turn { expressed with brought := [] } 2 (errand.over (.valid data))
    ∃ errand given, data.fullName = given.fullName ∧ data.wire = given.wire ∧
      Provenance .acceptAll stored.log stored.sent errand given := by
  intro data idle started reported interest errand expressed stored
  have hsmall : data.InMemory := by unfold Data.InMemory; decide
  have hstarted : Step .acceptAll idle started := .other 0 nofun
  have hreported : Step .acceptAll started reported := .other 1 nofun
  have hexpressed : Step .acceptAll reported expressed := .express List.mem_cons_self
  have hstored : Step .acceptAll expressed stored := .outcome 2 List.mem_cons_self
  have hrun := (((Relation.ReflTransGen.single hstarted).tail hreported).tail hexpressed).tail
    hstored
  have hqueued : ∀ queued ∈ [data], queued.InMemory := fun queued hqueued =>
    List.mem_singleton.1 hqueued ▸ hsmall
  have hholds : stored.repo.backend.Holds data.fullName data.wire :=
    ⟨_, List.mem_cons_self, rfl, List.mem_cons_self⟩
  have hinStep := Storage.inStep_empty .memory 1
  rcases (stored_objects_were_asked_for hinStep hqueued hrun).2 _ _ hholds with
    ⟨_, hnone, _⟩ | hevidence
  · cases hnone
  · exact hevidence

end Exchange

end NamedData.Sync
