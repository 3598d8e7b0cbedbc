import NamedData.Proofs.Repo.Covers
import NamedData.Proofs.Sync.Report
/-!
# Sessions under different root names

A run can be compared with the one in which nothing is heard of any root name but one. The two
managers number their sessions differently, and the repositories do not hold the same: without the
other sessions less is stored. But what is not refused by the repository that holds more is not
refused by the other; so as long as nothing is refused, a session does in both runs the same.

    a message under the root name does the same in both                       (echoes_handle)
    one under another root name leaves the two alike                          (Follows.other)
    replies and requests are the same in both                     (sessions_do_not_interfere)
-/

namespace NamedData.Sync

open Store

/-! ## Sessions under other numbers -/

/-- How a session is getting on, while it runs. -/
def Phase.progress? : Phase → Option Progress
  | .running progress => some progress
  | .stopped _ => none

theorem Phase.progress?_eq_some_iff {phase : Phase} {progress : Progress} :
    phase.progress? = some progress ↔ phase = .running progress := by
  cases phase with
  | running other => simp [progress?]
  | stopped expiry => simp [progress?]

/-- The message with its generation, if it has one, under another number. -/
def Message.renumber (ρ : Nat → Nat) : Message → Message
  | .missing root generation ranges => .missing root (ρ generation) ranges
  | .fetched root generation name outcome => .fetched root (ρ generation) name outcome
  | .expire root generation => .expire root (ρ generation)
  | message => message

/-- The request with its generation under another number. -/
def Errand.renumber (ρ : Nat → Nat) (errand : Errand) : Errand :=
  { errand with generation := ρ errand.generation }

/-- Whether a session is another, of a known generation, under the number for that. -/
structure Session.Mirrors (ρ : Nat → Nat) (known : List Nat) (a b : Session) : Prop where
  known : a.generation ∈ known
  generation : b.generation = ρ a.generation
  stored : b.stored = a.stored
  progress : b.phase.progress? = a.phase.progress?

/-- Sessions that are alike both run, and are getting on alike, or have both stopped. -/
theorem Session.Mirrors.phase_cases {ρ : Nat → Nat} {known : List Nat} {a b : Session}
    (h : a.Mirrors ρ known b) :
    (∃ progress, a.phase = .running progress ∧ b.phase = .running progress) ∨
      ∃ expiry expiry', a.phase = .stopped expiry ∧ b.phase = .stopped expiry' := by
  have hprogress := h.progress
  cases ha : a.phase with
  | running progress =>
    rw [ha] at hprogress
    exact Or.inl ⟨progress, rfl, Phase.progress?_eq_some_iff.1 hprogress⟩
  | stopped expiry =>
    cases hb : b.phase with
    | running progress =>
      rw [ha, hb] at hprogress
      cases hprogress
    | stopped expiry' => exact Or.inr ⟨expiry, expiry', rfl, rfl⟩

/-- Sessions that are alike are of the same generation, under the number for it. -/
theorem Session.Mirrors.generation_iff {ρ : Nat → Nat} {known : List Nat} {a b : Session}
    (sharp : ∀ generation ∈ known, ∀ other, ρ generation = ρ other → generation = other)
    (h : a.Mirrors ρ known b) (generation : Nat) :
    b.generation = ρ generation ↔ a.generation = generation := by
  rw [h.generation]
  exact ⟨sharp _ h.known _, congrArg ρ⟩

namespace Manager

/-- Whether two managers have, under a root name, no session or sessions that are alike. -/
def Mirrors (root : Name) (ρ : Nat → Nat) (known : List Nat) (m n : Manager) : Prop :=
  m.sessions.get? root = none ∧ n.sessions.get? root = none ∨
    ∃ a b, m.sessions.get? root = some a ∧ n.sessions.get? root = some b ∧ a.Mirrors ρ known b

/-- Whether what a manager does on a message is what another does under its own numbers. -/
structure Echoes (root : Name) (ρ : Nat → Nat) (known : List Nat) (a b : Turn Storage) : Prop where
  going : b.failure = none
  reply : b.reply = a.reply
  errands : b.effects.filterMap Effect.errand? =
    (a.effects.filterMap Effect.errand?).map (Errand.renumber ρ)
  sessions : a.manager.Mirrors root ρ known b.manager
  covers : Repo.Covers a.repo b.repo

theorem errands_eq_nil {effects : List Effect} (h : effects.filterMap Effect.request? = []) :
    effects.filterMap Effect.errand? = [] := by
  rw [requests_eq_map] at h
  exact List.map_eq_nil_iff.1 h

variable {root : Name} {ρ : Nat → Nat} {known : List Nat} {m n : Manager} {a b : Session}

theorem mirrors_put {s t : Sessions} {next ticket next' ticket' : Nat}
    (h : a.Mirrors ρ known b) :
    Mirrors root ρ known ⟨s.put root a, next, ticket⟩ ⟨t.put root b, next', ticket'⟩ :=
  Or.inr ⟨a, b, Sessions.get?_put_self _ _ _, Sessions.get?_put_self _ _ _, h⟩

theorem report_eq_of_mirrors (h : m.Mirrors root ρ known n) : n.report root = m.report root := by
  unfold report
  rcases h with ⟨hm, hn⟩ | ⟨a, b, ha, hb, hab⟩
  · rw [hm, hn]
  · rw [ha, hb]
    rcases hab.phase_cases with ⟨progress, ha, hb⟩ | ⟨expiry, expiry', ha, hb⟩
    · simp only [ha, hb, hab.stored]
    · simp only [ha, hb, hab.stored]

/-- After a request is over, sessions that are alike go on alike. -/
theorem proceed_mirrors (m n : Manager) (root : Name) (h : a.Mirrors ρ known b) (now : Nat)
    (progress : Progress) (name : Name) :
    (m.proceed now root a progress name).1.Mirrors root ρ known
        (n.proceed now root b progress name).1 ∧
      (n.proceed now root b progress name).2.filterMap Effect.errand? =
        ((m.proceed now root a progress name).2.filterMap Effect.errand?).map
          (Errand.renumber ρ) := by
  unfold proceed
  split
  · rw [errands_eq_nil (requests_halt m root a), errands_eq_nil (requests_halt n root b)]
    exact ⟨mirrors_put ⟨h.known, h.generation, h.stored, rfl⟩, rfl⟩
  · refine ⟨mirrors_put ⟨h.known, h.generation, h.stored, rfl⟩, ?_⟩
    show [Errand.mk root b.generation (progress.request name)] =
      [Errand.mk root (ρ a.generation) (progress.request name)]
    rw [h.generation]

section

variable (sharp : ∀ generation ∈ known, ∀ other, ρ generation = ρ other → generation = other)
include sharp

/-- A session runs in both managers or in neither. -/
theorem running?_of_mirrors (h : m.Mirrors root ρ known n) (generation : Nat) :
    m.sessions.running? root generation = none ∧
        n.sessions.running? root (ρ generation) = none ∨
      ∃ a b progress, m.sessions.running? root generation = some (a, progress) ∧
        n.sessions.running? root (ρ generation) = some (b, progress) ∧ a.Mirrors ρ known b := by
  rcases h with ⟨hm, hn⟩ | ⟨a, b, ha, hb, hab⟩
  · left
    rw [Sessions.running?, Sessions.running?, hm, hn]
    exact ⟨rfl, rfl⟩
  · have hnumber := hab.generation_iff sharp generation
    rcases hab.phase_cases with ⟨progress, hruns, hruns'⟩ | ⟨expiry, expiry', hstops, hstops'⟩
    · by_cases hgeneration : a.generation = generation
      · exact Or.inr ⟨a, b, progress,
          Sessions.running?_eq_some_iff.2 ⟨ha, hruns, hgeneration⟩,
          Sessions.running?_eq_some_iff.2 ⟨hb, hruns', hnumber.2 hgeneration⟩, hab⟩
      · left
        simp only [Sessions.running?, ha, hb, hruns, hruns', hnumber, if_neg hgeneration, and_self]
    · left
      simp only [Sessions.running?, ha, hb, hstops, hstops', and_self]

theorem forget_mirrors (h : m.Mirrors root ρ known n) (generation : Nat) :
    (m.forget root generation).Mirrors root ρ known (n.forget root (ρ generation)) := by
  rcases id h with ⟨hm, hn⟩ | ⟨a, b, ha, hb, hab⟩
  · simp only [forget, hm, hn]
    exact h
  · simp only [forget, ha, hb, hab.generation_iff sharp generation]
    rcases hab.phase_cases with ⟨progress, ha, hb⟩ | ⟨expiry, expiry', ha, hb⟩
    · simp only [ha, hb]
      exact h
    · simp only [ha, hb]
      split
      · exact Or.inl ⟨Sessions.get?_erase_self _ _, Sessions.get?_erase_self _ _⟩
      · exact h

/-- A message that starts no session does the same in both managers, as long as the repository that
holds more refuses nothing. -/
theorem echoes_handle (h : m.Mirrors root ρ known n) {repo repo' : Repo Storage}
    (covers : Repo.Covers repo repo') (now : Nat) {message : Message} (here : message.root = root)
    (later : ∀ parameter, message ≠ .start root parameter) (small : message.InMemory)
    (going : (m.handle now repo message).failure = none) :
    Echoes root ρ known (m.handle now repo message)
      (n.handle now repo' (message.renumber ρ)) := by
  cases message with
  | start other parameter =>
    obtain rfl : other = root := here
    exact absurd rfl (later parameter)
  | check other =>
    obtain rfl : other = root := here
    exact ⟨rfl, congrArg some (report_eq_of_mirrors h), rfl, h, covers⟩
  | stop other =>
    obtain rfl : other = root := here
    simp only [Message.renumber, handle]
    rcases id h with ⟨hm, hn⟩ | ⟨a, b, ha, hb, hab⟩
    · rw [hm, hn]
      exact ⟨rfl, rfl, rfl, h, covers⟩
    · rw [ha, hb]
      refine ⟨rfl, rfl, ?_, mirrors_put ⟨hab.known, hab.generation, hab.stored, rfl⟩, covers⟩
      rw [errands_eq_nil (requests_halt m other a), errands_eq_nil (requests_halt n other b)]
      rfl
  | missing other generation ranges =>
    obtain rfl : other = root := here
    simp only [Message.renumber, handle, pursue]
    rcases running?_of_mirrors sharp h generation with ⟨hm, hn⟩ | ⟨a, b, progress, ha, hb, hab⟩
    · rw [hm, hn]
      exact ⟨rfl, rfl, rfl, h, covers⟩
    · rw [ha, hb]
      refine ⟨rfl, rfl, ?_, mirrors_put ⟨hab.known, hab.generation, hab.stored, rfl⟩, covers⟩
      simp only [List.filterMap_map, List.map_filterMap]
      rfl
  | fetched other generation name outcome =>
    obtain rfl : other = root := here
    rcases running?_of_mirrors sharp h generation with ⟨hm, hn⟩ | ⟨a, b, progress, ha, hb, hab⟩
    · rw [Message.renumber, m.handle_fetched_eq now repo name outcome hm,
        n.handle_fetched_eq now repo' name outcome hn]
      exact ⟨rfl, rfl, rfl, h, covers⟩
    · cases outcome with
      | valid data =>
        obtain ⟨outcome, after, hdone, hhandle⟩ := handle_valid now repo name data ha going
        obtain ⟨outcome', after', hdone', hafter⟩ := covers.insert small hdone
        have hcounted : Session.Mirrors ρ known { a with stored := a.stored + 1 }
            { b with stored := b.stored + 1 } :=
          ⟨hab.known, hab.generation, congrArg (· + 1) hab.stored, hab.progress⟩
        obtain ⟨hsessions, herrands⟩ :=
          proceed_mirrors m n other hcounted now progress name
        rw [hhandle]
        simp only [Message.renumber, handle, conclude, hb, hdone']
        exact ⟨rfl, rfl, herrands, hsessions, hafter⟩
      | invalid cause =>
        obtain ⟨hsessions, herrands⟩ :=
          proceed_mirrors m n other hab now progress name
        simp only [Message.renumber, handle, conclude, ha, hb]
        exact ⟨rfl, rfl, herrands, hsessions, covers⟩
      | failed cause =>
        obtain ⟨hsessions, herrands⟩ :=
          proceed_mirrors m n other hab now progress name
        simp only [Message.renumber, handle, conclude, ha, hb]
        exact ⟨rfl, rfl, herrands, hsessions, covers⟩
  | expire other generation =>
    obtain rfl : other = root := here
    exact ⟨rfl, rfl, rfl, forget_mirrors sharp h generation, covers⟩

end

/-- A start begins the same session in both managers, under the next number of each. -/
theorem echoes_start {repo repo' : Repo Storage} (covers : Repo.Covers repo repo') (now : Nat)
    (root : Name) (parameter : Command.Parameter)
    (number : n.nextGeneration = ρ m.nextGeneration) :
    Echoes root ρ (known ++ [m.nextGeneration]) (m.handle now repo (.start root parameter))
      (n.handle now repo' (.start root parameter)) := by
  refine ⟨rfl, rfl, ?_, ?_, covers⟩
  · show (n.begin now root parameter).2.filterMap Effect.errand? =
      ((m.begin now root parameter).2.filterMap Effect.errand?).map (Errand.renumber ρ)
    rw [errands_eq_nil (requests_begin n now root parameter),
      errands_eq_nil (requests_begin m now root parameter)]
    rfl
  · exact mirrors_put ⟨List.mem_append_right _ List.mem_cons_self, number, rfl, rfl⟩

end Manager

/-! ## What concerns a root name -/

namespace Occasion

/-- The reply of a turn, if it is to a message under a root name. -/
def replyTo? (root : Name) (o : Occasion Storage) : Option Command.Response :=
  if o.message.root = root then o.result.reply else none

/-- The requests of a turn that are for sessions under a root name. -/
def errandsFor (root : Name) (o : Occasion Storage) : List Errand :=
  (o.result.effects.filterMap Effect.errand?).filter fun errand => errand.root = root

/-- The generation that a turn begins under a root name. -/
def begun? (root : Name) (o : Occasion Storage) : Option Nat :=
  match o.message with
  | .start other _ => if other = root then some o.manager.nextGeneration else none
  | _ => none

variable {o : Occasion Storage} {root : Name}

theorem begun?_eq_some_iff {generation : Nat} : o.begun? root = some generation ↔
    (∃ parameter, o.message = .start root parameter) ∧ o.manager.nextGeneration = generation := by
  unfold begun?
  split
  · next other parameter hmessage =>
    rw [hmessage, Option.ite_none_right_eq_some, Option.some.injEq]
    refine and_congr_left fun _ => ⟨?_, ?_⟩
    · rintro rfl
      exact ⟨parameter, rfl⟩
    · rintro ⟨_, ⟨⟩⟩
      rfl
  · next later =>
    refine ⟨nofun, ?_⟩
    rintro ⟨⟨parameter, hmessage⟩, _⟩
    exact absurd hmessage (later root parameter)

theorem begun?_eq_none_iff :
    o.begun? root = none ↔ ∀ parameter, o.message ≠ .start root parameter := by
  rw [Option.eq_none_iff_forall_ne_some]
  constructor
  · intro hnone parameter hmessage
    exact hnone _ (begun?_eq_some_iff.2 ⟨⟨parameter, hmessage⟩, rfl⟩)
  · intro later generation hbegun
    obtain ⟨⟨parameter, hmessage⟩, _⟩ := begun?_eq_some_iff.1 hbegun
    exact later parameter hmessage

theorem begun?_of_ne (away : o.message.root ≠ root) : o.begun? root = none :=
  begun?_eq_none_iff.2 fun _ hmessage => away (congrArg Message.root hmessage)

/-- A turn on a message under another root name asks for nothing. -/
theorem errandsFor_of_ne (going : o.result.failure = none) (away : o.message.root ≠ root) :
    o.errandsFor root = [] := by
  apply List.filter_eq_nil_iff.2
  intro errand herrand hroot
  have hmove := o.manager.move_handle o.now o.repo o.message going
  have hrequest : errand.request ∈ o.result.effects.filterMap Effect.request? := by
    rw [requests_eq_map]
    exact List.mem_map_of_mem herrand
  have hsame := (Manager.runs_of_request hmove hrequest).1
  exact away (hsame.symm.trans (of_decide_eq_true hroot))

end Occasion

/-- The replies to messages under a root name. -/
def replies (root : Name) (turns : List (Occasion Storage)) : List Command.Response :=
  turns.filterMap (Occasion.replyTo? root)

/-- The requests made for sessions under a root name. -/
def errands (root : Name) (turns : List (Occasion Storage)) : List Errand :=
  turns.flatMap (Occasion.errandsFor root)

/-- The generations begun under a root name. -/
def generations (root : Name) (turns : List (Occasion Storage)) : List Nat :=
  turns.filterMap (Occasion.begun? root)

theorem generations_cons (root : Name) (o : Occasion Storage) (turns : List (Occasion Storage)) :
    generations root (o :: turns) = (o.begun? root).toList ++ generations root turns := by
  rw [generations, List.filterMap_cons]
  cases o.begun? root <;> rfl

/-- Whether some turns give, under a root name, what others give but for the numbers of the
generations. -/
structure Agree (root : Name) (ρ : Nat → Nat) (turns others : List (Occasion Storage)) : Prop where
  replies : replies root others = replies root turns
  errands : errands root others = (errands root turns).map (Errand.renumber ρ)
  generations : generations root others = (generations root turns).map ρ

namespace Agree

variable {root : Name} {ρ : Nat → Nat} {turns others : List (Occasion Storage)}

theorem nil : Agree root ρ [] [] := ⟨rfl, rfl, rfl⟩

/-- A turn on a message under another root name makes no difference. -/
theorem cons_away (h : Agree root ρ turns others) {o : Occasion Storage}
    (going : o.result.failure = none) (away : o.message.root ≠ root) :
    Agree root ρ (o :: turns) others := by
  have hreply : o.replyTo? root = none := if_neg away
  refine ⟨?_, ?_, ?_⟩
  · rw [h.replies, Sync.replies, Sync.replies, List.filterMap_cons_none hreply]
  · rw [h.errands, Sync.errands, Sync.errands, List.flatMap_cons,
      Occasion.errandsFor_of_ne going away, List.nil_append]
  · rw [h.generations, generations_cons, Occasion.begun?_of_ne away]
    rfl

/-- Turns that do the same agree. -/
theorem cons (h : Agree root ρ turns others) {o p : Occasion Storage} {known : List Nat}
    (echoes : Manager.Echoes root ρ known o.result p.result)
    (message : p.message.root = o.message.root) (begun : p.begun? root = (o.begun? root).map ρ) :
    Agree root ρ (o :: turns) (p :: others) := by
  have hreply : p.replyTo? root = o.replyTo? root := by
    rw [Occasion.replyTo?, Occasion.replyTo?, message, echoes.reply]
  have herrands : p.errandsFor root = (o.errandsFor root).map (Errand.renumber ρ) := by
    rw [Occasion.errandsFor, Occasion.errandsFor, echoes.errands, List.filter_map]
    rfl
  refine ⟨?_, ?_, ?_⟩
  · rw [Sync.replies, Sync.replies, List.filterMap_cons, List.filterMap_cons, hreply]
    rw [← Sync.replies, h.replies, Sync.replies]
  · rw [Sync.errands, Sync.errands, List.flatMap_cons, List.flatMap_cons, herrands,
      List.map_append, ← Sync.errands, h.errands, Sync.errands]
  · rw [generations_cons, generations_cons, h.generations, begun, List.map_append]
    cases o.begun? root <;> rfl

end Agree

/-! ## Numbers in order -/

/-- The place of a number among some numbers, counted from one; zero for others. -/
def rank (numbers : List Nat) (number : Nat) : Nat :=
  if number ∈ numbers then numbers.idxOf number + 1 else 0

theorem eq_of_rank_eq {numbers : List Nat} {number other : Nat} (h : number ∈ numbers)
    (same : rank numbers number = rank numbers other) : number = other := by
  unfold rank at same
  rw [if_pos h] at same
  split at same
  · exact (List.idxOf_inj h).1 (Nat.succ.inj same)
  · cases same

theorem rank_append_cons {before after : List Nat} {number : Nat} (new : number ∉ before) :
    rank (before ++ number :: after) number = before.length + 1 := by
  rw [rank, if_pos (List.mem_append_right _ List.mem_cons_self), List.idxOf_append_of_notMem new,
    List.idxOf_cons_self, Nat.add_zero]

/-! ## A manager and others at one repository -/

/-- What happens: a message comes to the manager, or somebody else calls the repository. -/
inductive Event where
  | message (now : Nat) (message : Message)
  | call (made : Repo.Call)

namespace Event

/-- Whether the packet that an event brings, if it brings one, has a name that is in memory. -/
def InMemory : Event → Prop
  | .message _ heard => heard.InMemory
  | .call (.insert data) => data.InMemory
  | .call (.delete _) => True

/-- What is left of an event when nothing is heard of other root names, and generations have other
numbers. -/
def only? (root : Name) (ρ : Nat → Nat) : Event → Option Event
  | .message now heard =>
    if heard.root = root then some (.message now (heard.renumber ρ)) else none
  | .call made => some (.call made)

end Event

/-- A manager and its repository. -/
structure Shared where
  manager : Manager
  repo : Repo Storage

namespace Shared

/-- A fresh manager. -/
def fresh (repo : Repo Storage) : Shared := ⟨.empty, repo⟩

/-- The next turn on a message. -/
def occasion (s : Shared) (now : Nat) (message : Message) : Occasion Storage :=
  ⟨s.manager, now, s.repo, message⟩

/-- What an event leaves. -/
def next (s : Shared) : Event → Shared
  | .message now message =>
    ⟨(s.occasion now message).result.manager, (s.occasion now message).result.repo⟩
  | .call call => ⟨s.manager, (s.repo.answer call).2⟩

/-- Whether no packet is refused in an event. -/
def Accepts (s : Shared) : Event → Prop
  | .message now message => (s.occasion now message).result.failure = none
  | .call call => ∀ cause, (s.repo.answer call).1 ≠ .inserted (.error cause)

/-- The turns of the manager in some events. -/
def turns (s : Shared) : List Event → List (Occasion Storage)
  | [] => []
  | .message now message :: rest =>
    s.occasion now message :: (s.next (.message now message)).turns rest
  | .call call :: rest => (s.next (.call call)).turns rest

/-- Whether no packet is refused in some events. -/
def Smooth (s : Shared) : List Event → Prop
  | [] => True
  | event :: rest => s.Accepts event ∧ (s.next event).Smooth rest

instance (s : Shared) : DecidablePred s.Accepts
  | .message _ _ => inferInstanceAs (Decidable (_ = none))
  | .call call =>
    match h : (s.repo.answer call).1 with
    | .inserted (.error cause) => isFalse fun accepts => accepts cause h
    | .inserted (.ok _) => isTrue fun _ refused => nomatch h.symm.trans refused
    | .deleted _ => isTrue fun _ refused => nomatch h.symm.trans refused

instance decidableSmooth (s : Shared) : (events : List Event) → Decidable (s.Smooth events)
  | [] => isTrue trivial
  | event :: rest =>
    have := decidableSmooth (s.next event) rest
    inferInstanceAs (Decidable (_ ∧ _))

/-- Whether one manager and repository follow others, whose known generations they number in
order. -/
structure Follows (root : Name) (ρ : Nat → Nat) (known : List Nat) (s t : Shared) : Prop where
  sessions : s.manager.Mirrors root ρ known t.manager
  below : ∀ generation ∈ known, generation < s.manager.nextGeneration
  counted : t.manager.nextGeneration = known.length + 1
  covers : Repo.Covers s.repo t.repo

variable {root : Name} {ρ : Nat → Nat} {known : List Nat} {s t : Shared} {now : Nat}
  {message : Message}

/-- What happens under another root name is not missed. -/
theorem Follows.away (h : Follows root ρ known s t) (other : message.root ≠ root)
    (small : message.InMemory) (going : s.Accepts (.message now message)) :
    Follows root ρ known (s.next (.message now message)) t := by
  have hmove := s.manager.move_handle now s.repo message going
  refine ⟨?_, ?_, h.counted, ?_⟩
  · have hsame := Manager.get?_of_move_of_ne hmove (Ne.symm other)
    have hsessions := h.sessions
    rw [Manager.Mirrors] at hsessions ⊢
    rwa [show (s.next (.message now message)).manager.sessions.get? root = _ from hsame]
  · intro generation hgeneration
    exact Nat.lt_of_lt_of_le (h.below generation hgeneration)
      (Manager.nextGeneration_le_of_move hmove)
  · show Repo.Covers (s.manager.handle now s.repo message).repo t.repo
    rcases s.manager.repo_of_handle now s.repo message with
      hsame | ⟨_, _, _, data, rfl, _, hinsert⟩
    · rw [hsame]
      exact h.covers
    · rw [hinsert]
      exact h.covers.insert_left small

/-- Only a start takes a number. -/
theorem nextGeneration_of_echo {r : Repo Storage}
    (later : ∀ parameter, message ≠ .start root parameter) (here : message.root = root)
    (going : (t.manager.handle now r (message.renumber ρ)).failure = none) :
    (t.manager.handle now r (message.renumber ρ)).manager.nextGeneration =
      t.manager.nextGeneration := by
  have hmove := t.manager.move_handle now r (message.renumber ρ) going
  generalize (t.manager.handle now r (message.renumber ρ)).manager = next at hmove
  generalize (t.manager.handle now r (message.renumber ρ)).effects = effects at hmove
  generalize hrenumbered : message.renumber ρ = renumbered at hmove
  cases hmove with
  | start now other parameter =>
    cases message with
    | start other' parameter' =>
      obtain rfl : other' = root := here
      exact absurd rfl (later parameter')
    | _ => cases hrenumbered
  | _ => rfl

/-- A message under the root name that starts no session does the same. -/
theorem Follows.here (h : Follows root ρ known s t)
    (sharp : ∀ generation ∈ known, ∀ other, ρ generation = ρ other → generation = other)
    (here : message.root = root) (later : ∀ parameter, message ≠ .start root parameter)
    (small : message.InMemory) (going : s.Accepts (.message now message)) :
    Manager.Echoes root ρ known (s.occasion now message).result
        (t.occasion now (message.renumber ρ)).result ∧
      Follows root ρ known (s.next (.message now message))
        (t.next (.message now (message.renumber ρ))) := by
  have hechoes := Manager.echoes_handle sharp h.sessions h.covers now here later small going
  have hmove := s.manager.move_handle now s.repo message going
  refine ⟨hechoes, hechoes.sessions, ?_, ?_, hechoes.covers⟩
  · intro generation hgeneration
    exact Nat.lt_of_lt_of_le (h.below generation hgeneration)
      (Manager.nextGeneration_le_of_move hmove)
  · exact (nextGeneration_of_echo later here hechoes.going).trans h.counted

/-- A start takes the next number in both. -/
theorem Follows.start (h : Follows root ρ known s t) (parameter : Command.Parameter)
    (number : ρ s.manager.nextGeneration = known.length + 1) :
    Manager.Echoes root ρ (known ++ [s.manager.nextGeneration])
        (s.occasion now (.start root parameter)).result
        (t.occasion now (.start root parameter)).result ∧
      Follows root ρ (known ++ [s.manager.nextGeneration])
        (s.next (.message now (.start root parameter)))
        (t.next (.message now (.start root parameter))) := by
  have hechoes : Manager.Echoes root ρ (known ++ [s.manager.nextGeneration]) _ _ :=
    Manager.echoes_start h.covers now root parameter (h.counted.trans number.symm)
  refine ⟨hechoes, hechoes.sessions, ?_, ?_, hechoes.covers⟩
  · intro generation hgeneration
    rcases List.mem_append.1 hgeneration with hold | hnew
    · exact Nat.lt_succ_of_lt (h.below generation hold)
    · rw [List.mem_singleton.1 hnew]
      exact Nat.lt_succ_self _
  · rw [List.length_append]
    exact congrArg (· + 1) h.counted

/-- A message under the root name does the same in both, and begins a generation in both or in
neither. -/
theorem Follows.heard {numbers rest : List Nat} (h : Follows root (rank numbers) known s t)
    (here : message.root = root)
    (split : numbers = known ++ (((s.occasion now message).begun? root).toList ++ rest))
    (small : message.InMemory) (going : s.Accepts (.message now message)) :
    let taken := message.renumber (rank numbers)
    let begun := (s.occasion now message).begun? root
    Manager.Echoes root (rank numbers) (known ++ begun.toList)
        (s.occasion now message).result (t.occasion now taken).result ∧
      Follows root (rank numbers) (known ++ begun.toList)
        (s.next (.message now message)) (t.next (.message now taken)) ∧
      (t.occasion now taken).begun? root = begun.map (rank numbers) := by
  intro taken begun
  cases hbegun : (s.occasion now message).begun? root with
  | none =>
    have hlater := Occasion.begun?_eq_none_iff.1 hbegun
    have sharp : ∀ generation ∈ known, ∀ other,
        rank numbers generation = rank numbers other → generation = other := by
      intro generation hgeneration other hsame
      exact eq_of_rank_eq (split ▸ List.mem_append_left _ hgeneration) hsame
    have hsame : begun = none := hbegun
    rw [hsame, Option.toList_none, List.append_nil]
    obtain ⟨hechoes, hfollows⟩ := h.here sharp here hlater small going
    refine ⟨hechoes, hfollows, Occasion.begun?_eq_none_iff.2 fun parameter htaken => ?_⟩
    cases message with
    | start other begins =>
      obtain rfl : other = root := here
      exact hlater begins rfl
    | _ => cases htaken
  | some generation =>
    obtain ⟨⟨parameter, hmessage⟩, rfl⟩ := Occasion.begun?_eq_some_iff.1 hbegun
    obtain rfl : message = .start root parameter := hmessage
    -- the number that is begun is the next of those that are ranked
    have hnew : s.manager.nextGeneration ∉ known :=
      fun hknown => Nat.lt_irrefl _ (h.below _ hknown)
    have hnumber : rank numbers s.manager.nextGeneration = known.length + 1 := by
      rw [split, hbegun]
      exact rank_append_cons hnew
    obtain ⟨hechoes, hfollows⟩ := h.start parameter hnumber
    have hsame : begun = some s.manager.nextGeneration := hbegun
    rw [hsame]
    refine ⟨hechoes, hfollows, Occasion.begun?_eq_some_iff.2 ⟨⟨parameter, rfl⟩, ?_⟩⟩
    exact h.counted.trans hnumber.symm

/-- A call of somebody else does the same, as long as nothing is refused. -/
theorem Follows.call (h : Follows root ρ known s t) {made : Repo.Call}
    (small : (Event.call made).InMemory) (going : s.Accepts (.call made)) :
    t.Accepts (.call made) ∧ Follows root ρ known (s.next (.call made)) (t.next (.call made)) := by
  cases made with
  | insert data =>
    rcases hdone : s.repo.insert data with ⟨cause | outcome, after⟩
    · refine absurd ?_ (going cause)
      show Repo.Outcome.inserted (s.repo.insert data).1 = _
      rw [hdone]
    · obtain ⟨outcome', after', hdone', hcovers⟩ := h.covers.insert small hdone
      refine ⟨?_, h.sessions, h.below, h.counted, ?_⟩
      · intro cause hrefused
        have hinserted : Repo.Outcome.inserted (t.repo.insert data).1 =
            .inserted (.error cause) := hrefused
        rw [hdone'] at hinserted
        cases hinserted
      · show Repo.Covers (s.repo.insert data).2 (t.repo.insert data).2
        rw [hdone, hdone']
        exact hcovers
  | delete q => exact ⟨nofun, h.sessions, h.below, h.counted, h.covers.delete q⟩

/-! ## Whole runs -/

/-- Generations are begun in the order of their numbers. -/
theorem pairwise_generations {events : List Event} (smooth : s.Smooth events) :
    (generations root (s.turns events)).Pairwise (· < ·) ∧
      ∀ generation ∈ generations root (s.turns events), s.manager.nextGeneration ≤ generation := by
  induction events generalizing s with
  | nil => exact ⟨.nil, nofun⟩
  | cons event rest ih =>
    obtain ⟨going, hrest⟩ := smooth
    obtain ⟨hsorted, habove⟩ := ih hrest
    cases event with
    | call made => exact ⟨hsorted, habove⟩
    | message now message =>
      have hmove := s.manager.move_handle now s.repo message going
      have hle : s.manager.nextGeneration ≤
          (s.next (.message now message)).manager.nextGeneration :=
        Manager.nextGeneration_le_of_move hmove
      rw [turns, generations_cons]
      cases hbegun : (s.occasion now message).begun? root with
      | none =>
        exact ⟨hsorted, fun generation hgeneration =>
          Nat.le_trans hle (habove generation hgeneration)⟩
      | some begun =>
        obtain ⟨⟨parameter, hmessage⟩, rfl⟩ := Occasion.begun?_eq_some_iff.1 hbegun
        obtain rfl : message = .start root parameter := hmessage
        refine ⟨List.pairwise_cons.2 ⟨habove, hsorted⟩, ?_⟩
        intro generation hgeneration
        rcases List.mem_cons.1 hgeneration with rfl | hlater
        · exact Nat.le_refl _
        · exact Nat.le_trans hle (habove generation hlater)

/-- The manager that hears of one root name alone does what the other does for it, from then on. -/
theorem Follows.agree {events : List Event} {numbers : List Nat}
    (h : Follows root (rank numbers) known s t)
    (split : numbers = known ++ generations root (s.turns events))
    (small : ∀ event ∈ events, event.InMemory) (smooth : s.Smooth events) :
    t.Smooth (events.filterMap (Event.only? root (rank numbers))) ∧
      Agree root (rank numbers) (s.turns events)
        (t.turns (events.filterMap (Event.only? root (rank numbers)))) := by
  induction events generalizing s t known with
  | nil => exact ⟨trivial, .nil⟩
  | cons event rest ih =>
    obtain ⟨going, hrest⟩ := smooth
    have hsmall := small event List.mem_cons_self
    have hlater : ∀ event ∈ rest, event.InMemory :=
      fun event hevent => small event (List.mem_cons_of_mem _ hevent)
    cases event with
    | call made =>
      obtain ⟨haccepts, hfollows⟩ := h.call hsmall going
      obtain ⟨hsmooth, hagree⟩ := ih hfollows split hlater hrest
      exact ⟨⟨haccepts, hsmooth⟩, hagree⟩
    | message now message =>
      rw [turns, generations_cons] at split
      by_cases here : message.root = root
      · have honly : Event.only? root (rank numbers) (.message now message) =
            some (.message now (message.renumber (rank numbers))) := if_pos here
        obtain ⟨hechoes, hfollows, hbegun⟩ := h.heard here split hsmall going
        obtain ⟨hsmooth, hagree⟩ :=
          ih hfollows (split.trans (List.append_assoc _ _ _).symm) hlater hrest
        have hroot : (message.renumber (rank numbers)).root = message.root := by
          cases message <;> rfl
        rw [List.filterMap_cons_some honly]
        exact ⟨⟨hechoes.going, hsmooth⟩, hagree.cons hechoes hroot hbegun⟩
      · have honly : Event.only? root (rank numbers) (.message now message) = none := if_neg here
        have hnone : (s.occasion now message).begun? root = none := Occasion.begun?_of_ne here
        rw [hnone, Option.toList_none, List.nil_append] at split
        obtain ⟨hsmooth, hagree⟩ := ih (h.away here hsmall going) split hlater hrest
        rw [List.filterMap_cons_none honly]
        exact ⟨hsmooth, hagree.cons_away going here⟩

/-- In every run in which no packet is refused, from a store in step with its rows on and whoever
else uses the repository, the replies to the commands for a root name and the requests made for it
are those of the run in which no message under another root name comes. The generations begun under
the root name have other numbers there, counted from one in the order of their numbers. Nothing is
refused in that run either. -/
theorem sessions_do_not_interfere {repo : Repo Storage} (inStep : repo.backend.InStep)
    {events : List Event} (small : ∀ event ∈ events, event.InMemory)
    (smooth : (fresh repo).Smooth events) (root : Name) :
    let turns := (fresh repo).turns events
    let number := rank (generations root turns)
    let alone := events.filterMap (Event.only? root number)
    (generations root turns).Pairwise (· < ·) ∧ (fresh repo).Smooth alone ∧
      replies root ((fresh repo).turns alone) = replies root turns ∧
      errands root ((fresh repo).turns alone) = (errands root turns).map (Errand.renumber number) ∧
      generations root ((fresh repo).turns alone) = (generations root turns).map number := by
  intro turns number alone
  have hfollows : Follows root number [] (fresh repo) (fresh repo) :=
    ⟨Or.inl ⟨rfl, rfl⟩, nofun, rfl, .refl inStep⟩
  obtain ⟨hsmooth, hreplies, herrands, hgenerations⟩ := hfollows.agree rfl small smooth
  exact ⟨(pairwise_generations smooth).1, hsmooth, hreplies, herrands, hgenerations⟩

/-- The second session to be started takes up a packet after the first has taken up another. Alone
it is the first, and is answered and makes its requests as before. -/
theorem sessions_do_not_interfere_of_second :
    let root : Name := Name.empty.pushNumber 7
    let repo : Repo Storage := .ofBackend (.empty .memory 2)
    let theirs : Data := .bare (Name.empty.pushNumber 1)
    let ours : Data := .bare (root.pushNumber 1)
    let events : List Event := [.message 0 (.start .empty (.ofName .empty)),
      .message 1 (.start root (.ofName root)), .message 2 (.missing .empty 1 [⟨.empty, 1, 1⟩]),
      .message 3 (.missing root 2 [⟨root, 1, 1⟩]),
      .message 4 (.fetched .empty 1 (Name.empty.pushNumber 1) (.valid theirs)),
      .message 5 (.fetched root 2 (root.pushNumber 1) (.valid ours)), .message 6 (.check root)]
    let turns := (fresh repo).turns events
    let alone := (fresh repo).turns (events.filterMap (Event.only? root (rank [2])))
    generations root turns = [2] ∧ generations root alone = [1] ∧
      replies root turns = [⟨100, 0⟩, ⟨300, 1⟩] ∧ replies root alone = replies root turns ∧
      (errands root turns).length = 2 ∧
      errands root alone = (errands root turns).map (Errand.renumber (rank [2])) := by
  intro root repo theirs ours events turns alone
  have htheirs : theirs.InMemory := by unfold Data.InMemory; decide
  have hours : ours.InMemory := by unfold Data.InMemory; decide
  have hsmall : ∀ event ∈ events, event.InMemory := by
    simp [events, Event.InMemory, Message.InMemory, htheirs, hours]
  have hsmooth : (fresh repo).Smooth events := by decide +kernel
  have hsecond : generations root turns = [2] := by decide +kernel
  obtain ⟨_, _, hreplies, herrands, hgenerations⟩ :=
    sessions_do_not_interfere (Storage.inStep_empty .memory 2) hsmall hsmooth root
  rw [hsecond] at hreplies herrands hgenerations
  exact ⟨hsecond, hgenerations, by decide +kernel, hreplies, by decide +kernel, herrands⟩

end Shared

end NamedData.Sync
