import Mathlib.Data.List.Nodup
import NamedData.Proofs.Sync.Course
import NamedData.Proofs.Sync.Inert
/-!
# What a manager holds

A session that runs holds a subscription, and one that is stopped holds the timer that forgets it.
Both are outside the manager, which subscribes and ends subscriptions, and sets timers and calls
them off. A manager keeps its books if what is outside is what its sessions hold. It does so on
every message: what is to be done for a move brings about what the sessions hold after it.

    (n.perform e).holdings = n.holdings.perform e                          (holdings_perform)
    m.Keeps h → m has a session at g → m without it keeps h released              (Keeps.release)
    m.Keeps h → a move of m, its effects done → m still keeps its books              (Keeps.move)
    m.Keeps h → all sessions let go → nothing is subscribed to                 (Keeps.releaseAll)
-/

namespace NamedData.Sync

/-! ## Sessions -/

namespace Sessions

/-- Whether no two sessions are under one root name. -/
def Distinct (s : Sessions) : Prop := (s.entries.map Prod.fst).Nodup

variable {s : Sessions} {root : Name}

theorem Distinct.erase (h : s.Distinct) (root : Name) : (s.erase root).Distinct :=
  h.sublist (List.filter_sublist.map Prod.fst)

theorem Distinct.put (h : s.Distinct) (root : Name) (session : Session) :
    (s.put root session).Distinct := by
  refine List.nodup_cons.2 ⟨?_, h.erase root⟩
  rintro hroot
  obtain ⟨entry, hentry, hsame⟩ := List.mem_map.1 hroot
  exact of_decide_eq_true (List.mem_filter.1 hentry).2 hsame

theorem mem_of_get? {session : Session} (found : s.get? root = some session) :
    (root, session) ∈ s.entries := by
  obtain ⟨before, after, hentries, _⟩ := List.lookup_eq_some_iff.1 found
  rw [hentries]
  exact List.mem_append_right _ List.mem_cons_self

/-- The entries are the sessions that are found. -/
theorem Distinct.mem_iff (h : s.Distinct) {session : Session} :
    (root, session) ∈ s.entries ↔ s.get? root = some session := by
  refine ⟨fun hmem => ?_, mem_of_get?⟩
  have hsome : (s.get? root).isSome := List.lookup_isSome_iff.2 ⟨_, hmem, beq_self_eq_true root⟩
  obtain ⟨other, hother⟩ := Option.isSome_iff_exists.1 hsome
  have hsame := List.inj_on_of_nodup_map h (mem_of_get? hother) hmem rfl
  cases hsame
  exact hother

/-- To put a session under a root name is to put it there once that name is free. -/
theorem put_erase (s : Sessions) (root : Name) (session : Session) :
    (s.erase root).put root session = s.put root session := by
  simp [Sessions.put, Sessions.erase, List.filter_filter]

theorem running?_erase (s : Sessions) (root other : Name) (generation : Nat) :
    (s.erase root).running? other generation =
      if other = root then none else s.running? other generation := by
  rw [running?, get?_erase]
  by_cases h : other = root
  · rw [if_pos h, if_pos h]
  · rw [if_neg h, if_neg h, running?]

theorem running?_put_of_ne (s : Sessions) {root other : Name} (session : Session)
    (h : other ≠ root) (generation : Nat) :
    (s.put root session).running? other generation = s.running? other generation := by
  rw [running?, running?, get?_put_of_ne s session h]

/-- What is found where something was put is that, or was there before under another name. -/
theorem of_get?_put {root other : Name} {session found : Session}
    (h : (s.put root session).get? other = some found) :
    other = root ∧ found = session ∨ other ≠ root ∧ s.get? other = some found := by
  by_cases hother : other = root
  · subst hother
    rw [get?_put_self] at h
    exact Or.inl ⟨rfl, (Option.some.inj h).symm⟩
  · rw [get?_put_of_ne s session hother] at h
    exact Or.inr ⟨hother, h⟩

end Sessions

/-! ## What is held outside -/

/-- A timer that forgets a session. -/
structure Alarm where
  ticket : Option Nat
  root : Name
  generation : Nat
deriving DecidableEq

/-- The timer, if it forgets a session. -/
def Timer.alarm? (timer : Timer) : Option Alarm :=
  match timer.message with
  | .expire root generation => some ⟨timer.ticket, root, generation⟩
  | _ => none

/-- The session that a message is to forget. -/
def Message.expiry? : Message → Option (Name × Nat)
  | .expire root generation => some (root, generation)
  | _ => none

/-- What is outside the manager on its behalf: the subscriptions by root name and generation, the
timers that forget sessions, and the sessions whose timer has gone off, which are to be forgotten
once their message is handled. -/
structure Holdings where
  subscribed : List (Name × Nat)
  alarms : List Alarm
  lapsed : List (Name × Nat)

namespace Holdings

/-- What an effect does to the holdings. Without a grace a timer goes off at once. -/
def perform (graceless : Bool) (h : Holdings) : Effect → Holdings
  | .subscribe root generation =>
    { h with subscribed := h.subscribed ++ [(root, generation)] }
  | .unsubscribe generation =>
    { h with subscribed := h.subscribed.filter fun held => held.2 ≠ generation }
  | .arm ticket root generation =>
    if graceless then { h with lapsed := h.lapsed ++ [(root, generation)] }
    else { h with alarms := h.alarms ++ [⟨some ticket, root, generation⟩] }
  | .disarm ticket => { h with alarms := h.alarms.filter fun alarm => alarm.ticket ≠ some ticket }
  | .fetch _ _ _ => h

/-- The holdings before a message was taken from the queue. -/
def before (h : Holdings) (message : Message) : Holdings :=
  { h with lapsed := message.expiry?.toList ++ h.lapsed }

variable {h : Holdings}

/-- A timer that is set is there, or has gone off; all others are as before. -/
theorem perform_arm (h : Holdings) (graceless : Bool) (ticket : Nat) (root : Name)
    (generation : Nat) :
    let after := h.perform graceless (.arm ticket root generation)
    after.subscribed = h.subscribed ∧
      ((⟨some ticket, root, generation⟩ ∈ after.alarms ∨ (root, generation) ∈ after.lapsed) ∧
        h.alarms ⊆ after.alarms ∧ h.lapsed ⊆ after.lapsed) ∧
      (∀ alarm ∈ after.alarms, alarm ∈ h.alarms ∨ alarm = ⟨some ticket, root, generation⟩) ∧
      ∀ expiry ∈ after.lapsed, expiry ∈ h.lapsed ∨ expiry = (root, generation) := by
  cases graceless with
  | true =>
    simp only [perform, if_true, List.mem_append, List.mem_singleton]
    exact ⟨trivial, ⟨Or.inr (Or.inr trivial), fun _ => id, fun _ => List.mem_append_left _⟩,
      fun _ => Or.inl, fun _ => id⟩
  | false =>
    simp only [perform, Bool.false_eq_true, if_false, List.mem_append, List.mem_singleton]
    exact ⟨trivial, ⟨Or.inl (Or.inr trivial), fun _ => List.mem_append_left _, fun _ => id⟩,
      fun _ => id, fun _ => Or.inl⟩

end Holdings

namespace Node

variable {σ : Type}

/-- What is outside the manager of a node on its behalf. -/
def holdings (node : Node σ) : Holdings where
  subscribed := node.network.subscriptions.live.map fun sub => (sub.root, sub.id)
  alarms := node.timers.filterMap Timer.alarm?
  lapsed := node.queue.filterMap Message.expiry?

/-- What comes of a request leaves the holdings as they are. -/
theorem holdings_later_fetched (node : Node σ) (delay : Duration) (root : Name)
    (generation : Nat) (name : Name) (outcome : Outcome) :
    (node.later delay none (.fetched root generation name outcome)).holdings = node.holdings := by
  unfold later
  split <;> simp [holdings, Timer.alarm?, Message.expiry?]

theorem holdings_perform (node : Node σ) (effect : Effect) :
    (node.perform effect).holdings =
      node.holdings.perform (node.setting.grace = .zero) effect := by
  cases effect with
  | subscribe root generation =>
    simp [perform, holdings, Holdings.perform, Subscriptions.subscribe]
  | unsubscribe generation =>
    simp [perform, holdings, Holdings.perform, Subscriptions.unsubscribe, List.filter_map,
      Function.comp_def]
  | arm ticket root generation =>
    simp only [perform, later, Holdings.perform, decide_eq_true_eq]
    split <;> simp [holdings, Timer.alarm?, Message.expiry?]
  | disarm ticket =>
    have hkept : ∀ timers : List Timer,
        (timers.filter fun timer => timer.ticket ≠ some ticket).filterMap Timer.alarm? =
          (timers.filterMap Timer.alarm?).filter fun alarm => alarm.ticket ≠ some ticket := by
      intro timers
      rw [List.filterMap_filter, List.filter_filterMap]
      congr 1
      funext timer
      rcases hmessage : timer.message <;> simp [Timer.alarm?, hmessage, Option.filter]
    simp only [perform, holdings, Holdings.perform, hkept]
  | fetch root generation interest =>
    obtain ⟨face, delay, outcome, hlater⟩ := node.perform_fetch root generation interest
    rw [hlater, holdings_later_fetched]
    rfl

theorem holdings_foldl_perform (effects : List Effect) (node : Node σ) :
    (effects.foldl perform node).holdings =
      effects.foldl (Holdings.perform (node.setting.grace = .zero)) node.holdings := by
  induction effects generalizing node with
  | nil => rfl
  | cons effect effects ih =>
    have hsetting : (node.perform effect).setting = node.setting := by
      obtain ⟨_, _, _, hperformed⟩ := node.perform_eq effect
      rw [hperformed]
    rw [List.foldl_cons, List.foldl_cons, ih, hsetting, holdings_perform]

end Node

/-! ## Keeping the books -/

namespace Manager

/-- Whether a generation was given and does not run. -/
def Retired (m : Manager) (generation : Nat) : Prop :=
  generation < m.nextGeneration ∧ ∀ root, m.sessions.running? root generation = none

/-- Whether a manager and what is outside on its behalf agree: just the sessions that run are
subscribed to, once each; every stopped session has the timer of its ticket, which is no other's,
or that has gone off; and no timer is there for a session that runs. -/
structure Keeps (m : Manager) (h : Holdings) : Prop where
  nodup : h.subscribed.Nodup
  subscribed : ∀ root generation, (root, generation) ∈ h.subscribed ↔
    m.sessions.running? root generation ≠ none
  timed : ∀ root session ticket, m.sessions.get? root = some session →
    session.phase = .stopped ticket → ticket < m.nextTicket ∧
      (⟨some ticket, root, session.generation⟩ ∈ h.alarms ∨ (root, session.generation) ∈ h.lapsed)
  unshared : ∀ root other a b ticket, m.sessions.get? root = some a →
    m.sessions.get? other = some b → a.phase = .stopped ticket → b.phase = .stopped ticket →
    root = other
  alarmed : ∀ alarm ∈ h.alarms, (∃ ticket, alarm.ticket = some ticket ∧ ticket < m.nextTicket) ∧
    m.Retired alarm.generation
  lapsed : ∀ expiry ∈ h.lapsed, m.Retired expiry.2

variable {m next : Manager} {h : Holdings} {root : Name} {message : Message} {effects : List Effect}

theorem keeps_empty : Keeps .empty ⟨[], [], []⟩ := by
  refine ⟨.nil, fun root generation => ?_, nofun, nofun, nofun, nofun⟩
  exact iff_of_false nofun (not_not.2 rfl)

theorem Retired.of_le {generation : Nat} (retired : m.Retired generation)
    (le : m.nextGeneration ≤ next.nextGeneration)
    (runs : ∀ root, next.sessions.running? root generation ≠ none →
      m.sessions.running? root generation ≠ none) : next.Retired generation :=
  ⟨Nat.lt_of_lt_of_le retired.1 le, fun root => not_not.1 (mt (runs root) (not_not.2
    (retired.2 root)))⟩

/-- Nothing runs under the root name of a stopped session. -/
theorem running?_of_stopped {session : Session} {ticket : Nat}
    (found : m.sessions.get? root = some session) (stopped : session.phase = .stopped ticket)
    (generation : Nat) : m.sessions.running? root generation = none := by
  rw [Sessions.running?, found]
  simp only [stopped]

/-- A stopped session is not subscribed to, so that what is there is under other root names. -/
theorem Keeps.subscribed_of_stopped (keeps : m.Keeps h) {session : Session} {ticket : Nat}
    (found : m.sessions.get? root = some session) (stopped : session.phase = .stopped ticket)
    {other : Name} {generation : Nat} :
    (other, generation) ∈ h.subscribed ↔ other ≠ root ∧ (other, generation) ∈ h.subscribed := by
  refine (and_iff_right_of_imp fun held => ?_).symm
  rintro rfl
  exact (keeps.subscribed _ _).1 held (running?_of_stopped found stopped generation)

/-- The books are kept when a session goes, and with it what is there for it: its subscription, if
it has one, and perhaps its timer. -/
theorem Keeps.erase (keeps : m.Keeps h) {after : Holdings} (nodup : after.subscribed.Nodup)
    (subscribed : ∀ other generation, (other, generation) ∈ after.subscribed ↔
      other ≠ root ∧ (other, generation) ∈ h.subscribed)
    (alarms : after.alarms ⊆ h.alarms) (lapsed : after.lapsed ⊆ h.lapsed)
    (pending : ∀ other session ticket, other ≠ root → m.sessions.get? other = some session →
      session.phase = .stopped ticket →
      ⟨some ticket, other, session.generation⟩ ∈ h.alarms ∨
        (other, session.generation) ∈ h.lapsed →
      ⟨some ticket, other, session.generation⟩ ∈ after.alarms ∨
        (other, session.generation) ∈ after.lapsed) :
    Keeps { m with sessions := m.sessions.erase root } after := by
  have hfound : ∀ {other session}, (m.sessions.erase root).get? other = some session →
      other ≠ root ∧ m.sessions.get? other = some session := by
    intro other session found
    rw [Sessions.get?_erase] at found
    split at found
    · cases found
    · next hother => exact ⟨hother, found⟩
  have hretired : ∀ {generation}, m.Retired generation →
      Retired { m with sessions := m.sessions.erase root } generation := by
    intro generation retired
    refine retired.of_le (Nat.le_refl _) fun other runs => ?_
    rw [Sessions.running?_erase] at runs
    split at runs
    · exact absurd rfl runs
    · exact runs
  refine ⟨nodup, ?_, ?_, ?_, ?_, ?_⟩
  · intro other generation
    rw [subscribed, keeps.subscribed, Sessions.running?_erase]
    by_cases hother : other = root
    · rw [if_pos hother]
      exact iff_of_false (fun held => held.1 hother) (not_not.2 rfl)
    · rw [if_neg hother]
      exact and_iff_right hother
  · intro other session ticket found stopped
    obtain ⟨hother, hwas⟩ := hfound found
    obtain ⟨hticket, hpending⟩ := keeps.timed other session ticket hwas stopped
    exact ⟨hticket, pending other session ticket hother hwas stopped hpending⟩
  · intro root other a b ticket ha hb
    exact keeps.unshared root other a b ticket (hfound ha).2 (hfound hb).2
  · intro alarm halarm
    obtain ⟨hticket, retired⟩ := keeps.alarmed alarm (alarms halarm)
    exact ⟨hticket, hretired retired⟩
  · exact fun expiry hexpiry => hretired (keeps.lapsed expiry (lapsed hexpiry))

/-- A session lets go of what it holds, and is gone. -/
theorem Keeps.release (keeps : m.Keeps h) (numbered : m.Numbered) {session : Session}
    (found : m.sessions.get? root = some session) (graceless : Bool) :
    Keeps { m with sessions := m.sessions.erase root }
      (h.perform graceless (Manager.release session)) := by
  unfold Manager.release
  split
  · next progress running =>
    have hruns := Sessions.running?_eq_some_iff.2 ⟨found, running, rfl⟩
    refine keeps.erase (keeps.nodup.filter _) ?_ (List.Subset.refl _) (List.Subset.refl _)
      fun _ _ _ _ _ _ pending => pending
    intro other generation
    rw [Holdings.perform, List.mem_filter, and_comm, decide_eq_true_iff]
    refine and_congr_left fun held => ?_
    have hother := (keeps.subscribed other generation).1 held
    refine not_congr ⟨?_, ?_⟩
    · rintro rfl
      exact numbered.root_of_runs found hother
    · rintro rfl
      exact (Sessions.generation_eq_of_running? hother hruns).symm
  · next ticket stopped =>
    refine keeps.erase keeps.nodup (fun _ _ => keeps.subscribed_of_stopped found stopped)
      List.filter_sublist.subset (List.Subset.refl _) ?_
    rintro other session' ticket' hother found' stopped' (hset | hlapsed)
    · refine Or.inl (List.mem_filter.2 ⟨hset, decide_eq_true ?_⟩)
      rintro ⟨⟩
      exact hother (keeps.unshared _ _ _ _ _ found' found stopped' stopped)
    · exact Or.inr hlapsed

/-- The books are kept when a session that runs is put under a root name, where none is stopped. -/
theorem Keeps.put_running (keeps : m.Keeps h) {session : Session} {progress : Progress}
    {generation : Nat} (running : session.phase = .running progress)
    (le : m.nextGeneration ≤ generation)
    (fresh : m.sessions.running? root session.generation ≠ none ∨
      session.generation = m.nextGeneration) {subscribed : List (Name × Nat)}
    (nodup : subscribed.Nodup)
    (mem : ∀ other ran, (other, ran) ∈ subscribed ↔
      (m.sessions.put root session).running? other ran ≠ none) :
    Keeps ⟨m.sessions.put root session, generation, m.nextTicket⟩ { h with subscribed } := by
  have hretired : ∀ {ran}, m.Retired ran →
      Retired ⟨m.sessions.put root session, generation, m.nextTicket⟩ ran := by
    intro ran retired
    refine retired.of_le le fun other runs => ?_
    by_cases hother : other = root
    · subst hother
      rw [Sessions.running?_put_running _ _ running] at runs
      split at runs
      · next hsame =>
        subst hsame
        exact fresh.resolve_right (Nat.ne_of_lt retired.1)
      · exact absurd rfl runs
    · rwa [Sessions.running?_put_of_ne _ _ hother] at runs
  have hkept : ∀ {other found ticket}, (m.sessions.put root session).get? other = some found →
      found.phase = .stopped ticket → m.sessions.get? other = some found := by
    intro other found ticket hfound stopped
    rcases Sessions.of_get?_put hfound with ⟨_, rfl⟩ | ⟨_, hwas⟩
    · cases running.symm.trans stopped
    · exact hwas
  refine ⟨nodup, mem, ?_, ?_, ?_, ?_⟩
  · intro other found ticket hfound stopped
    exact keeps.timed other found ticket (hkept hfound stopped) stopped
  · intro one other a b ticket ha hb stopped stopped'
    exact keeps.unshared one other a b ticket (hkept ha stopped) (hkept hb stopped') stopped
      stopped'
  · intro alarm halarm
    obtain ⟨hticket, retired⟩ := keeps.alarmed alarm halarm
    exact ⟨hticket, hretired retired⟩
  · exact fun expiry hexpiry => hretired (keeps.lapsed expiry hexpiry)

/-- A session starts under a free root name. -/
theorem Keeps.begin (keeps : m.Keeps h) (free : m.sessions.get? root = none) (now : Nat)
    (parameter : Command.Parameter) (graceless : Bool) :
    Keeps (m.begin now root parameter).1
      (h.perform graceless (.subscribe root m.nextGeneration)) := by
  have hidle : ∀ generation, m.sessions.running? root generation = none := fun generation => by
    rw [Sessions.running?, free]
  refine keeps.put_running rfl (Nat.le_succ _) (Or.inr rfl) ?_ ?_
  · refine List.nodup_append.2 ⟨keeps.nodup, List.nodup_singleton _, ?_⟩
    rintro held hheld _ hnew rfl
    rw [List.mem_singleton.1 hnew] at hheld
    exact (keeps.subscribed _ _).1 hheld (hidle _)
  · intro other generation
    rw [List.mem_append, List.mem_singleton, Prod.mk.injEq, keeps.subscribed]
    by_cases hother : other = root
    · subst hother
      rw [Sessions.running?_put_running _ _ rfl, hidle]
      simp [eq_comm]
    · rw [Sessions.running?_put_of_ne _ _ hother]
      simp [hother]

/-- A session goes on. -/
theorem Keeps.resume (keeps : m.Keeps h) {generation : Nat} {session : Session} {was : Progress}
    (runs : m.sessions.running? root generation = some (session, was)) (stored : Nat)
    (progress : Progress) : Keeps (m.resume root { session with stored } progress) h := by
  have hsame : session.generation = generation := (Sessions.running?_eq_some_iff.1 runs).2.2
  have hran : m.sessions.running? root session.generation ≠ none :=
    Option.ne_none_iff_exists'.2 ⟨_, hsame ▸ runs⟩
  have hrunning : ({ session with stored, phase := .running progress } : Session).phase =
      .running progress := rfl
  refine keeps.put_running hrunning (Nat.le_refl _) (Or.inl hran) keeps.nodup ?_
  intro other ran
  rw [keeps.subscribed]
  by_cases hother : other = root
  · subst hother
    rw [Sessions.running?_put_running _ _ rfl]
    refine ⟨fun h => ?_, fun h => ?_⟩
    · rw [if_pos (hsame.trans (Sessions.generation_eq_of_running? h runs))]
      exact nofun
    · split at h
      · next hown => exact hown ▸ hran
      · exact absurd rfl h
  · rw [Sessions.running?_put_of_ne _ _ hother]

/-- A session is stopped under a root name that is free for it. -/
theorem Keeps.halt (keeps : m.Keeps h) (free : m.sessions.get? root = none) (session : Session)
    (retired : m.Retired session.generation) (graceless : Bool) :
    Keeps (m.halt root session).1
      (h.perform graceless (.arm m.nextTicket root session.generation)) := by
  have hruns : ∀ other generation,
      (m.halt root session).1.sessions.running? other generation =
        m.sessions.running? other generation := by
    intro other generation
    by_cases hother : other = root
    · subst hother
      rw [Manager.halt, Sessions.running?_put_stopped _ _ rfl, Sessions.running?, free]
    · rw [Manager.halt, Sessions.running?_put_of_ne _ _ hother]
  have hretired : ∀ {generation}, m.Retired generation →
      Retired (m.halt root session).1 generation := fun retired =>
    retired.of_le (Nat.le_refl _) fun other runs => hruns other _ ▸ runs
  have hticket : ∀ {ticket}, ticket < m.nextTicket → ticket < (m.halt root session).1.nextTicket :=
    Nat.lt_succ_of_lt
  obtain ⟨hsubscribed, ⟨hset, halarms, hlapsed⟩, hnewAlarms, hnewLapsed⟩ :=
    h.perform_arm graceless m.nextTicket root session.generation
  refine ⟨hsubscribed ▸ keeps.nodup, ?_, ?_, ?_, ?_, ?_⟩
  · intro other generation
    rw [hsubscribed, hruns, keeps.subscribed]
  · intro other found ticket hfound stopped
    rcases Sessions.of_get?_put hfound with ⟨rfl, rfl⟩ | ⟨_, hwas⟩
    · cases stopped
      exact ⟨Nat.lt_succ_self _, hset⟩
    · obtain ⟨hlt, hpending⟩ := keeps.timed other found ticket hwas stopped
      exact ⟨hticket hlt, hpending.imp (fun h => halarms h) fun h => hlapsed h⟩
  · -- the ticket of the session is new, and so no other's
    intro one other a b ticket ha hb stopped stopped'
    rcases Sessions.of_get?_put ha with ⟨rfl, rfl⟩ | ⟨_, hwasA⟩ <;>
      rcases Sessions.of_get?_put hb with ⟨rfl, rfl⟩ | ⟨_, hwasB⟩
    · rfl
    · cases stopped
      exact absurd (keeps.timed _ _ _ hwasB stopped').1 (Nat.lt_irrefl _)
    · cases stopped'
      exact absurd (keeps.timed _ _ _ hwasA stopped).1 (Nat.lt_irrefl _)
    · exact keeps.unshared one other a b ticket hwasA hwasB stopped stopped'
  · intro alarm halarm
    rcases hnewAlarms alarm halarm with hold | rfl
    · obtain ⟨⟨ticket, hsame, hlt⟩, hwas⟩ := keeps.alarmed alarm hold
      exact ⟨⟨ticket, hsame, hticket hlt⟩, hretired hwas⟩
    · exact ⟨⟨_, rfl, Nat.lt_succ_self _⟩, hretired retired⟩
  · intro expiry hexpiry
    rcases hnewLapsed expiry hexpiry with hold | rfl
    · exact hretired (keeps.lapsed expiry hold)
    · exact hretired retired

/-- A message that is to forget a session may go if the session is not there, stopped. -/
theorem Keeps.of_before (keeps : m.Keeps (h.before message)) (idle : m.Idle message) :
    m.Keeps h := by
  cases message with
  | expire root generation =>
    refine ⟨keeps.nodup, keeps.subscribed, ?_, keeps.unshared, keeps.alarmed, ?_⟩
    · intro other session ticket found stopped
      obtain ⟨hticket, hset | hlapsed⟩ := keeps.timed other session ticket found stopped
      · exact ⟨hticket, Or.inl hset⟩
      · rcases List.mem_cons.1 hlapsed with hsame | hstill
        · cases hsame
          obtain ⟨progress, running⟩ := idle session found rfl
          cases running.symm.trans stopped
        · exact ⟨hticket, Or.inr hstill⟩
    · exact fun expiry hexpiry => keeps.lapsed expiry (List.mem_cons_of_mem _ hexpiry)
  | _ => exact keeps

/-- A session that runs or is stopped is stopped, or stopped again. -/
theorem Keeps.stop (keeps : m.Keeps h) (numbered : m.Numbered) {session : Session}
    (found : m.sessions.get? root = some session) (stored : Nat) (graceless : Bool) :
    Keeps (m.halt root { session with stored }).1
      ((m.halt root { session with stored }).2.foldl (Holdings.perform graceless) h) := by
  have hfree : (m.sessions.erase root).get? root = none := Sessions.get?_erase_self _ _
  have hretired : Retired { m with sessions := m.sessions.erase root } session.generation := by
    refine ⟨numbered.below found, fun other => ?_⟩
    rw [Sessions.running?_erase]
    split
    · rfl
    · next hother => exact not_not.1 (mt (numbered.root_of_runs found) hother)
  have hhalted := (keeps.release numbered found graceless).halt hfree { session with stored }
    hretired graceless
  rwa [Manager.halt, Sessions.put_erase] at hhalted

/-- The books are kept by every move on a message, and what it wants done. -/
theorem Keeps.move (keeps : m.Keeps (h.before message)) (numbered : m.Numbered)
    (move : Move m message next effects) (graceless : Bool) :
    next.Keeps (effects.foldl (Holdings.perform graceless) h) := by
  cases move with
  | idle idle => exact keeps.of_before idle
  | start now root parameter =>
    cases hfound : m.sessions.get? root with
    | none =>
      have hbegun := keeps.begin hfound now parameter graceless
      rw [Manager.begin, hfound]
      exact hbegun
    | some session =>
      have hbegun := (keeps.release numbered hfound graceless).begin
        (Sessions.get?_erase_self _ _) now parameter graceless
      rw [Manager.begin, Sessions.put_erase] at hbegun
      rw [Manager.begin, hfound]
      exact hbegun
  | stop found => exact keeps.stop numbered found _ graceless
  | pursue ranges lastReport runs =>
    have hfetched : (ranges.flatMap Range.names).foldl (fun held _ => held) h = h :=
      List.foldl_fixed _
    rw [List.foldl_map]
    exact hfetched.symm ▸ keeps.resume runs _ _
  | again name outcome stored runs => exact keeps.resume runs _ _
  | exhaust name outcome stored runs =>
    exact keeps.stop numbered (Sessions.running?_eq_some_iff.1 runs).1 stored graceless
  | forget found stopped =>
    refine keeps.erase keeps.nodup (fun _ _ => keeps.subscribed_of_stopped found stopped)
      (List.Subset.refl _) (List.subset_cons_self _ _) ?_
    rintro other session ticket hother _ _ (hset | hlapsed)
    · exact Or.inl hset
    · rcases List.mem_cons.1 hlapsed with hsame | hstill
      · exact absurd (congrArg Prod.fst hsame) hother
      · exact Or.inr hstill

/-- The books are kept when timers go off: what they were to forget is to be forgotten next. -/
theorem Keeps.ring (keeps : m.Keeps h) {after : Holdings}
    (subscribed : after.subscribed = h.subscribed) (alarms : after.alarms ⊆ h.alarms)
    (kept : h.lapsed ⊆ after.lapsed)
    (rung : ∀ alarm ∈ h.alarms, alarm ∈ after.alarms ∨
      (alarm.root, alarm.generation) ∈ after.lapsed)
    (lapsed : ∀ expiry ∈ after.lapsed, expiry ∈ h.lapsed ∨
      ∃ alarm ∈ h.alarms, expiry = (alarm.root, alarm.generation)) : m.Keeps after := by
  refine ⟨subscribed ▸ keeps.nodup, ?_, ?_, keeps.unshared, ?_, ?_⟩
  · rw [subscribed]
    exact keeps.subscribed
  · intro root session ticket found stopped
    obtain ⟨hticket, hset | hlapsed⟩ := keeps.timed root session ticket found stopped
    · exact ⟨hticket, rung _ hset⟩
    · exact ⟨hticket, Or.inr (kept hlapsed)⟩
  · exact fun alarm halarm => keeps.alarmed alarm (alarms halarm)
  · intro expiry hexpiry
    rcases lapsed expiry hexpiry with hold | ⟨alarm, halarm, rfl⟩
    · exact keeps.lapsed expiry hold
    · exact (keeps.alarmed alarm halarm).2

/-- What is still subscribed to once sessions have let go of what they hold was so before, and no
session let go of it. -/
theorem subscribed_of_releases {effects : List Effect}
    (releases : ∀ effect ∈ effects, ∃ session, effect = release session) (graceless : Bool)
    {held : Name × Nat}
    (still : held ∈ (effects.foldl (Holdings.perform graceless) h).subscribed) :
    held ∈ h.subscribed ∧ .unsubscribe held.2 ∉ effects := by
  induction effects generalizing h with
  | nil => exact ⟨still, nofun⟩
  | cons effect effects ih =>
    obtain ⟨hheld, hothers⟩ := ih (fun e he => releases e (List.mem_cons_of_mem _ he)) still
    obtain ⟨session, rfl⟩ := releases _ List.mem_cons_self
    have hfirst : held ∈ h.subscribed ∧ Effect.unsubscribe held.2 ≠ Manager.release session := by
      unfold Manager.release at hheld ⊢
      split at hheld
      · obtain ⟨hwas, hkept⟩ := List.mem_filter.1 hheld
        refine ⟨hwas, fun hsame => of_decide_eq_true hkept ?_⟩
        exact Effect.unsubscribe.inj hsame
      · exact ⟨hheld, nofun⟩
    exact ⟨hfirst.1, fun h => (List.mem_cons.1 h).elim hfirst.2 hothers⟩

theorem releases_releaseAll (m : Manager) :
    ∀ effect ∈ m.releaseAll, ∃ session, effect = release session := by
  intro effect heffect
  obtain ⟨entry, _, rfl⟩ := List.mem_map.1 heffect
  exact ⟨entry.2, rfl⟩

/-- When all sessions let go, nothing is subscribed to any more. -/
theorem Keeps.releaseAll (keeps : m.Keeps h) (graceless : Bool) :
    (m.releaseAll.foldl (Holdings.perform graceless) h).subscribed = [] := by
  refine List.eq_nil_iff_forall_not_mem.2 fun held still => ?_
  obtain ⟨hheld, hkept⟩ := subscribed_of_releases m.releases_releaseAll graceless still
  obtain ⟨⟨session, progress⟩, hruns⟩ :=
    Option.ne_none_iff_exists'.1 ((keeps.subscribed held.1 held.2).1 hheld)
  obtain ⟨hfound, running, hgeneration⟩ := Sessions.running?_eq_some_iff.1 hruns
  refine hkept (List.mem_map.2 ⟨_, Sessions.mem_of_get? hfound, ?_⟩)
  rw [Manager.release, running]
  exact congrArg Effect.unsubscribe hgeneration

theorem distinct_of_move (move : Move m message next effects) (distinct : m.sessions.Distinct) :
    next.sessions.Distinct := by
  cases move with
  | idle _ => exact distinct
  | forget _ _ => exact distinct.erase _
  | _ => exact distinct.put _ _

/-- Only a start uses up the number of a generation. -/
theorem start_or_nextGeneration_eq (move : Move m message next effects) :
    (∃ root parameter, message = .start root parameter) ∨
      next.nextGeneration = m.nextGeneration := by
  cases move with
  | start now root parameter => exact Or.inl ⟨root, parameter, rfl⟩
  | _ => exact Or.inr rfl

end Manager

/-! ## What the manager has no part in -/

namespace Node

variable {σ : Type} {node : Node σ} {message : Message}

theorem holdings_of_queue {rest : List Message} (waits : node.queue = message :: rest) :
    node.holdings = ({ node with queue := rest }).holdings.before message := by
  unfold holdings Holdings.before
  rw [waits, List.filterMap_cons]
  cases message.expiry? <;> rfl

theorem holdings_report (node : Node σ) (root : Name) (batch : List Range) :
    ({ node with network := (node.network.report root batch).2 }).holdings = node.holdings := by
  unfold holdings Network.report Subscriptions.report
  simp only [List.map_map]
  congr 2
  funext sub
  simp only [Function.comp]
  split <;> rfl

theorem holdings_collect (node : Node σ) : node.collect.holdings = node.holdings := by
  have hmissing : (node.network.subscriptions.live.flatMap fun sub =>
      sub.waiting.map fun batch => Message.missing sub.root sub.id batch).filterMap
        Message.expiry? = [] := by
    rw [List.filterMap_eq_nil_iff]
    intro message hmessage
    obtain ⟨sub, _, hsub⟩ := List.mem_flatMap.1 hmessage
    obtain ⟨batch, _, rfl⟩ := List.mem_map.1 hsub
    rfl
  unfold holdings collect
  simp only [List.filterMap_append, hmissing, List.append_nil, List.map_map]
  rfl

/-- Timers that go off are no longer set, and what they forget is forgotten next. -/
theorem keeps_strike (keeps : node.manager.Keeps node.holdings) (due : Nat) :
    node.manager.Keeps (node.strike due).holdings := by
  have hexpiry : ∀ timer : Timer, timer.message.expiry? =
      timer.alarm?.map fun alarm => (alarm.root, alarm.generation) := by
    intro timer
    unfold Timer.alarm?
    cases timer.message <;> rfl
  have halarms : ∀ alarm, alarm ∈ (node.strike due).holdings.alarms ↔
      ∃ timer ∈ node.timers, timer.due ≠ due ∧ timer.alarm? = some alarm := by
    intro alarm
    simp [strike, holdings, and_assoc]
  have hlapsed : ∀ expiry, expiry ∈ (node.strike due).holdings.lapsed ↔
      expiry ∈ node.holdings.lapsed ∨ ∃ timer ∈ node.timers, timer.due = due ∧
        ∃ alarm, timer.alarm? = some alarm ∧ (alarm.root, alarm.generation) = expiry := by
    intro expiry
    simp [strike, holdings, List.filterMap_map, Function.comp_def, hexpiry, and_assoc]
  refine keeps.ring rfl ?_ ?_ ?_ ?_
  · intro alarm halarm
    obtain ⟨timer, htimer, _, hsame⟩ := (halarms alarm).1 halarm
    exact List.mem_filterMap.2 ⟨timer, htimer, hsame⟩
  · exact fun expiry hexpiry => (hlapsed expiry).2 (Or.inl hexpiry)
  · intro alarm halarm
    obtain ⟨timer, htimer, hsame⟩ := List.mem_filterMap.1 halarm
    by_cases hdue : timer.due = due
    · exact Or.inr ((hlapsed _).2 (Or.inr ⟨timer, htimer, hdue, alarm, hsame, rfl⟩))
    · exact Or.inl ((halarms alarm).2 ⟨timer, htimer, hdue, hsame⟩)
  · intro expiry hexpiry
    rcases (hlapsed expiry).1 hexpiry with hold | ⟨timer, htimer, _, alarm, hsame, rfl⟩
    · exact Or.inl hold
    · exact Or.inr ⟨alarm, List.mem_filterMap.2 ⟨timer, htimer, hsame⟩, rfl⟩

/-! ## What the holdings tell -/

theorem mem_alarms_iff {ticket : Option Nat} {root : Name} {generation : Nat} :
    ⟨ticket, root, generation⟩ ∈ node.holdings.alarms ↔
      ∃ timer ∈ node.timers, timer.ticket = ticket ∧
        timer.message = .expire root generation := by
  refine List.mem_filterMap.trans (exists_congr fun timer => and_congr_right fun _ => ?_)
  obtain ⟨due, set, message⟩ := timer
  cases message <;> simp [Timer.alarm?]

theorem mem_lapsed_iff {root : Name} {generation : Nat} :
    (root, generation) ∈ node.holdings.lapsed ↔ .expire root generation ∈ node.queue := by
  refine List.mem_filterMap.trans ⟨?_, fun waits => ⟨_, waits, rfl⟩⟩
  rintro ⟨message, waits, hsame⟩
  cases message <;> cases hsame
  exact waits

/-- Where no session runs, nothing is subscribed to. -/
theorem count_of_idle (keeps : node.manager.Keeps node.holdings) {root : Name}
    (idle : ∀ generation, node.manager.sessions.running? root generation = none) :
    node.network.subscriptions.count root = 0 := by
  refine List.countP_eq_zero.2 fun sub hsub => ?_
  intro hroot
  obtain rfl := of_decide_eq_true hroot
  exact (keeps.subscribed _ _).1 (List.mem_map_of_mem hsub) (idle sub.id)

/-- A session that runs is subscribed to, and no other under its root name. -/
theorem count_of_running (keeps : node.manager.Keeps node.holdings) {root : Name}
    {generation : Nat} (runs : node.manager.sessions.running? root generation ≠ none) :
    node.network.subscriptions.count root = 1 ∧
      ∀ sub ∈ node.network.subscriptions.live, sub.root = root → sub.id = generation := by
  have hown : ∀ held ∈ node.holdings.subscribed, held.1 = root → held.2 = generation := by
    rintro ⟨other, ran⟩ hheld rfl
    obtain ⟨running, hrunning⟩ :=
      Option.ne_none_iff_exists'.1 ((keeps.subscribed other ran).1 hheld)
    exact Sessions.generation_eq_of_running? runs hrunning
  constructor
  · have hcount : node.network.subscriptions.count root =
        node.holdings.subscribed.count (root, generation) := by
      rw [holdings, List.count, List.countP_map]
      refine List.countP_congr fun sub hsub => ?_
      rw [decide_eq_true_iff, Function.comp_apply, beq_iff_eq, Prod.mk.injEq]
      exact (and_iff_left_of_imp (hown _ (List.mem_map_of_mem hsub))).symm
    rw [hcount]
    exact List.count_eq_one_of_mem keeps.nodup ((keeps.subscribed _ _).2 runs)
  · exact fun sub hsub hroot => hown _ (List.mem_map_of_mem hsub) hroot

end Node

end NamedData.Sync
