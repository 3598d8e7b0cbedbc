import Mathlib.Logic.Relation
import NamedData.Proofs.Sync.Manager
/-!
# The manager among its messages

A `System` is a manager together with the requests it is waiting for and the turns it has had.
Messages arrive in any order and at any time, and find the repository, which others use too, in
any state. A report can arrive from every subscription ever made, even from one that has ended
since; the outcome of a request once for every time that it was sent; a timer may go off late, or
for nothing. A turn after which the manager cannot go on is no step.

    Orderly s → s.CanArrive msg → Orderly (s after a move on msg)       (orderly_after)
    Reachable σ s → Orderly s                                           (orderly_of_reachable)
-/

namespace NamedData.Sync

/-- A message that was handled, and what was to be done then. -/
structure Handled where
  message : Message
  effects : List Effect
deriving DecidableEq

/-- A manager, the requests that are out, and the turns so far, oldest first. -/
structure System where
  manager : Manager
  outstanding : List Request
  history : List Handled
deriving DecidableEq

namespace System

/-- A manager that has had no turn. -/
def fresh : System := ⟨.empty, [], []⟩

/-- All that was ever to be done. -/
def effects (s : System) : List Effect := s.history.flatMap Handled.effects

/-- All requests that were ever sent. -/
def requests (s : System) : List Request := s.effects.filterMap Effect.request?

/-- Whether a generation was begun under a root name. -/
def Begun (s : System) (root : Name) (generation : Nat) : Prop :=
  Effect.subscribe root generation ∈ s.effects

/-- Whether a message can arrive next. -/
def CanArrive (s : System) : Message → Prop
  | .missing root generation _ => s.Begun root generation
  | .fetched root generation name _ => ⟨root, generation, name⟩ ∈ s.outstanding
  | _ => True

/-- The requests that are still out once a message has arrived. -/
def remaining (s : System) : Message → List Request
  | .fetched root generation name _ => s.outstanding.erase ⟨root, generation, name⟩
  | _ => s.outstanding

/-- The system after a turn. -/
def after (s : System) (message : Message) (manager : Manager) (effects : List Effect) :
    System where
  manager := manager
  outstanding := s.remaining message ++ effects.filterMap Effect.request?
  history := s.history ++ [⟨message, effects⟩]

section

variable {σ : Type} [Store.Backend σ]

/-- The system after the manager has handled a message. -/
def turn (s : System) (now : Nat) (repo : Repo σ) (message : Message) : System :=
  s.after message (s.manager.handle now repo message).manager
    (s.manager.handle now repo message).effects

variable (σ)

/-- One turn, on any message that can arrive, if the manager goes on after it. -/
inductive Step (s : System) : System → Prop where
  | turn (now : Nat) (repo : Repo σ) (message : Message) : s.CanArrive message →
    (s.manager.handle now repo message).failure = none → Step s (s.turn now repo message)

/-- Whether a system comes about from a fresh manager. -/
def Reachable (s : System) : Prop := Relation.ReflTransGen (Step σ) fresh s

end

variable {σ : Type} [Store.Backend σ]

/-- A step is a move of the manager. -/
theorem move_of_step {s t : System} (step : Step σ s t) :
    ∃ message manager effects, s.CanArrive message ∧ s.manager.Move message manager effects ∧
      t = s.after message manager effects := by
  obtain ⟨now, repo, message, arrives, going⟩ := step
  exact ⟨message, _, _, arrives, s.manager.move_handle now repo message going, rfl⟩

/-! ## Generations -/

/-- Generations are numbered one after another, each under one root name, and all that is there
or under way belongs to one that was begun. -/
structure Orderly (s : System) : Prop where
  below : ∀ root generation, s.Begun root generation → generation < s.manager.nextGeneration
  unique : ∀ root other generation, s.Begun root generation → s.Begun other generation →
    root = other
  session : ∀ root session, s.manager.sessions.get? root = some session →
    s.Begun root session.generation
  reported : ∀ turn ∈ s.history, ∀ root generation ranges,
    turn.message = .missing root generation ranges → s.Begun root generation
  asked : ∀ request ∈ s.requests, s.Begun request.root request.generation
  pending : ∀ request ∈ s.outstanding, s.Begun request.root request.generation

variable {s : System} {message : Message} {manager : Manager} {effects : List Effect}

theorem effects_after : (s.after message manager effects).effects = s.effects ++ effects := by
  simp [System.effects, after]

theorem requests_after : (s.after message manager effects).requests =
    s.requests ++ effects.filterMap Effect.request? := by
  rw [requests, effects_after, List.filterMap_append, requests]

theorem begun_after {root : Name} {generation : Nat} :
    (s.after message manager effects).Begun root generation ↔
      s.Begun root generation ∨ Effect.subscribe root generation ∈ effects := by
  rw [Begun, effects_after, List.mem_append, Begun]

theorem remaining_subset {request : Request} (h : request ∈ s.remaining message) :
    request ∈ s.outstanding := by
  cases message with
  | fetched _ _ _ _ => exact List.mem_of_mem_erase h
  | _ => exact h

theorem orderly_fresh : Orderly fresh := by
  constructor <;> nofun

/-- A session that runs was begun. -/
theorem Orderly.begun_of_runs (h : Orderly s) {root : Name} {generation : Nat}
    (runs : s.manager.sessions.running? root generation ≠ none) : s.Begun root generation := by
  obtain ⟨⟨session, progress⟩, hruns⟩ := Option.ne_none_iff_exists'.1 runs
  obtain ⟨hfound, _, rfl⟩ := Sessions.running?_eq_some_iff.1 hruns
  exact h.session root session hfound

/-- No step brings the generations into disorder. -/
theorem orderly_after (h : Orderly s) (arrives : s.CanArrive message)
    (move : s.manager.Move message manager effects) :
    Orderly (s.after message manager effects) := by
  have hsent : ∀ request ∈ effects.filterMap Effect.request?,
      s.Begun request.root request.generation := fun request hrequest =>
    h.begun_of_runs (Manager.runs_of_request move hrequest).2
  refine ⟨?_, ?_, ?_, ?_, ?_, ?_⟩
  · intro root generation hbegun
    rcases begun_after.1 hbegun with hold | hnew
    · exact Nat.lt_of_lt_of_le (h.below root generation hold)
        (Manager.nextGeneration_le_of_move move)
    · obtain ⟨_, rfl, hnext⟩ := Manager.generation_of_subscribe move hnew
      exact hnext ▸ Nat.lt_succ_self _
  · intro root other generation hroot hother
    rcases begun_after.1 hroot with hroot | hroot <;>
      rcases begun_after.1 hother with hother | hother
    · exact h.unique root other generation hroot hother
    · have hbelow := h.below root generation hroot
      rw [(Manager.generation_of_subscribe move hother).2.1] at hbelow
      exact absurd hbelow (Nat.lt_irrefl _)
    · have hbelow := h.below other generation hother
      rw [(Manager.generation_of_subscribe move hroot).2.1] at hbelow
      exact absurd hbelow (Nat.lt_irrefl _)
    · rw [(Manager.generation_of_subscribe move hroot).1,
        (Manager.generation_of_subscribe move hother).1]
  · intro root session hfound
    rcases Manager.generation_of_move move hfound with ⟨was, hwas, hsame⟩ | hbegun
    · exact begun_after.2 (Or.inl (hsame ▸ h.session root was hwas))
    · exact begun_after.2 (Or.inr hbegun)
  · intro turn hturn root generation ranges hmessage
    rcases List.mem_append.1 hturn with hturn | hturn
    · exact begun_after.2 (Or.inl (h.reported turn hturn root generation ranges hmessage))
    · rw [List.mem_singleton.1 hturn] at hmessage
      obtain rfl := hmessage
      exact begun_after.2 (Or.inl arrives)
  · intro request hrequest
    rw [requests_after] at hrequest
    rcases List.mem_append.1 hrequest with hold | hnew
    · exact begun_after.2 (Or.inl (h.asked request hold))
    · exact begun_after.2 (Or.inl (hsent request hnew))
  · intro request hrequest
    rcases List.mem_append.1 hrequest with hold | hnew
    · exact begun_after.2 (Or.inl (h.pending request (remaining_subset hold)))
    · exact begun_after.2 (Or.inl (hsent request hnew))

theorem orderly_of_step {t : System} (h : Orderly s) (step : Step σ s t) : Orderly t := by
  obtain ⟨message, manager, effects, arrives, move, rfl⟩ := move_of_step step
  exact orderly_after h arrives move

theorem orderly_of_reachable (h : Reachable σ s) : Orderly s := by
  induction h with
  | refl => exact orderly_fresh
  | tail _ step ih => exact orderly_of_step ih step

end System

end NamedData.Sync
