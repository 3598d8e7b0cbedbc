import NamedData.Proofs.Sync.Manager
/-!
# The log of a manager

What a manager has handled, turn by turn: each message with the manager and the repository that it
found, and when. Messages come in any order, and others may have changed the repository in between.
A condition says which messages are allowed to come after a log.

    Run allowed (log ++ [o]) m → m = o.result.manager                              (Run.of_snoc)
    Run allowed log m → generations are below the next, each under one root    (Run.numbered)
-/

namespace NamedData.Sync

/-- A message, when it comes, and the manager and the repository that it finds. -/
structure Occasion (σ : Type) where
  manager : Manager
  now : Nat
  repo : Repo σ
  message : Message

/-- A request that the session of a generation makes. -/
structure Errand where
  root : Name
  generation : Nat
  interest : Interest
deriving DecidableEq

/-- The request that is to be sent, with all that it asks, if that is what is to be done. -/
def Effect.errand? : Effect → Option Errand
  | .fetch root generation interest => some ⟨root, generation, interest⟩
  | _ => none

/-- The request of an errand, by its name alone. -/
def Errand.request (errand : Errand) : Request :=
  ⟨errand.root, errand.generation, errand.interest.name⟩

theorem Effect.errand?_eq_some_iff {effect : Effect} {errand : Errand} :
    effect.errand? = some errand ↔
      effect = .fetch errand.root errand.generation errand.interest := by
  constructor
  · intro h
    cases effect with
    | fetch _ _ _ =>
      cases h
      rfl
    | _ => cases h
  · rintro rfl
    rfl

theorem requests_eq_map (effects : List Effect) :
    effects.filterMap Effect.request? =
      (effects.filterMap Effect.errand?).map Errand.request := by
  have hpart : Effect.request? = fun effect => effect.errand?.map Errand.request := by
    funext effect
    cases effect <;> rfl
  rw [List.map_filterMap, hpart]

namespace Manager

/-- Whether sessions have generations below the next, and no two have the same. -/
structure Numbered (m : Manager) : Prop where
  below : ∀ {root session}, m.sessions.get? root = some session →
    session.generation < m.nextGeneration
  unique : ∀ {root other a b}, m.sessions.get? root = some a → m.sessions.get? other = some b →
    a.generation = b.generation → root = other

variable {m next : Manager} {message : Message} {effects : List Effect}

theorem numbered_empty : Numbered .empty := ⟨nofun, nofun⟩

theorem Numbered.below_of_runs (h : m.Numbered) {root : Name} {generation : Nat}
    (runs : m.sessions.running? root generation ≠ none) : generation < m.nextGeneration := by
  obtain ⟨⟨session, progress⟩, hruns⟩ := Option.ne_none_iff_exists'.1 runs
  obtain ⟨hfound, _, rfl⟩ := Sessions.running?_eq_some_iff.1 hruns
  exact h.below hfound

/-- A generation runs under the root name of its session alone. -/
theorem Numbered.root_of_runs (h : m.Numbered) {root other : Name} {session : Session}
    (found : m.sessions.get? root = some session)
    (runs : m.sessions.running? other session.generation ≠ none) : other = root := by
  obtain ⟨⟨running, progress⟩, hruns⟩ := Option.ne_none_iff_exists'.1 runs
  obtain ⟨hrunning, _, hsame⟩ := Sessions.running?_eq_some_iff.1 hruns
  exact h.unique hrunning found hsame

theorem Numbered.move (h : m.Numbered) (move : Move m message next effects) : next.Numbered := by
  constructor
  · intro root session found
    rcases generation_of_move move found with ⟨was, hwas, hsame⟩ | hbegun
    · rw [← hsame]
      exact Nat.lt_of_lt_of_le (h.below hwas) (nextGeneration_le_of_move move)
    · obtain ⟨_, hnew, hnext⟩ := generation_of_subscribe move hbegun
      rw [hnext, hnew]
      exact Nat.lt_succ_self _
  · intro root other a b ha hb hsame
    rcases generation_of_move move ha with ⟨wasA, hwasA, hsameA⟩ | hbegunA <;>
      rcases generation_of_move move hb with ⟨wasB, hwasB, hsameB⟩ | hbegunB
    · exact h.unique hwasA hwasB (hsameA.trans (hsame.trans hsameB.symm))
    · -- a new generation is not that of a session that was there
      have hbelow := h.below hwasA
      rw [hsameA, hsame, (generation_of_subscribe move hbegunB).2.1] at hbelow
      exact absurd hbelow (Nat.lt_irrefl _)
    · have hbelow := h.below hwasB
      rw [hsameB, ← hsame, (generation_of_subscribe move hbegunA).2.1] at hbelow
      exact absurd hbelow (Nat.lt_irrefl _)
    · rw [(generation_of_subscribe move hbegunA).1, (generation_of_subscribe move hbegunB).1]

end Manager

section

variable {σ : Type} [Store.Backend σ]

/-- What handling the message gives. -/
def Occasion.result (o : Occasion σ) : Turn σ := o.manager.handle o.now o.repo o.message

/-- Whether a manager has had the turns of a log, the first on a fresh manager, each on a message
that was allowed to come then, and could go on after each. -/
inductive Run (allowed : List (Occasion σ) → Occasion σ → Prop) :
    List (Occasion σ) → Manager → Prop where
  | fresh : Run allowed [] .empty
  | turn {log : List (Occasion σ)} {o : Occasion σ} : Run allowed log o.manager →
    allowed log o → o.result.failure = none → Run allowed (log ++ [o]) o.result.manager

namespace Run

variable {allowed : List (Occasion σ) → Occasion σ → Prop} {log : List (Occasion σ)} {m : Manager}

/-- The last turn of a run. -/
theorem of_snoc {o : Occasion σ} (run : Run allowed (log ++ [o]) m) :
    Run allowed log o.manager ∧ allowed log o ∧ o.result.failure = none ∧
      m = o.result.manager := by
  generalize hlog : log ++ [o] = all at run
  cases run with
  | fresh => exact absurd hlog (List.append_ne_nil_of_right_ne_nil _ (List.cons_ne_nil _ _))
  | turn before arrives going =>
    obtain ⟨rfl, hlast⟩ := List.append_inj' hlog rfl
    obtain rfl := List.head_eq_of_cons_eq hlast
    exact ⟨before, arrives, going, rfl⟩

/-- The manager could go on after every turn. -/
theorem going_of_mem (run : Run allowed log m) {o : Occasion σ} (h : o ∈ log) :
    o.result.failure = none := by
  induction run with
  | fresh => cases h
  | turn _ _ going ih =>
    rcases List.mem_append.1 h with hold | hlast
    · exact ih hold
    · rwa [List.mem_singleton.1 hlast]

theorem numbered (run : Run allowed log m) : m.Numbered := by
  induction run with
  | fresh => exact Manager.numbered_empty
  | @turn _ o _ _ going ih => exact ih.move (o.manager.move_handle o.now o.repo o.message going)

end Run

end

end NamedData.Sync
