import NamedData.Proofs.Repo.Events
import NamedData.Proofs.Store.Presence
/-!
# What a repository keeps

A repository on any store that is in step with its rows, some of which may be unreadable. Whatever
is asked of it, and whichever operations of its store fail then, a name that is there stays there,
and one that is blocked stays blocked, until an event tells that a packet under it was removed.

    an insertion takes no name away                                            (retains_insert)
    a deletion sends an event for every name that it takes away            (retains_deleteFrom)
    repo.Use after → Retains repo events after, for some events                (retains_of_use)
-/

namespace NamedData

open Store

namespace Store.Faulty

/-- An erasure reaches the store, or it does not and erases nothing. -/
theorem erase_cases (store : Faulty Storage) (name : Name) :
    (∃ result, result ≠ .ok true ∧ Backend.erase store name = (result, store)) ∨
      Backend.erase store name =
        (Backend.erase store.inner name).map id ({ store with inner := · }) := by
  cases hplanned : Fault.planned store.plan .erase name with
  | true => exact Or.inl (erase_of_planned hplanned)
  | false => exact Or.inr (erase_of_not_planned hplanned)

end Store.Faulty

namespace Repo

/-- Whether the packet of a call, if it has one, has a name that is in memory. -/
def Call.InMemory : Call → Prop
  | insert data => data.InMemory
  | delete _ => True

/-- One call with any packet that there can be, with operations of the store failing or not. -/
inductive Use (repo : Repo Storage) : Repo Storage → Prop where
  | answer (call : Call) : call.InMemory → Use repo (repo.answer call).2
  | despite (plan : List Fault) (call : Call) : call.InMemory →
    Use repo ((repo.faulty plan).answer call).2.sane

/-- Whether a repository comes after another: a name that was there is still there, and one that was
blocked still blocked, or the removal of a packet under it is among the events sent since. -/
structure Retains (before : Repo Storage) (events : List Event) (after : Repo Storage) : Prop where
  inStep : after.backend.InStep
  sent : after.sent = before.sent ++ events
  names : ∀ name ∈ before.backend.names,
    name ∈ after.backend.names ∨ .deleted name.withoutDigest ∈ events
  blocks : ∀ name, before.backend.Blocks name →
    after.backend.Blocks name ∨ .deleted name.withoutDigest ∈ events

namespace Retains

variable {repo between after : Repo Storage} {events later : List Event}

theorem refl (h : repo.backend.InStep) : Retains repo [] repo :=
  ⟨h, (List.append_nil _).symm, fun _ => Or.inl, fun _ => Or.inl⟩

theorem trans (first : Retains repo events between) (second : Retains between later after) :
    Retains repo (events ++ later) after := by
  refine ⟨second.inStep, ?_, ?_, ?_⟩
  · rw [second.sent, first.sent, List.append_assoc]
  · intro name hname
    rcases first.names name hname with hstays | hgone
    · exact (second.names name hstays).imp_right (List.mem_append_right _)
    · exact Or.inr (List.mem_append_left _ hgone)
  · intro name blocked
    rcases first.blocks name blocked with hstays | hgone
    · exact (second.blocks name hstays).imp_right (List.mem_append_right _)
    · exact Or.inr (List.mem_append_left _ hgone)

/-- Erasing a name takes no other away, and that one with an event if it is there or blocked. -/
theorem of_erase {name : Name}
    (alters : repo.backend.Alters (fun other => other ∈ repo.backend.names ∧ other ≠ name)
      (fun other => repo.backend.Blocks other ∧ other ≠ name) after.backend)
    (sent : after.sent = repo.sent ++ events)
    (told : repo.backend.Taken name → .deleted name.withoutDigest ∈ events) :
    Retains repo events after := by
  refine ⟨alters.inStep, sent, ?_, ?_⟩
  · intro other hother
    by_cases hsame : other = name
    · subst hsame
      exact Or.inr (told (Or.inl hother))
    · exact Or.inl ((alters.names other).2 ⟨hother, hsame⟩)
  · intro other blocked
    by_cases hsame : other = name
    · subst hsame
      exact Or.inr (told (Or.inr blocked))
    · exact Or.inl ((alters.blocks other).2 ⟨blocked, hsame⟩)

end Retains

variable {repo : Repo Storage}

/-- Under any plan an insertion adds a name or changes nothing. -/
theorem retains_insert_faulty (h : repo.backend.InStep) (plan : List Fault) {data : Data}
    (small : data.InMemory) :
    ∃ events, Retains repo events ((repo.faulty plan).insert data).2.sane := by
  rcases repo.insert_faulty_cases plan data with hsame | ⟨result, backend, hinsert, hafter⟩
  · rw [hsame]
    exact ⟨[], .refl h⟩
  rw [hafter]
  by_cases refused : repo.backend.Taken data.fullName ∨ ¬repo.backend.Takes data
  · obtain ⟨cause, hrefused, _⟩ := h.insert_of_not_takes refused
    cases hinsert.symm.trans hrefused
    exact ⟨[], .refl h⟩
  · obtain ⟨free, takes⟩ := not_or.1 refused
    obtain ⟨newId, _, hdone, halters, _⟩ := h.insert_of_takes small free (not_not.1 takes)
    cases hinsert.symm.trans hdone
    exact ⟨[.inserted data.name], halters.inStep, rfl,
      fun name hname => Or.inl ((halters.names name).2 (Or.inr hname)),
      fun name blocked => Or.inl ((halters.blocks name).2 blocked)⟩

theorem retains_insert (h : repo.backend.InStep) {data : Data} (small : data.InMemory) :
    ∃ events, Retains repo events (repo.insert data).2 := by
  have hsame : ((repo.faulty []).insert data).2.sane = (repo.insert data).2 := by
    rw [insert_faulty_nil]
    rfl
  exact hsame ▸ retains_insert_faulty h [] small

/-- Under any plan a deletion takes away names with an event for each. -/
theorem retains_deleteFrom {repo : Repo (Faulty Storage)} (h : repo.sane.backend.InStep)
    (q : Name) (n : Nat) : ∃ events, Retains repo.sane events (repo.deleteFrom q n).2.sane := by
  fun_induction repo.deleteFrom q n with
  | case1 repo n cause hfound => exact ⟨[], .refl h⟩
  | case2 repo n hfound => exact ⟨[], .refl h⟩
  | case3 repo n found hfound backend hgone ih =>
    obtain ⟨erased, after, herased, _, halters⟩ := h.erase_eq found.name
    rcases repo.backend.erase_cases found.name with ⟨result, hnot, hkept⟩ | hreached
    · exact absurd (congrArg Prod.fst (hkept.symm.trans hgone)) hnot
    · -- the round takes away the name that was found, and tells so
      have hinner : backend.inner = after := by
        have hstores := congrArg Prod.snd (hgone.symm.trans hreached)
        rw [show repo.backend.inner = repo.sane.backend from rfl, herased] at hstores
        exact congrArg Faulty.inner hstores
      subst hinner
      have hround : Retains repo.sane [.deleted found.name.withoutDigest]
          (sane ⟨backend, repo.sent ++ [.deleted found.name.withoutDigest]⟩) :=
        .of_erase halters rfl fun _ => List.mem_cons_self
      obtain ⟨events, hrest⟩ := ih hround.inStep
      exact ⟨_, hround.trans hrest⟩
  | case4 repo n found hfound result backend hkept hgone =>
    obtain ⟨erased, after, herased, htaken, halters⟩ := h.erase_eq found.name
    rcases repo.backend.erase_cases found.name with ⟨_, _, hsame⟩ | hreached
    · obtain rfl := congrArg Prod.snd (hgone.symm.trans hsame)
      exact ⟨[], .refl h⟩
    · -- nothing was erased, as the name was not there
      rw [show repo.backend.inner = repo.sane.backend from rfl, herased] at hreached
      obtain ⟨rfl, rfl⟩ := Prod.ext_iff.1 (hgone.symm.trans hreached)
      exact ⟨[], .of_erase halters (List.append_nil _).symm fun taken =>
        absurd (congrArg Except.ok (htaken.2 taken)) hkept⟩

theorem retains_of_use {after : Repo Storage} (h : repo.backend.InStep) (use : Use repo after) :
    ∃ events, Retains repo events after := by
  have hany : ∀ (plan : List Fault) (call : Call), call.InMemory →
      ∃ events, Retains repo events ((repo.faulty plan).answer call).2.sane := by
    intro plan call small
    cases call with
    | insert data => exact retains_insert_faulty h plan small
    | delete q =>
      have hsane : (repo.faulty plan).sane.backend.InStep := h
      exact retains_deleteFrom hsane q 0
  cases use with
  | answer call small => exact answer_faulty_nil repo call ▸ hany [] call small
  | despite plan call small => exact hany plan call small

end Repo

end NamedData
