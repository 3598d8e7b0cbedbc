import Mathlib.Data.List.Perm.Subperm
import NamedData.Proofs.Store.Presence
/-!
# A repository that holds less

Of two repositories on stores of one kind and capacity, one may hold all that the other does, the
same names being blocked in both. The smaller has more room, and what the larger does not refuse it
does not refuse either, not even a packet that the larger holds already. So both can go on together,
and the larger stays so.

    Covers a b → a takes a packet → b takes it, and Covers holds after that         (Covers.insert)
    Covers a b → Covers holds after both delete a name                              (Covers.delete)
-/

namespace NamedData

open Store

namespace Repo

/-- Whether one repository holds all that another does and blocks the same names, both on stores of
one kind and capacity. -/
structure Covers (larger smaller : Repo Storage) : Prop where
  inStep : larger.backend.InStep
  inStep' : smaller.backend.InStep
  kind : smaller.backend.kind = larger.backend.kind
  capacity : smaller.backend.index.capacity = larger.backend.index.capacity
  names : smaller.backend.names ⊆ larger.backend.names
  blocks : ∀ name, smaller.backend.Blocks name ↔ larger.backend.Blocks name

variable {larger smaller : Repo Storage} {data : Data}

theorem Covers.refl (h : larger.backend.InStep) : Covers larger larger :=
  ⟨h, h, rfl, rfl, List.Subset.refl _, fun _ => Iff.rfl⟩

/-- A packet that is there or has room in the larger repository has room in the smaller. -/
theorem Covers.takes (h : Covers larger smaller)
    (taken : data.fullName ∈ larger.backend.names ∨ larger.backend.Takes data)
    (absent : data.fullName ∉ smaller.backend.names) : smaller.backend.Takes data := by
  unfold Storage.Takes
  rw [h.capacity]
  rcases taken with present | ⟨nonempty, room⟩
  · refine ⟨?_, ?_⟩
    · have hlong := h.inStep.proper.long _ present
      rw [data.length_fullName] at hlong
      exact List.isEmpty_eq_false_iff.2 (List.length_pos_iff.1 (by omega))
    · -- the larger holds the packet and all that the smaller holds
      have hmore : (data.fullName :: smaller.backend.names).length ≤
          larger.backend.names.length :=
        (List.subperm_of_subset (List.nodup_cons.2 ⟨absent, smaller.backend.nodup_names⟩)
          (List.cons_subset.2 ⟨present, h.names⟩)).length_le
      exact Nat.lt_of_lt_of_le hmore h.inStep.proper.room
  · exact ⟨nonempty, Nat.lt_of_le_of_lt
      (List.subperm_of_subset smaller.backend.nodup_names h.names).length_le room⟩

/-- Whatever the larger repository is given alone, it holds as much as before. -/
theorem Covers.insert_left (h : Covers larger smaller) (small : data.InMemory) :
    Covers (larger.insert data).2 smaller := by
  by_cases present : data.fullName ∈ larger.backend.names
  · rw [insert_of_mem present]
    exact h
  by_cases takes : larger.backend.Takes data
  · by_cases blocked : larger.backend.Blocks data.fullName
    · rw [insert_of_blocks blocked takes]
      exact h
    · obtain ⟨newId, after, hdone, halters, _⟩ :=
        insert_of_takes h.inStep small (not_or.2 ⟨present, blocked⟩) takes
      rw [hdone]
      exact ⟨halters.inStep, h.inStep', h.kind.trans halters.kind.symm,
        h.capacity.trans halters.capacity.symm,
        fun name hname => (halters.names name).2 (Or.inr (h.names hname)),
        fun name => (h.blocks name).trans (halters.blocks name).symm⟩
  · obtain ⟨cause, hrefused⟩ := insert_of_not_takes h.inStep present takes
    rw [hrefused]
    exact h

/-- A packet that was not refused was there, or there was room for it. -/
theorem taken_of_insert (h : larger.backend.InStep) {outcome : InsertOutcome}
    {after : Repo Storage} (done : larger.insert data = (.ok outcome, after)) :
    data.fullName ∈ larger.backend.names ∨ larger.backend.Takes data := by
  by_contra refused
  obtain ⟨absent, takes⟩ := not_or.1 refused
  obtain ⟨cause, hrefused⟩ := insert_of_not_takes h absent takes
  rw [hrefused] at done
  cases done

/-- A packet that the larger repository does not refuse is not refused by the smaller either. -/
theorem Covers.insert (h : Covers larger smaller) (small : data.InMemory)
    {outcome : InsertOutcome} {after : Repo Storage}
    (done : larger.insert data = (.ok outcome, after)) :
    ∃ outcome' after', smaller.insert data = (.ok outcome', after') ∧ Covers after after' := by
  have hafter : Covers after smaller := by
    have hleft := h.insert_left small
    rwa [done] at hleft
  by_cases present : data.fullName ∈ smaller.backend.names
  · exact ⟨_, _, insert_of_mem present, hafter⟩
  have htakes := h.takes (taken_of_insert h.inStep done) present
  by_cases blocked : smaller.backend.Blocks data.fullName
  · exact ⟨_, _, insert_of_blocks blocked htakes, hafter⟩
  · obtain ⟨newId, after', hdone, halters, _⟩ :=
      insert_of_takes h.inStep' small (not_or.2 ⟨present, blocked⟩) htakes
    refine ⟨_, after', hdone, hafter.inStep, halters.inStep, halters.kind.trans hafter.kind,
      halters.capacity.trans hafter.capacity, ?_,
      fun name => (halters.blocks name).trans (hafter.blocks name)⟩
    intro name hname
    rcases (halters.names name).1 hname with rfl | hold
    · exact (mem_of_insert_iff done).2 (mt (h.blocks _).2 blocked)
    · exact hafter.names hold

theorem Covers.delete (h : Covers larger smaller) (q : Name) :
    Covers (larger.delete q).2 (smaller.delete q).2 := by
  have halters := delete_alters h.inStep q
  have halters' := delete_alters h.inStep' q
  refine ⟨halters.inStep, halters'.inStep, ?_, ?_, ?_, ?_⟩
  · rw [halters'.kind, halters.kind, h.kind]
  · rw [halters'.capacity, halters.capacity, h.capacity]
  · intro name hname
    obtain ⟨hold, hkept⟩ := (halters'.names name).1 hname
    exact (halters.names name).2 ⟨h.names hold, h.kind ▸ hkept⟩
  · intro name
    rw [halters'.blocks, halters.blocks, h.blocks, h.kind]

end Repo

end NamedData
