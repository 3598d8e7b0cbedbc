import NamedData.Name.Basic
/-!
# The order of names

Components and names are linearly ordered: `compare` is transitive, and finds two of them equal
only if they are the same. The instances below are what sorted containers of names ask for.
-/

namespace NamedData

open Std

instance : TransOrd Component :=
  inferInstanceAs (TransCmp (compareLex (compareOn Component.typ)
    (compareLex (compareOn fun c => c.value.length) (compareOn Component.value))))

instance : LawfulEqOrd Component where
  eq_of_compare := by
    intro a b same
    obtain ⟨hTyp, same⟩ := compareLex_eq_eq.1 same
    obtain ⟨_, hValue⟩ := compareLex_eq_eq.1 same
    cases a; cases b
    simp only [compareOn] at hTyp hValue
    cases LawfulEqOrd.eq_of_compare hTyp
    cases LawfulEqOrd.eq_of_compare hValue
    rfl

instance : TransOrd Name :=
  inferInstanceAs (TransCmp (compareOn Name.components))

instance : LawfulEqOrd Name where
  eq_of_compare := by
    intro a b same
    have same : compare a.components b.components = .eq := same
    cases a; cases b
    cases LawfulEqOrd.eq_of_compare same
    rfl

end NamedData
