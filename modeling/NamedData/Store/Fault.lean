import NamedData.Store.Backend
/-!
# A store that fails on purpose

`Faulty` wraps a store together with a plan of faults. An operation that the plan names for its
name fails, or gives a wrong answer, and does not reach the store; all others do.
-/

namespace NamedData.Store

/-- The operations that can fail. -/
inductive Fault.Method where
  | insert
  | erase
  | read
  | has
  | find
  | size
deriving DecidableEq, Repr

/-- How an operation fails. -/
inductive Fault.Mode where
  /-- The medium fails. -/
  | io
  /-- A question is answered with no, an erasure with none. -/
  | answerFalse
  /-- An insertion is called a duplicate. -/
  | duplicate
deriving DecidableEq, Repr

/-- One entry of a plan. For an insertion the name is that of the packet without its digest, for
the size it is the empty name. -/
structure Fault where
  method : Fault.Method
  name : Name
  mode : Fault.Mode
deriving DecidableEq, Repr

/-- A store and a plan. -/
structure Faulty (σ : Type) where
  inner : σ
  plan : List Fault

namespace Faulty

variable {σ : Type}

/-- How an operation is to fail: the first entry of the plan for it counts. -/
def mode? (store : Faulty σ) (method : Fault.Method) (name : Name) : Option Fault.Mode :=
  (store.plan.find? fun fault => fault.method = method ∧ fault.name = name).map Fault.mode

/-- The failure of the medium. -/
def failure : Error := .io "disk on fire"

/-- An answer, unless the plan has the operation fail. -/
def guarded (store : Faulty σ) (method : Fault.Method) (name : Name)
    (answer : Except Error α) : Except Error α :=
  if (store.mode? method name).isSome then .error failure else answer

variable [Backend σ]

def insert (store : Faulty σ) (data : Data) : Except Error Int × Faulty σ :=
  match store.mode? .insert data.name with
  | some .duplicate => (.error (.duplicateName data.fullName), store)
  | some _ => (.error failure, store)
  | none => (Backend.insert store.inner data).map id ({ store with inner := · })

def erase (store : Faulty σ) (fullName : Name) : Except Error Bool × Faulty σ :=
  match store.mode? .erase fullName with
  | some .answerFalse => (.ok false, store)
  | some _ => (.error failure, store)
  | none => (Backend.erase store.inner fullName).map id ({ store with inner := · })

def has (store : Faulty σ) (fullName : Name) : Except Error Bool :=
  match store.mode? .has fullName with
  | some .answerFalse => .ok false
  | some _ => .error failure
  | none => Backend.has store.inner fullName

instance : Backend (Faulty σ) where
  insert := insert
  erase := erase
  read store name := store.guarded .read name (Backend.read store.inner name)
  has := has
  find store name mode := store.guarded .find name (Backend.find store.inner name mode)
  size store := store.guarded .size .empty (Backend.size store.inner)
  count store := Backend.count store.inner
  count_erase store name erased := by
    unfold erase at erased ⊢
    split at erased
    · simp at erased
    · simp at erased
    · exact Backend.count_erase store.inner name erased

end Faulty

end NamedData.Store
