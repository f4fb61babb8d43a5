import MiniLisp.Store

/-!
# Owners of names

A name belongs, as seen from a scope, to the nearest scope that binds it: the scope itself or one
of its ancestors. Looking a name up gives the value that its owner binds it to, and an assignment
writes to its owner, so both find a name exactly where it has an owner. A name has at most one
owner.
-/
namespace MiniLisp.Store

/-- The scope has the given parent, which was made before it. -/
def Parent (store : Store) (id parent : ScopeId) : Prop :=
  ∃ older, store.parent? id = some ⟨parent, older⟩

/-- The nearest scope that binds the name, as seen from a scope. -/
inductive Owner (store : Store) (name : String) : ScopeId → ScopeId → Prop where
  | here {id : ScopeId} {v : Value} (bound : (store.bindings id).get? name = some v) :
    Owner store name id id
  | outside {id parent owner : ScopeId} (unbound : (store.bindings id).get? name = none)
    (up : store.Parent id parent) (owned : Owner store name parent owner) :
    Owner store name id owner

variable {store : Store} {name : String}

theorem owner_of_owner? {id owner : ScopeId} (found : store.owner? name id = some owner) :
    store.Owner name id owner := by
  -- By strong induction on the number of the scope, since parents have smaller ones.
  induction id using Nat.strongRecOn with
  | ind id ih =>
    unfold owner? at found
    split at found
    next v bound =>
      cases found
      exact .here bound
    next unbound =>
      split at found
      next parent older up => exact .outside unbound ⟨older, up⟩ (ih parent older found)
      next => cases found

theorem owner?_of_owner {id owner : ScopeId} (owned : store.Owner name id owner) :
    store.owner? name id = some owner := by
  induction owned with
  | here bound =>
    unfold owner?
    rw [bound]
  | outside unbound up _ ih =>
    obtain ⟨older, up⟩ := up
    unfold owner?
    rw [unbound, up]
    exact ih

theorem owner?_eq_some_iff {id owner : ScopeId} :
    store.owner? name id = some owner ↔ store.Owner name id owner :=
  ⟨owner_of_owner?, owner?_of_owner⟩

theorem owner?_eq_none_iff {id : ScopeId} :
    store.owner? name id = none ↔ ∀ owner, ¬ store.Owner name id owner := by
  constructor
  · intro none owner owned
    rw [owner?_of_owner owned] at none
    cases none
  · intro without
    cases found : store.owner? name id with
    | none => rfl
    | some owner => exact absurd (owner_of_owner? found) (without owner)

/-- Looking a name up gives the value that its owner binds it to. -/
theorem get?_eq_owner (store : Store) (name : String) (id : ScopeId) :
    store.get? name id =
      (store.owner? name id).bind fun owner => (store.bindings owner).get? name := by
  induction id using Nat.strongRecOn with
  | ind id ih =>
    unfold get? owner?
    split
    next v bound => exact bound.symm
    next unbound =>
      split
      next parent older up => exact ih parent older
      next => rfl

/-- Where a name belongs depends on the parents of scopes and on what binds that name. -/
theorem owner?_congr {first second : Store} (parents : ∀ id, first.parent? id = second.parent? id)
    (bound : ∀ id, (first.bindings id).get? name = (second.bindings id).get? name)
    (id : ScopeId) : first.owner? name id = second.owner? name id := by
  induction id using Nat.strongRecOn with
  | ind id ih =>
    unfold owner?
    rw [bound id, parents id]
    split
    · rfl
    · split
      next parent older _ => exact ih parent older
      next => rfl

theorem get?_congr {first second : Store} (parents : ∀ id, first.parent? id = second.parent? id)
    (bound : ∀ id, (first.bindings id).get? name = (second.bindings id).get? name)
    (id : ScopeId) : first.get? name id = second.get? name id := by
  rw [get?_eq_owner, get?_eq_owner, owner?_congr parents bound]
  simp only [bound]

theorem Owner.bound {id owner : ScopeId} (owned : store.Owner name id owner) :
    ∃ v, (store.bindings owner).get? name = some v := by
  induction owned with
  | here bound => exact ⟨_, bound⟩
  | outside _ _ _ ih => exact ih

theorem get?_eq_some_iff {id : ScopeId} {v : Value} :
    store.get? name id = some v ↔
      ∃ owner, store.Owner name id owner ∧ (store.bindings owner).get? name = some v := by
  simp only [get?_eq_owner, Option.bind_eq_some_iff, owner?_eq_some_iff]

theorem get?_eq_none_iff {id : ScopeId} :
    store.get? name id = none ↔ ∀ owner, ¬ store.Owner name id owner := by
  rw [get?_eq_owner, Option.bind_eq_none_iff]
  simp only [owner?_eq_some_iff]
  constructor
  · intro unbound owner owned
    obtain ⟨v, bound⟩ := owned.bound
    rw [unbound owner owned] at bound
    cases bound
  · intro without owner owned
    exact absurd owned (without owner)

theorem isSome_get?_iff {id : ScopeId} :
    (store.get? name id).isSome ↔ ∃ owner, store.Owner name id owner := by
  rw [Option.isSome_iff_ne_none, ne_eq, get?_eq_none_iff]
  exact Classical.not_forall_not

end MiniLisp.Store
