import MiniLisp.Proofs.Store.Growth

/-!
# Where chains of scopes end

Following the parents of a scope leads to a scope without one, the root of the chain. A store that
grows keeps all roots, a new child has the root of its parent, and a name is found in a scope with
the same root as the one in which it is looked up.
-/
namespace MiniLisp.Store

/-- The scope at which the chain of a scope ends. -/
def root (store : Store) (id : ScopeId) : ScopeId :=
  match store.parent? id with
  | some ⟨parent, _⟩ => store.root parent
  | none => id
termination_by id

/-- The scope was made without a parent. -/
def IsGlobal (store : Store) (id : ScopeId) : Prop :=
  (store.scope? id).map Scope.parent = some none

variable {gains : ScopeId → String → Prop} {store before after : Store}

theorem root_of_parent {id parent : ScopeId} (up : store.Parent id parent) :
    store.root id = store.root parent := by
  obtain ⟨older, up⟩ := up
  rw [root, up]

theorem parent?_of_isGlobal {id : ScopeId} (top : store.IsGlobal id) : store.parent? id = none := by
  obtain ⟨⟨_, bindings⟩, found, rfl⟩ := Option.map_eq_some_iff.mp top
  simp [parent?, found]

theorem root_of_isGlobal {id : ScopeId} (top : store.IsGlobal id) : store.root id = id := by
  rw [root, parent?_of_isGlobal top]

theorem depth_of_isGlobal {id : ScopeId} (top : store.IsGlobal id) : store.depth id = 0 := by
  rw [depth, parent?_of_isGlobal top]

theorem root_le (store : Store) (id : ScopeId) : store.root id ≤ id := by
  induction id using Nat.strongRecOn with
  | ind id ih =>
    unfold root
    split
    next parent older _ => exact Nat.le_trans (ih parent older) (Nat.le_of_lt older)
    next => exact Nat.le_refl id

/-- The owner of a name lies on the chain on which the name is looked for. -/
theorem Owner.root_eq {name : String} {id owner : ScopeId} (owned : store.Owner name id owner) :
    store.root owner = store.root id := by
  induction owned with
  | here => rfl
  | outside _ up _ ih => exact ih.trans (root_of_parent up).symm

/-- The way to the root stays the same. -/
theorem Grows.root_eq {id : ScopeId} (grows : Grows gains before after) (old : id < before.size) :
    after.root id = before.root id := by
  induction id using Nat.strongRecOn with
  | ind id ih =>
    unfold root
    rw [parent?_congr (grows.parent id old)]
    split
    next parent older _ => exact ih parent older (Nat.lt_trans older old)
    next => rfl

theorem Grows.isGlobal {id : ScopeId} (grows : Grows gains before after) (old : id < before.size)
    (top : before.IsGlobal id) : after.IsGlobal id :=
  (grows.parent id old).trans top

theorem root_add {parent : ScopeId} (old : parent < store.size) (bindings : Bindings) :
    (store.add ⟨some parent, bindings⟩).root store.size = store.root parent := by
  have up : (store.add ⟨some parent, bindings⟩).Parent store.size parent :=
    parent_iff.mpr ⟨old, by simp [scope?_add]⟩
  have grows : Grows (fun _ _ => True) store (store.add ⟨some parent, bindings⟩) := .add store _
  rw [root_of_parent up, grows.root_eq old]

theorem isGlobal_add (bindings : Bindings) : (store.add ⟨none, bindings⟩).IsGlobal store.size := by
  simp [IsGlobal, scope?_add]

end MiniLisp.Store
