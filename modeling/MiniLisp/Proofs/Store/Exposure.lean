import MiniLisp.Proofs.Store.WellFormed

/-!
# Which writes are seen from where

A scope sees the binding of a name in another scope if that scope lies on its chain and no scope
nearer than it binds the name. The owner of a name is the scope of the chain that binds it and in
which it is seen. After a binding has been written, the scopes that see it, and no others, find the
new value, whether the name was bound there before or not.
-/
namespace MiniLisp.Store

/-- The second scope lies on the chain of the first one, and no scope of that chain that is nearer
binds the name. -/
def Exposes (store : Store) (name : String) (id place : ScopeId) : Prop :=
  ∃ n, store.Chain id n place ∧
    ∀ m < n, ∀ between, store.Chain id m between → ¬ store.Binds between name

variable {store : Store} {name : String} {id place : ScopeId}

/-! ### Links of a chain -/

theorem exposes_self (store : Store) (name : String) (id : ScopeId) : store.Exposes name id id :=
  ⟨0, .here, fun m less => absurd less (Nat.not_lt_zero m)⟩

/-- What binds a name itself sees no other binding of it. -/
theorem Exposes.not_binds (exposes : store.Exposes name id place) (other : id ≠ place) :
    ¬ store.Binds id name := by
  obtain ⟨n, chain, hidden⟩ := exposes
  cases chain with
  | here => exact absurd rfl other
  | @up _ _ _ n _ _ => exact hidden 0 (Nat.succ_pos n) id .here

theorem not_exposes_of_isGlobal (top : store.IsGlobal id) (other : id ≠ place) :
    ¬ store.Exposes name id place := by
  rintro ⟨n, chain, -⟩
  cases chain with
  | here => exact other rfl
  | up link _ => cases top.symm.trans link

/-- What a scope does not bind itself it sees as its parent does. -/
theorem exposes_iff_of_links {parent : ScopeId} (link : store.Links id parent)
    (unbound : ¬ store.Binds id name) (other : id ≠ place) :
    store.Exposes name id place ↔ store.Exposes name parent place := by
  -- A scope has one parent, so every chain from it goes on from there.
  have same {next : ScopeId} (again : store.Links id next) : next = parent := by
    cases link.symm.trans again
    rfl
  constructor
  · rintro ⟨n, chain, hidden⟩
    cases chain with
    | here => exact absurd rfl other
    | @up _ _ _ n again further =>
      obtain rfl := same again
      refine ⟨n, further, fun m less between way => ?_⟩
      exact hidden (m + 1) (Nat.succ_lt_succ less) between (.up again way)
  · rintro ⟨n, chain, hidden⟩
    refine ⟨n + 1, .up link chain, fun m less between way => ?_⟩
    cases way with
    | here => exact unbound
    | @up _ _ _ m again further =>
      obtain rfl := same again
      exact hidden m (Nat.lt_of_succ_lt_succ less) between further

namespace IsWellFormed

variable (met : store.IsWellFormed)

include met

/-! ### Owners -/

/-- The owner of a name is the scope that binds it and in which it is seen. -/
theorem owner?_eq_some_iff_exposes (old : id < store.size) :
    store.owner? name id = some place ↔ store.Exposes name id place ∧ store.Binds place name := by
  induction id using Nat.strongRecOn with
  | ind id ih =>
    cases bound : (store.bindings id).get? name with
    | some v =>
      have binds : store.Binds id name := ⟨v, bound⟩
      rw [owner?, bound, Option.some_inj]
      constructor
      · rintro rfl
        exact ⟨exposes_self store name id, binds⟩
      · rintro ⟨exposes, -⟩
        by_contra other
        exact exposes.not_binds other binds
    | none =>
      have unbound : ¬ store.Binds id name := by simp [Binds, bound]
      by_cases other : id = place
      · -- The scope itself does not bind the name, and its owner does.
        subst other
        refine ⟨fun found => absurd ?_ unbound, fun both => absurd both.2 unbound⟩
        exact (owner_of_owner? found).bound
      · rcases isGlobal_or_links old with top | ⟨parent, link⟩
        · rw [owner?, bound, parent?_of_isGlobal top]
          refine ⟨fun found => ?_, fun both => absurd both.1 (not_exposes_of_isGlobal top other)⟩
          cases found
        · obtain ⟨older, up⟩ := met.parent_iff_links.mpr link
          rw [owner?, bound, up, exposes_iff_of_links link unbound other]
          exact ih parent older (Nat.lt_trans older old)

/-! ### Reads after a write -/

omit met in
theorem parent?_define (store : Store) (name : String) (v : Value) (place id : ScopeId) :
    (store.define name v place).parent? id = store.parent? id :=
  parent?_congr (parent_define store name v place id)

/-- The scopes that see a name in the scope in which it is bound anew find the new value. -/
theorem get?_define_of_exposes (there : place < store.size) (old : id < store.size) (v : Value)
    (exposes : store.Exposes name id place) :
    (store.define name v place).get? name id = some v := by
  -- By induction along the chain, up to the scope that is written to.
  induction id using Nat.strongRecOn with
  | ind id ih =>
    rw [get?, parent?_define]
    by_cases here : id = place
    · subst here
      rw [get?_bindings_define, if_pos ⟨⟨rfl, rfl⟩, there⟩]
    · have unbound := exposes.not_binds here
      have none : (store.bindings id).get? name = none := by
        simpa [Binds, Option.eq_none_iff_forall_ne_some] using unbound
      rcases isGlobal_or_links old with top | ⟨parent, link⟩
      · exact absurd exposes (not_exposes_of_isGlobal top here)
      · obtain ⟨older, up⟩ := met.parent_iff_links.mpr link
        rw [bindings_define_of_ne here, none, up]
        exact ih parent older (Nat.lt_trans older old)
          ((exposes_iff_of_links link unbound here).mp exposes)

/-- All other reads find what they found before. -/
theorem get?_define_of_not_exposes (old : id < store.size) (name asked : String) (v : Value)
    (hidden : asked = name → ¬ store.Exposes name id place) :
    (store.define name v place).get? asked id = store.get? asked id := by
  by_cases same : asked = name
  · subst same
    replace hidden := hidden rfl
    induction id using Nat.strongRecOn with
    | ind id ih =>
      have here : id ≠ place := by
        rintro rfl
        exact hidden (exposes_self store asked id)
      rw [get?, get?.eq_def store, parent?_define, bindings_define_of_ne here]
      cases bound : (store.bindings id).get? asked with
      | some w => rfl
      | none =>
        have unbound : ¬ store.Binds id asked := by simp [Binds, bound]
        rcases isGlobal_or_links old with top | ⟨parent, link⟩
        · rw [parent?_of_isGlobal top]
        · obtain ⟨older, up⟩ := met.parent_iff_links.mpr link
          rw [up]
          refine ih parent older (Nat.lt_trans older old) fun exposes => hidden ?_
          exact (exposes_iff_of_links link unbound here).mpr exposes
  · refine get?_congr (parent?_define store name v place) (fun other => ?_) id
    rw [get?_bindings_define, if_neg fun written => same written.1.2]

/-- The scopes in which a name has the owner that is assigned to find the new value. -/
theorem get?_assign {owner : ScopeId} (binds : store.Binds owner name) (old : id < store.size)
    (asked : String) (v : Value) :
    (store.define name v owner).get? asked id =
      if asked = name ∧ store.owner? name id = some owner then some v
      else store.get? asked id := by
  -- The name is bound there, so to see it there is to have the owner.
  have seen : store.owner? name id = some owner ↔ store.Exposes name id owner := by
    simp [met.owner?_eq_some_iff_exposes old, binds]
  split
  next both =>
    obtain ⟨rfl, owned⟩ := both
    exact met.get?_define_of_exposes binds.lt_size old v (seen.mp owned)
  next other =>
    refine met.get?_define_of_not_exposes old name asked v fun same exposes => other ?_
    exact ⟨same, seen.mpr exposes⟩

end IsWellFormed

end MiniLisp.Store
