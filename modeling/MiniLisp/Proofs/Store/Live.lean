import MiniLisp.Proofs.Store.WellFormed

/-!
# Live scopes

The store keeps every scope, also the scope of a call that is long over. Whether such a scope still
counts is a question of what code can get at. From a scope code gets at its parent and at the scopes
that the values in its bindings remember. The scopes to which these links lead from some roots are
live. Any set of scopes that has the roots and is closed under the links has all live scopes.
-/
namespace MiniLisp.Store

/-- Code that is evaluated in one of the roots can get at the scope. -/
inductive Live (store : Store) (roots : ScopeId → Prop) : ScopeId → Prop where
  | root {id : ScopeId} (is : roots id) : Live store roots id
  | parent {id parent : ScopeId} (child : Live store roots id) (up : store.Parent id parent) :
    Live store roots parent
  | remembered {id scope : ScopeId} {pair : String × Value} (holder : Live store roots id)
    (member : pair ∈ store.bindings id) (remembers : pair.2.Remembers scope) :
    Live store roots scope

/-- No link leads out of the region. -/
structure IsClosed (store : Store) (region : ScopeId → Prop) : Prop where
  parent : ∀ id parent, region id → store.Parent id parent → region parent
  remembered : ∀ id, region id → ∀ pair ∈ store.bindings id, ∀ scope, pair.2.Remembers scope →
    region scope

/-- The live scopes, together with those that are still to be made. -/
def LiveOrNew (store : Store) (roots : ScopeId → Prop) (id : ScopeId) : Prop :=
  store.Live roots id ∨ store.size ≤ id

variable {store : Store} {roots region : ScopeId → Prop} {id : ScopeId}

theorem isClosed_liveOrNew (store : Store) (roots : ScopeId → Prop) :
    store.IsClosed (store.LiveOrNew roots) where
  parent id parent inside up := by
    rcases inside with live | new
    · exact .inl (.parent live up)
    · exact absurd (lt_size_of_parent (parent_iff.mp up).2) (Nat.not_lt_of_le new)
  remembered id inside pair member scope remembers := by
    rcases inside with live | new
    · exact .inl (.remembered live member remembers)
    · exact absurd (lt_size_of_mem member) (Nat.not_lt_of_le new)

namespace IsClosed

variable (closed : store.IsClosed region)

include closed

theorem of_live (inside : ∀ id, roots id → region id) (live : store.Live roots id) :
    region id := by
  induction live with
  | root is => exact inside _ is
  | parent _ up ih => exact closed.parent _ _ ih up
  | remembered _ member remembers ih => exact closed.remembered _ ih _ member _ remembers

theorem owner {name : String} {owner : ScopeId} (here : region id)
    (owned : store.Owner name id owner) : region owner := by
  induction owned with
  | here _ => exact here
  | outside _ up _ ih => exact ih (closed.parent _ _ here up)

end IsClosed

/-- From a global scope whose bindings remember nothing code gets to no other scope. -/
theorem Live.eq_of_isGlobal {top : ScopeId} (global : store.IsGlobal top)
    (bare : ∀ pair ∈ store.bindings top, ∀ scope, ¬ pair.2.Remembers scope)
    (live : store.Live (fun root => root = top) id) : id = top := by
  have closed : store.IsClosed fun scope => scope = top := by
    constructor
    · rintro _ parent rfl ⟨_, up⟩
      rw [parent?_of_isGlobal global] at up
      cases up
    · rintro _ rfl pair member scope remembers
      exact absurd remembers (bare pair member scope)
  exact closed.of_live (fun _ root => root) live

end MiniLisp.Store
