import MiniLisp.Proofs.Store.Root
import MiniLisp.Proofs.Value.Every

/-!
# Well-formed stores

In a well-formed store every parent is older than its children, every scope binds a name at most
once, and every scope that a closure remembers is there. Then the parents of a scope form a chain
that gets to a scope without parent after as many links as the depth of the scope says, and looking
a name up can follow the links as they were given, without asking whether they lead to an older
scope.

Scopes and closures may refer to each other in circles, since a closure can be bound in the scope
that it remembers. The order of the scopes is about parents alone; of what a closure remembers it is
only said that it is in the store.
-/
namespace MiniLisp

/-! ### Remembered scopes -/

/-- A closure in the value, or in the body of such a closure and so on, remembers the scope. -/
inductive Value.Remembers : Value → ScopeId → Prop where
  | closure {serial : Nat} {parameters : List String} {body : Value} {captured : ScopeId} :
    Remembers (.closure serial parameters body captured) captured
  | body {serial : Nat} {parameters : List String} {body : Value} {captured scope : ScopeId}
    (inside : Remembers body scope) : Remembers (.closure serial parameters body captured) scope
  | item {item : Value} {items : List Value} {scope : ScopeId} (member : item ∈ items)
    (inside : Remembers item scope) : Remembers (.list items) scope

/-- Every scope that the value remembers is in the store. -/
def Value.IsAllocated (store : Store) (v : Value) : Prop :=
  ∀ scope, v.Remembers scope → scope < store.size

namespace Value

variable {store after : Store} {v : Value}

theorem Remembers.of_subtree {part : Value} {scope : ScopeId} (remembers : part.Remembers scope)
    (inside : part.Subtree v) : v.Remembers scope := by
  induction inside with
  | refl => exact remembers
  | item member _ ih => exact .item member ih

/-- What a value remembers is remembered by one of its given parts. -/
theorem Remembers.exists_given {scope : ScopeId} (remembers : v.Remembers scope) :
    ∃ part : Value, part.Subtree v ∧ part.IsGiven ∧ part.Remembers scope := by
  induction remembers with
  | closure => exact ⟨_, .refl _, trivial, .closure⟩
  | body inside _ => exact ⟨_, .refl _, trivial, .body inside⟩
  | item member _ ih =>
    obtain ⟨part, inside, given, remembers⟩ := ih
    exact ⟨part, .item member inside, given, remembers⟩

theorem isAllocated_iff_every : v.IsAllocated store ↔ v.Every (IsAllocated store) := by
  constructor
  · exact fun allocated part inside _ scope remembers =>
      allocated scope (remembers.of_subtree inside)
  · intro every scope remembers
    obtain ⟨part, inside, given, remembers⟩ := remembers.exists_given
    exact every part inside given scope remembers

namespace IsAllocated

theorem mono (allocated : v.IsAllocated store) (size : store.size ≤ after.size) :
    v.IsAllocated after :=
  fun scope remembers => Nat.lt_of_lt_of_le (allocated scope remembers) size

theorem of_isBare (bare : v.IsBare) : v.IsAllocated store :=
  isAllocated_iff_every.mpr (.of_isBare bare)

/-- A value that can be read remembers nothing. -/
theorem of_isTree (is : v.IsTree) : v.IsAllocated store :=
  isAllocated_iff_every.mpr (.of_isTree is fun _ _ => nofun)

theorem item {item : Value} {items : List Value} (allocated : (list items).IsAllocated store)
    (member : item ∈ items) : item.IsAllocated store :=
  fun scope remembers => allocated scope (.item member remembers)

theorem list {items : List Value} (allocated : ∀ item ∈ items, item.IsAllocated store) :
    (list items).IsAllocated store := by
  rintro scope ⟨⟩
  next item member inside => exact allocated item member scope inside

theorem quoted {operands : List Value} (allocated : ∀ v ∈ operands, v.IsAllocated store) :
    (Eval.quoted operands).IsAllocated store := by
  unfold Eval.quoted
  split
  · exact allocated _ (by simp)
  · exact .list allocated

theorem closure {serial : Nat} {parameters : List String} {body : Value} {captured : ScopeId}
    (old : captured < store.size) (allocated : body.IsAllocated store) :
    (closure serial parameters body captured).IsAllocated store := by
  rintro scope ⟨⟩
  next => exact old
  next inside => exact allocated scope inside

end IsAllocated

end Value

/-! ### Names of a scope -/

namespace Bindings

def names (bindings : Bindings) : List String := bindings.map Prod.fst

theorem names_insert (bindings : Bindings) (name : String) (v : Value) :
    (bindings.insert name v).names =
      if name ∈ bindings.names then bindings.names else bindings.names ++ [name] := by
  induction bindings with
  | nil => rfl
  | cons first rest ih =>
    obtain ⟨other, w⟩ := first
    by_cases same : name = other
    · subst same
      simp [insert, names]
    · have step : (insert name v ((other, w) :: rest)).names =
          other :: (insert name v rest).names := by
        simp [insert, same, names]
      rw [step, ih]
      by_cases bound : name ∈ names rest <;> simp_all [names]

theorem nodup_names_insert {bindings : Bindings} (nodup : bindings.names.Nodup) (name : String)
    (v : Value) : (bindings.insert name v).names.Nodup := by
  rw [names_insert]
  split
  next => exact nodup
  next new => exact List.Nodup.append nodup (List.nodup_singleton name) (by simpa using new)

theorem nodup_names_ofLists (parameters : List String) (arguments : List Value) :
    (ofLists parameters arguments).names.Nodup := by
  unfold ofLists
  suffices all : ∀ (pairs : List (String × Value)) (bindings : Bindings), bindings.names.Nodup →
      (pairs.foldl (fun bindings pair => bindings.insert pair.1 pair.2) bindings).names.Nodup from
    all _ [] List.nodup_nil
  intro pairs
  induction pairs with
  | nil => exact fun _ nodup => nodup
  | cons pair rest ih => exact fun bindings nodup => ih _ (nodup_names_insert nodup pair.1 pair.2)

theorem nodup_names_standard : standard.names.Nodup := by decide

end Bindings

/-! ### Links and chains -/

namespace Store

/-- The scope was given the parent, whether that is older or not, or there at all. -/
def Links (store : Store) (id parent : ScopeId) : Prop :=
  (store.scope? id).map Scope.parent = some (some parent)

/-- From the first scope that many links lead to the other one. -/
inductive Chain (store : Store) : ScopeId → Nat → ScopeId → Prop where
  | here {id : ScopeId} : Chain store id 0 id
  | up {id parent top : ScopeId} {n : Nat} (link : store.Links id parent)
    (further : Chain store parent n top) : Chain store id (n + 1) top

/-- Following the links to find the scope that binds a name ends there, or at a scope without
parent. -/
inductive Search (store : Store) (name : String) : ScopeId → Option ScopeId → Prop where
  | here {id : ScopeId} (bound : store.Binds id name) : Search store name id (some id)
  | nowhere {id : ScopeId} (unbound : ¬ store.Binds id name) (top : store.IsGlobal id) :
    Search store name id none
  | outside {id parent : ScopeId} {found : Option ScopeId} (unbound : ¬ store.Binds id name)
    (link : store.Links id parent) (further : Search store name parent found) :
    Search store name id found

structure IsWellFormed (store : Store) : Prop where
  older : ∀ id parent, store.Links id parent → parent < id
  named : ∀ id, (store.bindings id).names.Nodup
  allocated : ∀ id, ∀ pair ∈ store.bindings id, pair.2.IsAllocated store

variable {store before between after : Store}

theorem lt_size_of_parent {id : ScopeId} {above : Option ScopeId}
    (given : (store.scope? id).map Scope.parent = some above) : id < store.size := by
  obtain ⟨scope, found, _⟩ := Option.map_eq_some_iff.mp given
  exact lt_size_iff.mpr ⟨scope, found⟩

/-- A scope of the store has a parent or is global. -/
theorem isGlobal_or_links {id : ScopeId} (old : id < store.size) :
    store.IsGlobal id ∨ ∃ parent, store.Links id parent := by
  obtain ⟨⟨parent, bindings⟩, found⟩ := lt_size_iff.mp old
  cases parent with
  | none => exact .inl (by simp [IsGlobal, found])
  | some parent => exact .inr ⟨parent, by simp [Links, found]⟩

namespace IsWellFormed

variable (met : store.IsWellFormed)

include met

theorem parent_iff_links {id parent : ScopeId} :
    store.Parent id parent ↔ store.Links id parent :=
  parent_iff.trans ⟨fun up => up.2, fun link => ⟨met.older id parent link, link⟩⟩

/-- A chain is not longer than its lowest scope is old. -/
theorem chain_le {id top : ScopeId} {n : Nat} (chain : store.Chain id n top) : top + n ≤ id := by
  induction chain with
  | here => exact Nat.le_refl _
  | up link _ ih => exact Nat.le_trans (Nat.succ_le_succ ih) (met.older _ _ link)

theorem depth_of_chain {id top : ScopeId} {n : Nat} (chain : store.Chain id n top) :
    store.depth id = store.depth top + n := by
  induction chain with
  | here => rfl
  | up link _ ih => rw [depth_of_parent (met.parent_iff_links.mpr link), ih, Nat.add_assoc]

theorem root_of_chain {id top : ScopeId} {n : Nat} (chain : store.Chain id n top) :
    store.root id = store.root top := by
  induction chain with
  | here => rfl
  | up link _ ih => exact (root_of_parent (met.parent_iff_links.mpr link)).trans ih

theorem chain_root {id : ScopeId} (old : id < store.size) :
    store.Chain id (store.depth id) (store.root id) ∧ store.IsGlobal (store.root id) := by
  induction id using Nat.strongRecOn with
  | ind id ih =>
    rcases isGlobal_or_links old with top | ⟨parent, link⟩
    · rw [root_of_isGlobal top, depth_of_isGlobal top]
      exact ⟨.here, top⟩
    · have older := met.older id parent link
      have up := met.parent_iff_links.mpr link
      obtain ⟨chain, top⟩ := ih parent older (Nat.lt_trans older old)
      rw [root_of_parent up, depth_of_parent up]
      exact ⟨.up link chain, top⟩

/-- There is one way up to a scope without parent, and the depth counts its links. -/
theorem chain_iff {id top : ScopeId} {n : Nat} (old : id < store.size) :
    store.Chain id n top ∧ store.IsGlobal top ↔ n = store.depth id ∧ top = store.root id := by
  constructor
  · rintro ⟨chain, ends⟩
    rw [met.depth_of_chain chain, met.root_of_chain chain, depth_of_isGlobal ends,
      root_of_isGlobal ends]
    exact ⟨(Nat.zero_add n).symm, rfl⟩
  · rintro ⟨rfl, rfl⟩
    exact met.chain_root old

/-- No scope is above itself. -/
theorem chain_irrefl {id : ScopeId} {n : Nat} : ¬ store.Chain id (n + 1) id := by
  intro circle
  have le : id + (n + 1) ≤ id := met.chain_le circle
  exact absurd le (Nat.not_le_of_lt (Nat.lt_add_of_pos_right (Nat.succ_pos n)))

/-! ### Searches -/

theorem search_owner? {id : ScopeId} (name : String) (old : id < store.size) :
    store.Search name id (store.owner? name id) := by
  induction id using Nat.strongRecOn with
  | ind id ih =>
    cases bound : (store.bindings id).get? name with
    | some v =>
      rw [owner?, bound]
      exact .here ⟨v, bound⟩
    | none =>
      have unbound : ¬ store.Binds id name := by simp [Binds, bound]
      rcases isGlobal_or_links old with top | ⟨parent, link⟩
      · rw [owner?, bound, parent?_of_isGlobal top]
        exact .nowhere unbound top
      · obtain ⟨older, up⟩ := met.parent_iff_links.mpr link
        rw [owner?, bound, up]
        exact .outside unbound link (ih parent older (Nat.lt_trans older old))

omit met in
theorem search_unique {name : String} {id : ScopeId} {found other : Option ScopeId}
    (search : store.Search name id found) (again : store.Search name id other) : found = other := by
  induction search with
  | here bound =>
    cases again with
    | here => rfl
    | nowhere unbound _ | outside unbound _ _ => exact absurd bound unbound
  | nowhere unbound top =>
    cases again with
    | here bound => exact absurd bound unbound
    | nowhere => rfl
    | outside _ link _ => cases top.symm.trans link
  | outside unbound link _ ih =>
    cases again with
    | here bound => exact absurd bound unbound
    | nowhere _ top => cases top.symm.trans link
    | outside _ link' further =>
      cases link.symm.trans link'
      exact ih further

/-- The search along the links comes to an end, and finds the owner of the name if it has one. -/
theorem search_iff {name : String} {id : ScopeId} {found : Option ScopeId}
    (old : id < store.size) :
    store.Search name id found ↔ found = store.owner? name id := by
  constructor
  · exact fun search => search_unique search (met.search_owner? name old)
  · rintro rfl
    exact met.search_owner? name old

/-! ### What keeps a store well-formed -/

theorem define {name : String} {v : Value} (id : ScopeId) (allocated : v.IsAllocated store) :
    (store.define name v id).IsWellFormed where
  older other parent link := met.older other parent ((parent_define ..).symm.trans link)
  named other := by
    have named := met.named other
    unfold bindings at named ⊢
    rw [scope?_define]
    by_cases here : id = other
    · rw [if_pos here]
      cases found : store.scope? other with
      | none => exact List.nodup_nil
      | some scope =>
        rw [found] at named
        exact Bindings.nodup_names_insert named name v
    · rwa [if_neg here]
  allocated other pair member := by
    have size : store.size ≤ (store.define name v id).size := by simp
    rcases mem_bindings_define member with member | ⟨rfl, rfl⟩
    · exact (met.allocated other pair member).mono size
    · exact allocated.mono size

theorem add {scope : Scope} (older : ∀ parent, scope.parent = some parent → parent < store.size)
    (named : scope.bindings.names.Nodup)
    (allocated : ∀ pair ∈ scope.bindings, pair.2.IsAllocated store) :
    (store.add scope).IsWellFormed where
  older id parent link := by
    unfold Links at link
    rw [scope?_add] at link
    split at link
    next new =>
      rw [new]
      exact older parent (Option.some.inj link)
    next => exact met.older id parent link
  named id := by
    rw [bindings_add]
    split
    · exact named
    · exact met.named id
  allocated id pair member := by
    have size : store.size ≤ (store.add scope).size := by simp
    rcases mem_bindings_add member with old | ⟨_, new⟩
    · exact (met.allocated id pair old).mono size
    · exact (allocated pair new).mono size

theorem addGlobal : (store.add Scope.global).IsWellFormed :=
  met.add nofun Bindings.nodup_names_standard fun _ member =>
    Value.isAllocated_iff_every.mpr (.standard (fun _ _ => nofun) member)

theorem addChild {parent : ScopeId} {parameters : List String} {arguments : List Value}
    (old : parent < store.size) (allocated : ∀ v ∈ arguments, v.IsAllocated store) :
    (store.add ⟨some parent, Bindings.ofLists parameters arguments⟩).IsWellFormed := by
  apply met.add
  · rintro _ ⟨⟩
    exact old
  · exact Bindings.nodup_names_ofLists parameters arguments
  · exact fun pair member => allocated pair.2 (mem_ofLists member).2

end IsWellFormed

theorem isWellFormed_empty : empty.IsWellFormed where
  older id _ link := absurd (lt_size_of_parent link) (Nat.not_lt_zero id)
  named _ := List.nodup_nil
  allocated id _ member := absurd (lt_size_of_mem member) (Nat.not_lt_zero id)

/-! ### Changes -/

/-- The later store has grown out of the earlier one and has got no new global scope. -/
structure Deepens (before after : Store) : Prop where
  grows : Grows (fun _ _ => True) before after
  global : ∀ id, after.IsGlobal id → before.IsGlobal id

/-- The later store has one more scope, a child of the given parent, and everything that the
earlier one has is as it was. -/
structure AddsChild (before after : Store) (parent : ScopeId) : Prop where
  size : after.size = before.size + 1
  link : after.Links before.size parent
  depth : after.depth before.size = before.depth parent + 1
  same : ∀ id < before.size, after.scope? id = before.scope? id

namespace Deepens

theorem refl (store : Store) : Deepens store store := ⟨.refl store, fun _ top => top⟩

theorem trans (first : Deepens before between) (second : Deepens between after) :
    Deepens before after :=
  ⟨first.grows.trans second.grows, fun id top => first.global id (second.global id top)⟩

theorem define (store : Store) (name : String) (v : Value) (id : ScopeId) :
    Deepens store (store.define name v id) :=
  ⟨(Grows.define store name v id).any, fun _ top => (parent_define ..).symm.trans top⟩

theorem addChild (store : Store) (parent : ScopeId) (bindings : Bindings) :
    Deepens store (store.add ⟨some parent, bindings⟩) where
  grows := .add store _
  global id top := by
    unfold IsGlobal at top
    rw [scope?_add] at top
    split at top
    next => cases top
    next => exact top

end Deepens

theorem addsChild_add {parent : ScopeId} (old : parent < store.size) (bindings : Bindings) :
    AddsChild store (store.add ⟨some parent, bindings⟩) parent where
  size := size_add store _
  link := by simp [Links, scope?_add]
  depth := depth_add old bindings
  same id older := by rw [scope?_add, if_neg (Nat.ne_of_lt older)]

end Store

end MiniLisp
