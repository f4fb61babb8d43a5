import MiniLisp.Proofs.Store.Owner

/-!
# How a store grows

From one moment to a later one a store grows: there are more scopes, every scope that was there
has the parent that it had, and no scope has lost a name. Which scope may have gained which name
is a parameter of the relation. Growth from moment to moment is growth over the whole time, since
a scope that was there at first is there at every moment between. A name that has an owner, as
seen from a scope, still has one when the store has grown.
-/
namespace MiniLisp.Store

def Binds (store : Store) (id : ScopeId) (name : String) : Prop :=
  ∃ v, (store.bindings id).get? name = some v

/-- The later store has all scopes of the earlier one, with their parents and all their names, and
any further name of such a scope is one that the scope may gain. -/
structure Grows (gains : ScopeId → String → Prop) (before after : Store) : Prop where
  size_le : before.size ≤ after.size
  parent : ∀ id < before.size,
    (after.scope? id).map Scope.parent = (before.scope? id).map Scope.parent
  kept : ∀ id < before.size, ∀ name, before.Binds id name → after.Binds id name
  gained : ∀ id < before.size, ∀ name, after.Binds id name → before.Binds id name ∨ gains id name

variable {gains : ScopeId → String → Prop} {store before between after : Store}

theorem lt_size_iff {id : ScopeId} : id < store.size ↔ ∃ scope, store.scope? id = some scope := by
  unfold size scope?
  constructor
  · exact fun lt => ⟨_, Array.getElem?_eq_getElem lt⟩
  · rintro ⟨scope, found⟩
    exact (Array.getElem?_eq_some_iff.mp found).1

theorem Binds.lt_size {id : ScopeId} {name : String} (binds : store.Binds id name) :
    id < store.size := by
  obtain ⟨v, bound⟩ := binds
  unfold bindings at bound
  split at bound
  next scope found => exact lt_size_iff.mpr ⟨scope, found⟩
  next => cases bound

theorem parent_iff {id parent : ScopeId} :
    store.Parent id parent ↔
      parent < id ∧ (store.scope? id).map Scope.parent = some (some parent) := by
  unfold Parent parent?
  constructor
  · rintro ⟨older, up⟩
    split at up
    next other bindings found =>
      split at up
      · cases up
        exact ⟨older, by simp [found]⟩
      · cases up
    next => cases up
  · rintro ⟨older, up⟩
    obtain ⟨⟨_, bindings⟩, found, rfl⟩ := Option.map_eq_some_iff.mp up
    exact ⟨older, by simp [found, older]⟩

/-- The parent of a scope depends on the parent that was given to it and on nothing else. -/
theorem parent?_congr {id : ScopeId}
    (same : (after.scope? id).map Scope.parent = (before.scope? id).map Scope.parent) :
    after.parent? id = before.parent? id := by
  unfold parent?
  cases found : before.scope? id with
  | none =>
    rw [found, Option.map_none, Option.map_eq_none_iff] at same
    rw [same]
  | some scope =>
    rw [found] at same
    obtain ⟨⟨_, _⟩, now, rfl⟩ := Option.map_eq_some_iff.mp same
    rw [now]
    cases scope with
    | mk parent _ => cases parent <;> rfl

theorem scope?_define (store : Store) (name : String) (v : Value) (id other : ScopeId) :
    (store.define name v id).scope? other = if id = other then (store.scope? other).map
      fun scope => { scope with bindings := scope.bindings.insert name v } else
        store.scope? other := by
  simp [define, scope?, Array.getElem?_modify]

theorem scope?_add (store : Store) (scope : Scope) (id : ScopeId) :
    (store.add scope).scope? id = if id = store.size then some scope else store.scope? id :=
  Array.getElem?_push

@[simp] theorem size_define (store : Store) (name : String) (v : Value) (id : ScopeId) :
    (store.define name v id).size = store.size := by
  simp [define, size]

@[simp] theorem size_add (store : Store) (scope : Scope) :
    (store.add scope).size = store.size + 1 := by
  simp [add, size]

/-- A definition changes no parent. -/
theorem parent_define (store : Store) (name : String) (v : Value) (id other : ScopeId) :
    ((store.define name v id).scope? other).map Scope.parent =
      (store.scope? other).map Scope.parent := by
  rw [scope?_define]
  split
  · simp [Function.comp_def]
  · rfl

theorem bindings_add (store : Store) (scope : Scope) (id : ScopeId) :
    (store.add scope).bindings id =
      if id = store.size then scope.bindings else store.bindings id := by
  unfold bindings
  rw [scope?_add]
  by_cases new : id = store.size
  · simp [new]
  · simp [new]

theorem bindings_add_of_lt {id : ScopeId} (old : id < store.size) (scope : Scope) :
    (store.add scope).bindings id = store.bindings id := by
  rw [bindings_add, if_neg (Nat.ne_of_lt old)]

theorem bindings_define_of_ne {id other : ScopeId} (different : other ≠ id) (name : String)
    (v : Value) : (store.define name v id).bindings other = store.bindings other := by
  unfold bindings
  rw [scope?_define, if_neg (Ne.symm different)]

theorem get?_bindings_define (store : Store) (name other : String) (v : Value)
    (id place : ScopeId) :
    ((store.define name v id).bindings place).get? other =
      if (place = id ∧ other = name) ∧ id < store.size then some v
      else (store.bindings place).get? other := by
  by_cases here : place = id
  · subst here
    unfold bindings
    rw [scope?_define, if_pos rfl]
    cases found : store.scope? place with
    | none =>
      have outside : ¬ place < store.size := by
        intro inside
        obtain ⟨scope, there⟩ := lt_size_iff.mp inside
        cases found.symm.trans there
      simp [outside]
    | some scope =>
      have inside : place < store.size := lt_size_iff.mpr ⟨scope, found⟩
      simp [inside, Bindings.get?_insert]
  · rw [bindings_define_of_ne here, if_neg fun both => here both.1.1]

theorem lt_size_of_mem {id : ScopeId} {pair : String × Value} (member : pair ∈ store.bindings id) :
    id < store.size := by
  unfold bindings at member
  split at member
  next scope found => exact lt_size_iff.mpr ⟨scope, found⟩
  next => cases member

theorem binds_define_iff {name given : String} {v : Value} {id other : ScopeId}
    (old : other < store.size) :
    (store.define name v id).Binds other given ↔
      store.Binds other given ∨ other = id ∧ given = name := by
  unfold Binds
  rw [get?_bindings_define]
  by_cases written : other = id ∧ given = name
  · obtain ⟨rfl, rfl⟩ := written
    simp [old]
  · simp [written]

namespace Grows

theorem refl (store : Store) : Grows gains store store :=
  ⟨Nat.le_refl _, fun _ _ => rfl, fun _ _ _ binds => binds, fun _ _ _ binds => .inl binds⟩

theorem trans (first : Grows gains before between) (second : Grows gains between after) :
    Grows gains before after where
  size_le := Nat.le_trans first.size_le second.size_le
  parent id old := by
    rw [second.parent id (Nat.lt_of_lt_of_le old first.size_le), first.parent id old]
  kept id old name binds :=
    second.kept id (Nat.lt_of_lt_of_le old first.size_le) name (first.kept id old name binds)
  -- A name was gained in the first or in the second part of the time.
  gained id old name binds := by
    rcases second.gained id (Nat.lt_of_lt_of_le old first.size_le) name binds with binds | may
    · exact first.gained id old name binds
    · exact .inr may

theorem parent_of {id parent : ScopeId} (grows : Grows gains before after)
    (up : before.Parent id parent) : after.Parent id parent := by
  rw [parent_iff] at up ⊢
  obtain ⟨older, up⟩ := up
  obtain ⟨scope, found, _⟩ := Option.map_eq_some_iff.mp up
  exact ⟨older, (grows.parent id (lt_size_iff.mpr ⟨scope, found⟩)).trans up⟩

/-- Only what scopes of the earlier store may gain counts. -/
theorem weaken {others : ScopeId → String → Prop} (grows : Grows gains before after)
    (allowed : ∀ id < before.size, ∀ name, gains id name → others id name) :
    Grows others before after :=
  { grows with
    gained := fun id old name binds =>
      (grows.gained id old name binds).imp_right (allowed id old name) }

/-- Growth by whatever names. -/
theorem any (grows : Grows gains before after) : Grows (fun _ _ => True) before after :=
  grows.weaken fun _ _ _ _ => trivial

theorem define (store : Store) (name : String) (v : Value) (id : ScopeId) :
    Grows (fun other given => other = id ∧ given = name) store (store.define name v id) where
  size_le := by simp
  parent other _ := parent_define store name v id other
  kept other old given binds := (binds_define_iff old).mpr (.inl binds)
  gained other old given binds := (binds_define_iff old).mp binds

/-- An assignment to a scope that binds the name gives no scope a name. -/
theorem assign {name : String} {id : ScopeId} (bound : store.Binds id name) (v : Value) :
    Grows gains store (store.define name v id) :=
  { Grows.define store name v id with
    gained := by
      intro other old given binds
      rcases (binds_define_iff old).mp binds with binds | ⟨rfl, rfl⟩
      · exact .inl binds
      · exact .inl bound }

theorem add (store : Store) (scope : Scope) : Grows gains store (store.add scope) where
  size_le := by simp
  parent id old := by rw [scope?_add, if_neg (Nat.ne_of_lt old)]
  kept id old name binds := by
    unfold Binds
    rwa [bindings_add_of_lt old]
  gained id old name binds := by
    unfold Binds at binds
    rw [bindings_add_of_lt old] at binds
    exact .inl binds

/-- The search for a name goes the way that it went before, and may end earlier. -/
theorem resolves {name : String} {id owner : ScopeId} (grows : Grows gains before after)
    (owned : before.Owner name id owner) : ∃ later, after.Owner name id later := by
  induction owned with
  | here bound =>
    have binds : before.Binds _ name := ⟨_, bound⟩
    obtain ⟨v, bound⟩ := grows.kept _ binds.lt_size name binds
    exact ⟨_, .here bound⟩
  | @outside id parent owner unbound up owned ih =>
    obtain ⟨later, ih⟩ := ih
    -- The name may have come nearer.
    cases bound : (after.bindings id).get? name with
    | some v => exact ⟨id, .here bound⟩
    | none => exact ⟨later, .outside bound (grows.parent_of up) ih⟩

/-- The way to the global scope stays the same. -/
theorem depth_eq {id : ScopeId} (grows : Grows gains before after) (old : id < before.size) :
    after.depth id = before.depth id := by
  induction id using Nat.strongRecOn with
  | ind id ih =>
    unfold depth
    rw [parent?_congr (grows.parent id old)]
    split
    next parent older _ => rw [ih parent older (Nat.lt_trans older old)]
    next => rfl

end Grows

theorem depth_of_parent {id parent : ScopeId} (up : store.Parent id parent) :
    store.depth id = store.depth parent + 1 := by
  obtain ⟨older, up⟩ := up
  rw [depth, up]

/-- A new scope lies one deeper than its parent. -/
theorem depth_add {parent : ScopeId} (old : parent < store.size) (bindings : Bindings) :
    (store.add ⟨some parent, bindings⟩).depth store.size = store.depth parent + 1 := by
  have up : (store.add ⟨some parent, bindings⟩).Parent store.size parent :=
    parent_iff.mpr ⟨old, by simp [scope?_add]⟩
  have grows : Grows (fun _ _ => True) store (store.add ⟨some parent, bindings⟩) := .add store _
  rw [depth_of_parent up, grows.depth_eq old]

/-! ### What is bound -/

theorem mem_insert {bindings : Bindings} {name : String} {v : Value} {pair : String × Value}
    (member : pair ∈ bindings.insert name v) : pair ∈ bindings ∨ pair = (name, v) := by
  induction bindings with
  | nil => exact .inr (List.mem_singleton.mp member)
  | cons first rest ih =>
    obtain ⟨other, w⟩ := first
    unfold Bindings.insert at member
    split at member
    · rcases List.mem_cons.mp member with rfl | member
      · exact .inr rfl
      · exact .inl (List.mem_cons_of_mem _ member)
    · rcases List.mem_cons.mp member with rfl | member
      · exact .inl List.mem_cons_self
      · exact (ih member).imp_left (List.mem_cons_of_mem _)

theorem mem_foldl_insert {bindings : Bindings} {pairs : List (String × Value)}
    {pair : String × Value}
    (member : pair ∈ pairs.foldl (fun bindings pair => bindings.insert pair.1 pair.2) bindings) :
    pair ∈ bindings ∨ pair ∈ pairs := by
  induction pairs generalizing bindings with
  | nil => exact .inl member
  | cons first rest ih =>
    rcases ih member with member | member
    · rcases mem_insert member with member | rfl
      · exact .inl member
      · exact .inr List.mem_cons_self
    · exact .inr (List.mem_cons_of_mem _ member)

theorem mem_ofLists {names : List String} {vs : List Value} {pair : String × Value}
    (member : pair ∈ Bindings.ofLists names vs) : pair.1 ∈ names ∧ pair.2 ∈ vs := by
  rcases mem_foldl_insert member with member | member
  · cases member
  · exact List.of_mem_zip member

theorem mem_of_get? {bindings : Bindings} {name : String} {v : Value}
    (found : bindings.get? name = some v) : (name, v) ∈ bindings := by
  induction bindings with
  | nil => cases found
  | cons first rest ih =>
    obtain ⟨other, w⟩ := first
    unfold Bindings.get? at found
    split at found
    next same =>
      cases found
      subst same
      exact List.mem_cons_self
    next => exact List.mem_cons_of_mem _ (ih found)

/-- A name that is no parameter is not bound by a call. -/
theorem get?_ofLists_of_not_mem {names : List String} {name : String} (other : name ∉ names)
    (vs : List Value) : (Bindings.ofLists names vs).get? name = none := by
  rw [Option.eq_none_iff_forall_not_mem]
  intro v found
  exact other (mem_ofLists (mem_of_get? found)).1

/-- A scope that is still to be made binds nothing. -/
theorem get?_bindings_size (store : Store) (name : String) :
    (store.bindings store.size).get? name = none := by
  rw [Option.eq_none_iff_forall_not_mem]
  intro v found
  exact Nat.lt_irrefl _ (lt_size_of_mem (mem_of_get? found))

theorem mem_bindings_define {name : String} {v : Value} {id other : ScopeId}
    {pair : String × Value} (member : pair ∈ (store.define name v id).bindings other) :
    pair ∈ store.bindings other ∨ other = id ∧ pair = (name, v) := by
  unfold bindings at member ⊢
  rw [scope?_define] at member
  by_cases here : id = other
  · rw [if_pos here] at member
    cases found : store.scope? other with
    | none => simp [found] at member
    | some scope =>
      simp only [found, Option.map_some] at member ⊢
      exact (mem_insert member).imp_right fun new => ⟨here.symm, new⟩
  · rw [if_neg here] at member
    exact .inl member

theorem mem_bindings_add {scope : Scope} {id : ScopeId} {pair : String × Value}
    (member : pair ∈ (store.add scope).bindings id) :
    pair ∈ store.bindings id ∨ id = store.size ∧ pair ∈ scope.bindings := by
  unfold bindings at member ⊢
  rw [scope?_add] at member
  split at member
  next found =>
    split at found
    next new =>
      cases found
      exact .inr ⟨new, member⟩
    · rw [found]
      exact .inl member
  next => cases member

end MiniLisp.Store
