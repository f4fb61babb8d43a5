import MiniLisp.Proofs.Session.Environments
import MiniLisp.Proofs.Session.Lines
import MiniLisp.Proofs.Store.Exposure
import MiniLisp.Workspace

/-!
# Reading and writing variables

A variable is a binding, and the scopes that can read it may be many: children of the scope that
holds it, their children, and so on, as far as none nearer binds the same name. An assignment finds
a variable exactly where reading finds one, in the owner of the name, and a definition makes or
overwrites the one in the scope where it stands. Either way the new value is read wherever the
variable is read, and no other variable has changed.
-/
namespace MiniLisp

namespace Run

variable {world after : World} {name : String} {v : Value} {scope : ScopeId}

theorem fetch_ok_iff :
    (∃ w, (fetch name scope).EndsWith world (.ok w) world) ↔
      ∃ owner, world.store.owner? name scope = some owner := by
  simp [endsWith_fetch, Store.owner?_eq_some_iff, ← Store.isSome_get?_iff,
    Option.isSome_iff_exists]

theorem assign_ok_iff :
    (assign name v scope).EndsWith world (.ok ()) after ↔
      ∃ owner, world.store.owner? name scope = some owner ∧
        after = world.define name v owner := by
  simp [endsWith_assign, World.define]

theorem assign_error_iff {fault : Fault} :
    (assign name v scope).EndsWith world (.error fault) after ↔
      (∀ owner, world.store.owner? name scope ≠ some owner) ∧
        fault = .unknownSymbol name ∧ after = world := by
  simp [endsWith_assign, Option.eq_none_iff_forall_ne_some]

end Run

theorem Operation.define_ends (name : String) (v : Value) (scope : ScopeId) (world : World) :
    (Operation.define name v scope).run.EndsWith world
      (.ok ((world.store.bindings scope).get? name).toList) (world.define name v scope) :=
  ⟨_, rfl⟩

/-- The answer to a request to define says what was bound in the scope itself. -/
theorem Workspace.respond_define {text : String} {v : Value} {ignored : Nat}
    (read : Form.read text = .ok (v, ignored)) (depth : Nat) (name : String) (scope : ScopeId)
    (world : World) :
    (respond depth (.define scope name text)).EndsWith world
      (.ok (optional ((world.store.bindings scope).get? name))) (world.define name v scope) :=
  (Session.readLine_ends read world).andThen ⟨_, rfl⟩

/-- What is read and what is written, in a well-formed store. The owner of a name, as seen from a
scope, is the nearest scope on the chain that binds it. An assignment succeeds if and only if
reading the name does, which is if the name has an owner. Then the new value is found in the scopes
in which the name has that same owner, and every other read finds what it found before; and if there
is no owner, nothing has changed. A definition gives back what the scope itself bound the name to.
After it the new value is found in the scopes on whose chain that scope lies with no nearer one
binding the name, and every other read finds what it found before. -/
theorem reads_see_writes {world : World} (met : world.store.IsWellFormed) {scope : ScopeId}
    (there : scope < world.store.size) (name : String) (v : Value) :
    let store := world.store
    (∀ owner, store.owner? name scope = some owner ↔
      store.Exposes name scope owner ∧ store.Binds owner name) ∧
    ((∃ after, (Run.assign name v scope).EndsWith world (.ok ()) after) ↔
      ∃ w, (Run.fetch name scope).EndsWith world (.ok w) world) ∧
    ((∃ w, (Run.fetch name scope).EndsWith world (.ok w) world) ↔
      ∃ owner, store.owner? name scope = some owner) ∧
    (∀ after, (Run.assign name v scope).EndsWith world (.ok ()) after →
      ∀ other < store.size, ∀ asked, after.store.get? asked other =
        if asked = name ∧ store.owner? name other = store.owner? name scope then some v
        else store.get? asked other) ∧
    (∀ fault after, (Run.assign name v scope).EndsWith world (.error fault) after ↔
      (∀ owner, store.owner? name scope ≠ some owner) ∧ fault = .unknownSymbol name ∧
        after = world) ∧
    (Operation.define name v scope).run.EndsWith world
      (.ok ((store.bindings scope).get? name).toList) (world.define name v scope) ∧
    (∀ depth text ignored, Form.read text = .ok (v, ignored) →
      (Workspace.respond depth (.define scope name text)).EndsWith world
        (.ok (Workspace.optional ((store.bindings scope).get? name)))
        (world.define name v scope)) ∧
    ∀ other < store.size, ∀ asked,
      (asked = name ∧ store.Exposes name other scope →
        (world.define name v scope).store.get? asked other = some v) ∧
      (¬ (asked = name ∧ store.Exposes name other scope) →
        (world.define name v scope).store.get? asked other = store.get? asked other) := by
  intro store
  refine ⟨fun owner => met.owner?_eq_some_iff_exposes there, ?_, Run.fetch_ok_iff, ?_,
    fun fault after => Run.assign_error_iff, Operation.define_ends name v scope world,
    fun depth text ignored read => Workspace.respond_define read depth name scope world, ?_⟩
  · rw [Run.fetch_ok_iff]
    simp only [Run.assign_ok_iff]
    constructor
    · rintro ⟨_, owner, owned, _⟩
      exact ⟨owner, owned⟩
    · rintro ⟨owner, owned⟩
      exact ⟨_, owner, owned, rfl⟩
  · rintro after assigned other old asked
    obtain ⟨owner, owned, rfl⟩ := Run.assign_ok_iff.mp assigned
    have binds : store.Binds owner name := (Store.owner_of_owner? owned).bound
    rw [owned]
    exact met.get?_assign binds old asked v
  · intro other old asked
    constructor
    · rintro ⟨rfl, exposes⟩
      exact met.get?_define_of_exposes there old v exposes
    · exact fun hidden =>
        met.get?_define_of_not_exposes old name asked v fun same exposes => hidden ⟨same, exposes⟩

/-- The scope 1 binds `x` and has two children. The value assigned from the child that does not
bind it again is read in the scope 1, and the other child reads its own. What is defined in that
first child is read there. -/
theorem reads_see_writes_siblings :
    let world := ((World.fresh.enter ["x"] [.integer 1] 0).enter [] [] 1).enter ["x"] [.integer 2] 1
    let after := world.define "x" (.integer 5) 1
    world.store.IsWellFormed ∧ 2 < world.store.size ∧
      (Run.assign "x" (.integer 5) 2).EndsWith world (.ok ()) after ∧
      after.store.get? "x" 1 = some (.integer 5) ∧ after.store.get? "x" 3 = some (.integer 2) ∧
      (Workspace.respond 0 (.define 2 "x" "5")).EndsWith world (.ok .absent)
        (world.define "x" (.integer 5) 2) ∧
      (world.define "x" (.integer 5) 2).store.get? "x" 2 = some (.integer 5) := by
  intro world after
  have integer (store : Store) (n : Int64) : ∀ v ∈ [Value.integer n], v.IsAllocated store := by
    simpa using Value.IsAllocated.of_isBare (Primitive.isBare_integer n)
  have global : World.fresh.store.IsWellFormed := Store.isWellFormed_empty.addGlobal
  have parent : (World.fresh.enter ["x"] [.integer 1] 0).store.IsWellFormed :=
    global.addChild (by decide) (integer _ _)
  have child : ((World.fresh.enter ["x"] [.integer 1] 0).enter [] [] 1).store.IsWellFormed :=
    parent.addChild (by decide) nofun
  have met : world.store.IsWellFormed := child.addChild (by decide) (integer _ _)
  have above : world.store.Owner "x" 1 1 := .here rfl
  have below : world.store.Owner "x" 2 1 := .outside rfl ⟨_, rfl⟩ above
  have shadow : world.store.Owner "x" 3 3 := .here rfl
  have read : Form.read "5" = .ok (.integer 5, 0) := rfl
  obtain ⟨_, _, _, seen, _, _, answered, defined⟩ :=
    @reads_see_writes world met 2 (by decide) "x" (.integer 5)
  have assigned : (Run.assign "x" (.integer 5) 2).EndsWith world (.ok ()) after :=
    Run.assign_ok_iff.mpr ⟨1, Store.owner?_of_owner below, rfl⟩
  have reads := seen after assigned
  have own := (defined 2 (by decide) "x").1 ⟨rfl, Store.exposes_self _ _ _⟩
  refine ⟨met, by decide, assigned, ?_, ?_, answered 0 "5" 0 read, own⟩
  · rw [reads 1 (by decide) "x", if_pos]
    exact ⟨rfl, by rw [Store.owner?_of_owner above, Store.owner?_of_owner below]⟩
  · rw [reads 3 (by decide) "x", if_neg]
    · exact Store.get?_eq_some_iff.mpr ⟨3, shadow, rfl⟩
    · rw [Store.owner?_of_owner shadow, Store.owner?_of_owner below]
      decide

end MiniLisp
