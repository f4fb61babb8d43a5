import MiniLisp.Proofs.Session.Lines
import MiniLisp.Proofs.Store.Root
import MiniLisp.Proofs.Value.Every
import MiniLisp.Workspace

/-!
# Global scopes are isolated

Several global scopes may live in one store, each with the scopes whose chains end at it. What is
done in one of these families reaches no other. A request could leave its family only through a
closure that remembers a scope of another one, so the invariant is that every closure in a binding,
also inside lists, belongs to the family of the scope that has the binding. While a value is
evaluated in a scope, the closures that turn up all come from bindings on the chain of a scope of
the same family, or remember such a scope from the start.
-/
namespace MiniLisp

/-- A closure of the family of a global scope: it remembers a scope whose chain ends there. Its
body can be read, and so holds no closure itself. -/
def Value.IsOwned (store : Store) (root : ScopeId) : Value → Prop
  | .closure _ _ body captured => captured < store.size ∧ store.root captured = root ∧ body.IsTree
  | _ => True

namespace Store

/-- Closures in bindings belong to the family of the scope, and all chains end at global scopes. -/
structure IsIsolated (store : Store) : Prop where
  owned : ∀ id, ∀ pair ∈ store.bindings id, pair.2.Every (Value.IsOwned store (store.root id))
  global : ∀ id < store.size, store.IsGlobal (store.root id)

/-- Between two moments only scopes of the family of a global scope have been written. -/
structure Spares (root : ScopeId) (before after : Store) : Prop where
  grows : Grows (fun _ _ => True) before after
  same : ∀ id < before.size, before.root id ≠ root → after.bindings id = before.bindings id

variable {store before between after : Store} {root : ScopeId}

theorem Grows.isOwned {gains : ScopeId → String → Prop} {v : Value}
    (grows : Grows gains before after) (owned : v.IsOwned before root) : v.IsOwned after root := by
  cases v with
  | closure serial parameters body captured =>
    obtain ⟨old, ends, tree⟩ := owned
    exact ⟨Nat.lt_of_lt_of_le old grows.size_le, (grows.root_eq old).trans ends, tree⟩
  | _ => trivial

namespace Spares

theorem refl (root : ScopeId) (store : Store) : Spares root store store :=
  ⟨.refl store, fun _ _ _ => rfl⟩

theorem trans (first : Spares root before between) (second : Spares root between after) :
    Spares root before after where
  grows := first.grows.trans second.grows
  same id old other := by
    have later : id < between.size := Nat.lt_of_lt_of_le old first.grows.size_le
    have still : between.root id ≠ root := by rwa [first.grows.root_eq old]
    rw [second.same id later still, first.same id old other]

theorem define {id : ScopeId} (ends : store.root id = root) (name : String) (v : Value) :
    Spares root store (store.define name v id) where
  grows := (Grows.define store name v id).any
  same other _ different := by
    apply bindings_define_of_ne
    rintro rfl
    exact different ends

theorem add (root : ScopeId) (store : Store) (scope : Scope) :
    Spares root store (store.add scope) where
  grows := .add store scope
  same _ old _ := bindings_add_of_lt old scope

end Spares

namespace IsIsolated

theorem define {name : String} {v : Value} {id : ScopeId} (met : store.IsIsolated)
    (owned : v.Every (Value.IsOwned store (store.root id))) :
    (store.define name v id).IsIsolated := by
  have grows : Grows (fun _ _ => True) store (store.define name v id) :=
    (Grows.define store name v id).any
  constructor
  · intro other pair member
    have old : other < store.size := by simpa using lt_size_of_mem member
    rw [grows.root_eq old]
    rcases mem_bindings_define member with member | ⟨rfl, rfl⟩
    · exact (met.owned other pair member).mono fun _ => grows.isOwned
    · exact owned.mono fun _ => grows.isOwned
  · intro other old
    rw [size_define] at old
    rw [grows.root_eq old]
    have le := store.root_le other
    exact grows.isGlobal (Nat.lt_of_le_of_lt le old) (met.global other old)

/-- A scope may be added if its bindings belong to the family that it becomes a member of. -/
theorem add {scope : Scope} (met : store.IsIsolated)
    (ends : (store.add scope).root store.size = root)
    (global : (store.add scope).IsGlobal root)
    (owned : ∀ pair ∈ scope.bindings, pair.2.Every (Value.IsOwned store root)) :
    (store.add scope).IsIsolated := by
  have grows : Grows (fun _ _ => True) store (store.add scope) := .add store scope
  constructor
  · intro id pair member
    rcases mem_bindings_add member with old | ⟨rfl, new⟩
    · rw [grows.root_eq (lt_size_of_mem old)]
      exact (met.owned id pair old).mono fun _ => grows.isOwned
    · rw [ends]
      exact (owned pair new).mono fun _ => grows.isOwned
  · intro id below
    rw [size_add] at below
    by_cases new : id = store.size
    · rw [new, ends]
      exact global
    · have old : id < store.size := Nat.lt_of_le_of_ne (Nat.le_of_lt_succ below) new
      rw [grows.root_eq old]
      exact grows.isGlobal (Nat.lt_of_le_of_lt (store.root_le id) old) (met.global id old)

/-- A child becomes a member of its parent's family. -/
theorem addChild {parent : ScopeId} {parameters : List String} {arguments : List Value}
    (met : store.IsIsolated) (old : parent < store.size)
    (owned : ∀ v ∈ arguments, v.Every (Value.IsOwned store (store.root parent))) :
    (store.add ⟨some parent, Bindings.ofLists parameters arguments⟩).IsIsolated := by
  have grows : Grows (fun _ _ => True) store
      (store.add ⟨some parent, Bindings.ofLists parameters arguments⟩) := .add store _
  have top : store.root parent < store.size := Nat.lt_of_le_of_lt (store.root_le parent) old
  apply met.add (root_add old _) (grows.isGlobal top (met.global parent old))
  exact fun pair member => owned pair.2 (mem_ofLists member).2

/-- A new global scope has a family of its own, and binds no closures. -/
theorem addGlobal (met : store.IsIsolated) : (store.add Scope.global).IsIsolated := by
  have global : (store.add Scope.global).IsGlobal store.size := isGlobal_add _
  apply met.add (root_of_isGlobal global) global
  exact fun pair member => Value.Every.standard (fun _ => trivial) member

theorem empty : Store.empty.IsIsolated := by
  constructor
  · intro id pair member
    exact absurd (lt_size_of_mem member) (Nat.not_lt_zero id)
  · intro id below
    exact absurd below (Nat.not_lt_zero id)

end IsIsolated

end Store

/-! ### Evaluation in one family -/

/-- What evaluation in the family of a global scope keeps. -/
def isolation (root : ScopeId) : Invariant where
  holds world := world.store.IsIsolated
  value world v := v.Every (Value.IsOwned world.store root)
  code world scope v := scope < world.store.size ∧ world.store.root scope = root ∧ v.IsTree
  fault _ _ := True
  seen _ := True
  later world after := Store.Spares root world.store after.store
  later_refl world := .refl root world.store
  later_trans first second := first.trans second
  value_later change owned := owned.mono fun _ => change.grows.isOwned
  code_later := by
    rintro world after scope v change ⟨old, ends, tree⟩
    have still := (change.grows.root_eq old).trans ends
    exact ⟨Nat.lt_of_lt_of_le old change.grows.size_le, still, tree⟩
  seen_of_code _ := trivial
  -- The owner of a name lies on the chain of the scope, so its bindings belong to the family.
  bound := by
    rintro world scope owner name form v met ⟨_, ends, _⟩ owned found
    have bound := met.owned owner _ (Store.mem_of_get? found)
    rwa [owned.root_eq, ends] at bound
  value_nil _ := .of_isBare Primitive.isBare_nil
  literal good _ := .of_isTree good.2.2 fun _ => trivial
  quoted := by
    rintro world scope word operands ⟨_, _, tree⟩ _
    have trees : ∀ v ∈ operands, v.IsTree := fun v member =>
      tree.of_item (List.mem_cons_of_mem _ member)
    exact .of_isTree (Value.IsTree.quoted trees) fun _ => trivial
  item := by
    rintro world scope items item ⟨old, ends, tree⟩ _ member
    exact ⟨old, ends, tree.of_item member⟩
  closes := by
    rintro world scope word parameters body met ⟨old, ends, tree⟩ _
    have body_tree : body.IsTree := tree.of_item (by simp)
    exact ⟨met, .refl root _, .of_given ⟨old, ends, body_tree⟩ nofun⟩
  defines := by
    rintro world scope form v name met ⟨_, rfl, _⟩ owned
    exact ⟨met.define owned, .define rfl name v⟩
  assigns := by
    rintro world scope owner name form v met ⟨_, rfl, _⟩ result owned
    have ends := owned.root_eq
    exact ⟨met.define (by rwa [ends]), .define ends name v⟩
  enters := by
    rintro world serial parameters body captured arguments met procedure given _
    obtain ⟨old, rfl, tree⟩ := procedure _ (.refl _) trivial
    refine ⟨met.addChild old given, .add _ _ _, by simp [World.enter, World.nextScope], ?_, tree⟩
    exact Store.root_add old _
  calls met _ _ _ := ⟨met, .refl root _⟩
  answers _ given answered := .answer given answered
  fails _ _ _ := trivial
  uncallable _ := trivial
  plain _ := trivial

/-! ### Requests -/

/-- The scope that a request is about. A new global scope is asked for without one. -/
def Request.environment? : Request → Option ScopeId
  | .openGlobal => none
  | .extend environment _ _ | .define environment _ _ | .assign environment _ _
  | .get environment _ | .fetch environment _ | .depth environment | .describe environment
  | .eval environment _ => some environment

/-- If the request is about a scope, the scope is there. -/
def Request.IsOn (request : Request) (store : Store) : Prop :=
  ∀ environment, request.environment? = some environment → environment < store.size

namespace Workspace

variable {depth : Nat} {root : ScopeId} {world : World}

theorem textOf_keeps (I : Invariant) (scope : ScopeId) :
    I.Keeps (textOf scope) (fun _ _ => True) world :=
  Invariant.Keeps.look.bind fun _ _ _ _ => .pure trivial

/-- A value that is read for a request is code in every scope of the family. -/
theorem readLine_isolated {environment : ScopeId} (there : environment < world.store.size)
    (ends : world.store.root environment = root) (text : String) :
    (isolation root).Keeps (Session.readLine text)
      (fun after tree => (isolation root).code after environment tree) world :=
  Invariant.readLine_keeps fun _ _ read => ⟨there, ends, Form.isTree_of_read read⟩

theorem respond_isolated {request : Request} (there : request.IsOn world.store)
    (about : ∀ environment, request.environment? = some environment →
      world.store.root environment = root) :
    (isolation root).Keeps (respond depth request) (fun _ _ => True) world := by
  cases request with
  | openGlobal =>
    have opened : (isolation root).Keeps (Run.addScope Scope.global) (fun _ _ => True) world :=
      .of_ok rfl fun met => ⟨met.addGlobal, .add root _ _, trivial⟩
    exact opened.bind fun scope _ _ _ => (textOf_keeps _ scope).bind fun _ _ _ _ => .pure trivial
  | extend environment parameters arguments =>
    have old := there environment rfl
    have ends := about environment rfl
    have read : (isolation root).Keeps (arguments.mapM Session.readLine)
        (fun after vs => ∀ v ∈ vs, (isolation root).code after environment v) world := by
      refine .mapM (fun after v => (isolation root).code after environment v)
        (isolation root).code_later ?_
      intro text _ between change
      have still := (change.grows.root_eq old).trans ends
      exact readLine_isolated (Nat.lt_of_lt_of_le old change.grows.size_le) still text
    refine read.bind fun vs between change trees => ?_
    have extended : (isolation root).Keeps (Run.extend parameters vs environment)
        (fun _ _ => True) between := by
      unfold Run.extend
      simp only [Arity.accepts_exactly]
      split
      · refine .of_ok rfl fun met => ⟨met.addChild ?_ ?_, .add root _ _, trivial⟩
        · exact Nat.lt_of_lt_of_le old change.grows.size_le
        · exact fun v member => .of_isTree (trees v member).2.2 fun _ => trivial
      · exact .fail trivial
    exact extended.bind fun scope _ _ _ => (textOf_keeps _ scope).bind fun _ _ _ _ => .pure trivial
  | define environment name text =>
    refine (readLine_isolated (there _ rfl) (about _ rfl) text).bind fun v between _ code => ?_
    refine Invariant.Keeps.look.bind fun _ last change _ => ?_
    have code := (isolation root).code_later change code
    have owned : (isolation root).value last v := .of_isTree code.2.2 fun _ => trivial
    have written : (isolation root).Keeps (Run.define name v environment) (fun _ _ => True) last :=
      .of_ok rfl fun met =>
        have ⟨holds, later⟩ := (isolation root).defines name met code owned
        ⟨holds, later, trivial⟩
    exact written.bind fun _ _ _ _ => .pure trivial
  | assign environment name text =>
    refine (readLine_isolated (there _ rfl) (about _ rfl) text).bind fun v between _ code => ?_
    have owned : (isolation root).value between v := .of_isTree code.2.2 fun _ => trivial
    exact (Invariant.assign_keeps code owned).bind fun _ _ _ _ => .pure trivial
  | get environment name => exact Invariant.Keeps.look.bind fun _ _ _ _ => .pure trivial
  | fetch environment name =>
    have code : (isolation root).code world environment (.list []) :=
      ⟨there _ rfl, about _ rfl, .list (by simp)⟩
    exact (Invariant.Keeps.fetch code).bind fun _ _ _ _ => .pure trivial
  | depth environment => exact Invariant.Keeps.look.bind fun _ _ _ _ => .pure trivial
  | describe environment => exact (textOf_keeps _ environment).bind fun _ _ _ _ => .pure trivial
  | eval environment line =>
    have evaluated : (isolation root).Keeps (Session.evaluateLine depth environment line)
        (isolation root).value world :=
      Invariant.evaluateLine_keeps depth fun _ _ read =>
        ⟨there _ rfl, about _ rfl, Form.isTree_of_read read⟩
    exact evaluated.bind fun _ _ _ _ => .pure trivial

/-- A request that is carried out in a family keeps all families apart and spares the others,
whether it fails or not. -/
theorem perform_isolated {request : Request} {workspace after : Workspace}
    {done : Session.Step Response} (met : workspace.world.store.IsIsolated)
    (there : request.IsOn workspace.world.store)
    (about : ∀ environment, request.environment? = some environment →
      workspace.world.store.root environment = root)
    (performed : workspace.perform depth request = some (done, after)) :
    after.world.store.IsIsolated ∧
      Store.Spares root workspace.world.store after.world.store := by
  unfold perform at performed
  split at performed
  next => cases performed
  next step world stepped =>
    cases performed
    obtain ⟨last, ran, same, _⟩ := Session.step_eq_some stepped
    have keeps : (isolation root).Keeps (respond depth request) (fun _ _ => True)
        { workspace.world with output := "" } := respond_isolated there about
    have kept := keeps met _ ran
    rw [← same]
    exact ⟨kept.holds, kept.later⟩

/-- A request is carried out as its run ends. -/
theorem perform_of_ends {request : Request} {workspace : Workspace} {last : World}
    {result : Except Fault Response}
    (ends : (respond depth request).EndsWith { workspace.world with output := "" } result last) :
    ∃ done, workspace.perform depth request = some (done,
        ⟨{ last with output := "" }, numbered workspace.environments result⟩) ∧
      done.result = result := by
  obtain ⟨trace, ran⟩ := ends
  exact ⟨⟨result, last.output, trace⟩, by simp [perform, Session.step, ran], rfl⟩

theorem respond_eval {environment : ScopeId} {line : String} {tree : Value} {ignored : Nat}
    {last : World} {result : Except Fault Value} (read : Form.read line = .ok (tree, ignored))
    (ends : (eval depth tree environment).EndsWith world result last) :
    (respond depth (.eval environment line)).EndsWith world (result.map .value) last := by
  have whole : (Session.evaluateLine depth environment line).EndsWith world result last :=
    (Session.readLine_ends read world).andThen ends
  cases result with
  | ok v => exact whole.andThen (Run.endsWith_pure.mpr ⟨rfl, rfl⟩)
  | error fault => exact whole.stops

/-- What can be reached from nothing by opening global scopes and carrying out requests on scopes
that are there, one after another in any order. -/
inductive Reached : Workspace → Prop where
  | empty : Reached ⟨World.empty, []⟩
  | request {workspace after : Workspace} {depth : Nat} {request : Request}
    {done : Session.Step Response} (reached : Reached workspace)
    (there : request.IsOn workspace.world.store)
    (performed : workspace.perform depth request = some (done, after)) : Reached after

/-- Some root for a request: that of its scope, or none of those that are there. -/
theorem exists_root (request : Request) (store : Store) :
    ∃ root, (∀ environment, request.environment? = some environment →
      store.root environment = root) ∧
      (request.environment? = none → root = store.size) := by
  cases request.environment? with
  | none => exact ⟨store.size, nofun, fun _ => rfl⟩
  | some environment =>
    refine ⟨store.root environment, ?_, nofun⟩
    rintro _ ⟨⟩
    rfl

theorem Reached.isIsolated {workspace : Workspace} (reached : Reached workspace) :
    workspace.world.store.IsIsolated := by
  induction reached with
  | empty => exact Store.IsIsolated.empty
  | request _ there performed ih =>
    obtain ⟨root, about, _⟩ := exists_root _ _
    exact (perform_isolated ih there about performed).1

end Workspace

open Workspace Value

/-- However global scopes are opened and requests carried out, in whatever order: a closure that
stands in a binding remembers a scope whose chain ends at the same global scope as the chain of the
scope with the binding; and a request on a scope changes no binding of a scope whose chain ends at
another global scope, even if it fails. -/
theorem global_scopes_isolated {workspace : Workspace} (reached : Reached workspace) :
    let store := workspace.world.store
    (∀ id < store.size, store.IsGlobal (store.root id)) ∧
    (∀ id, ∀ pair ∈ store.bindings id, ∀ serial parameters body captured,
      Subtree (.closure serial parameters body captured) pair.2 →
        captured < store.size ∧ store.root captured = store.root id) ∧
    ∀ depth request done after, request.IsOn store →
      workspace.perform depth request = some (done, after) →
      ∀ id < store.size,
        (∀ environment, request.environment? = some environment →
          store.root environment ≠ store.root id) →
        after.world.store.bindings id = store.bindings id := by
  intro store
  have met := reached.isIsolated
  refine ⟨met.global, ?_, ?_⟩
  · intro id pair member serial parameters body captured inside
    obtain ⟨old, ends, _⟩ := met.owned id pair member _ inside trivial
    exact ⟨old, ends⟩
  · intro depth request done after there performed id old other
    obtain ⟨root, about, apart⟩ := exists_root request store
    have spared := (perform_isolated met there about performed).2
    apply spared.same id old
    -- The root of the request is that of its scope, or lies beyond all scopes.
    cases asked : request.environment? with
    | none =>
      rw [apart asked]
      exact Nat.ne_of_lt (Nat.lt_of_le_of_lt (store.root_le id) old)
    | some environment =>
      rw [← about environment asked]
      exact (other environment asked).symm

/-- Of two global scopes the first binds a closure. Then a line in the second binds the same name
and fails after that, and the first is as it was. -/
theorem global_scopes_isolated_pair :
    ∃ (before after : Workspace) (done : Session.Step Response),
      Reached before ∧
      before.perform 4 (.eval 1 "(begin (define f 2) (if))") = some (done, after) ∧
      done.result = .error (.operandCount .conditional 0) ∧
      (before.world.store.bindings 0).get? "f" = some (.closure 0 ["x"] (.symbol "x") 0) ∧
      (after.world.store.bindings 1).get? "f" = some (.integer 2) ∧
      before.world.store.root 0 = 0 ∧ before.world.store.root 1 = 1 ∧
      after.world.store.bindings 0 = before.world.store.bindings 0 := by
  let two : World := { World.fresh with store := World.fresh.store.add Scope.global }
  let closure : Value := .closure 0 ["x"] (.symbol "x") 0
  let bound : World := { two with store := two.store.define "f" closure 0, closuresMade := 1 }
  let text : Value := .list [.symbol "lambda", .list [.symbol "x"], .symbol "x"]
  have opened : Reached ⟨two, [0, 1]⟩ :=
    @Reached.request ⟨World.fresh, [0]⟩ _ 0 .openGlobal _
      (@Reached.request ⟨World.empty, []⟩ _ 0 .openGlobal _ .empty nofun rfl) nofun rfl
  have defined : (eval 3 (.list [.symbol "define", .symbol "f", text]) 0).EndsWith two
      (.ok closure) bound := ⟨_, rfl⟩
  have failed : (eval 4 (.list [.symbol "begin",
      .list [.symbol "define", .symbol "f", .integer 2], .list [.symbol "if"]]) 1).EndsWith bound
      (.error (.operandCount .conditional 0)) (bound.define "f" (.integer 2) 1) := ⟨_, rfl⟩
  let first : Request := .eval 0 "(define f (lambda (x) x))"
  let second : Request := .eval 1 "(begin (define f 2) (if))"
  have there : first.IsOn two.store := by
    rintro _ ⟨⟩
    decide
  have still : second.IsOn bound.store := by
    rintro _ ⟨⟩
    decide
  have answered : (respond 3 first).EndsWith two (.ok (.value closure)) bound :=
    respond_eval rfl defined
  have refused : (respond 4 second).EndsWith bound (.error (.operandCount .conditional 0))
      (bound.define "f" (.integer 2) 1) := respond_eval rfl failed
  obtain ⟨_, performed, _⟩ := @perform_of_ends 3 first ⟨two, [0, 1]⟩ _ _ answered
  obtain ⟨done, last, result⟩ := @perform_of_ends 4 second ⟨bound, [0, 1]⟩ _ _ refused
  have reached : Reached ⟨bound, [0, 1]⟩ := .request opened there performed
  have roots : bound.store.root 0 = 0 ∧ bound.store.root 1 = 1 :=
    ⟨Store.root_of_isGlobal rfl, Store.root_of_isGlobal rfl⟩
  have apart (environment : ScopeId) (asked : second.environment? = some environment) :
      bound.store.root environment ≠ bound.store.root 0 := by
    cases asked
    rw [roots.1, roots.2]
    decide
  have same := (global_scopes_isolated reached).2.2 4 _ done _ still last 0 (by decide) apart
  exact ⟨_, _, done, reached, last, result, rfl, rfl, roots.1, roots.2, same⟩

end MiniLisp
