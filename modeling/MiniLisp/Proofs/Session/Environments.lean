import MiniLisp.Proofs.Eval.Moments
import MiniLisp.Proofs.Store.WellFormed

/-!
# Environments stay well-formed

Whoever uses the interpreter makes global scopes and children of scopes, writes to scopes and
evaluates values in them, and may hand in again every value that was returned. Whatever is done in
which order, and whether it fails or not, the store is well-formed afterwards, and so it is at
every moment of an evaluation: the invariant of the steps is that what occurs remembers only scopes
that are there.
-/
namespace MiniLisp

/-- What evaluation keeps of a well-formed store. -/
def wellFormedness : Invariant where
  holds world := world.store.IsWellFormed
  value world v := v.IsAllocated world.store
  code world scope v := scope < world.store.size ∧ v.IsAllocated world.store
  fault world fault := ∀ v, fault = .notCallable v → v.IsAllocated world.store
  seen _ := True
  later world after := Store.Deepens world.store after.store
  later_refl world := .refl world.store
  later_trans first second := first.trans second
  value_later change allocated := allocated.mono change.grows.size_le
  code_later change good :=
    ⟨Nat.lt_of_lt_of_le good.1 change.grows.size_le, good.2.mono change.grows.size_le⟩
  seen_of_code _ := trivial
  bound met _ _ found := met.allocated _ _ (Store.mem_of_get? found)
  value_nil _ := .of_isBare Primitive.isBare_nil
  literal good _ := good.2
  quoted good _ := .quoted fun _ member => good.2.item (List.mem_cons_of_mem _ member)
  item good _ member := ⟨good.1, good.2.item member⟩
  closes met good _ := ⟨met, .refl _, .closure good.1 (good.2.item (by simp))⟩
  defines name met _ result := ⟨met.define _ result, .define _ name _ _⟩
  assigns met _ result _ := ⟨met.define _ result, .define _ _ _ _⟩
  -- A closure remembers its scope, and what is remembered in its body it remembers as well.
  enters := by
    intro world serial parameters body captured arguments met procedure given _
    have old : captured < world.store.size := procedure captured .closure
    have size : world.store.size ≤ (world.enter parameters arguments captured).store.size := by
      simp [World.enter]
    refine ⟨met.addChild old given, .addChild _ _ _, by simp [World.enter, World.nextScope], ?_⟩
    exact fun scope remembers => Nat.lt_of_lt_of_le (procedure scope (.body remembers)) size
  calls met _ _ _ := ⟨met, .refl _⟩
  answers _ given answer := Value.isAllocated_iff_every.mpr <|
    .answer (fun w member => Value.isAllocated_iff_every.mp (given w member)) answer
  fails _ _ answer v carries := absurd carries (Primitive.isBare_of_error answer v)
  uncallable := by
    rintro world v result _ ⟨⟩
    exact result
  plain is v carries := absurd carries (is.1 v)

/-! ### Operations -/

/-- What can be done with scopes from outside of a program. -/
inductive Operation where
  | openGlobal
  | extend (parameters : List String) (arguments : List Value) (parent : ScopeId)
  | define (name : String) (v : Value) (scope : ScopeId)
  | assign (name : String) (v : Value) (scope : ScopeId)
  | eval (depth : Nat) (expression : Value) (scope : ScopeId)

namespace Operation

/-- The scope that is handed in. -/
def scope? : Operation → Option ScopeId
  | .openGlobal => none
  | .extend _ _ scope | .define _ _ scope | .assign _ _ scope | .eval _ _ scope => some scope

/-- The values that are handed in. -/
def given : Operation → List Value
  | .openGlobal => []
  | .extend _ arguments _ => arguments
  | .define _ v _ | .assign _ v _ | .eval _ v _ => [v]

/-- Carries out an operation and gives the values that it returns. -/
def run : Operation → Run (List Value)
  | .openGlobal => do
    let _ ← Run.addScope Scope.global
    return []
  | .extend parameters arguments parent => do
    let _ ← Run.extend parameters arguments parent
    return []
  -- A definition returns the value that it replaces.
  | .define name v scope => do
    let world ← Run.world
    Run.define name v scope
    return ((world.store.bindings scope).get? name).toList
  | .assign name v scope => do
    Run.assign name v scope
    return []
  | .eval depth expression scope => do
    return [← MiniLisp.eval depth expression scope]

/-- The values that become known by a result. A value that cannot be applied is shown by its
fault. -/
def returned : Except Fault (List Value) → List Value
  | .ok vs => vs
  | .error (.notCallable v) => [v]
  | .error _ => []

/-- The global scope that is made in the given world, if any. -/
def opened (world : World) : Operation → List ScopeId
  | .openGlobal => [world.store.size]
  | _ => []

variable {operation : Operation} {world after : World} {result : Except Fault (List Value)}

theorem keeps (other : operation ≠ .openGlobal)
    (there : ∀ scope, operation.scope? = some scope → scope < world.store.size)
    (allocated : ∀ v ∈ operation.given, v.IsAllocated world.store) :
    wellFormedness.Keeps operation.run (fun after vs => ∀ v ∈ vs, v.IsAllocated after.store)
      world := by
  cases operation with
  | openGlobal => exact absurd rfl other
  | extend parameters arguments parent =>
    have closure : wellFormedness.value world (.closure 0 parameters .nil parent) :=
      .closure (there parent rfl) (.of_isBare Primitive.isBare_nil)
    exact (Invariant.extend_keeps closure allocated).bind fun _ _ _ _ => .pure (by simp)
  | define name v scope =>
    have looked : wellFormedness.Keeps Run.world (fun between seen => seen = between) world :=
      .of_ok rfl fun met => ⟨met, .refl _, rfl⟩
    refine looked.bind ?_
    rintro between _ change rfl met
    have code : wellFormedness.code between scope v := wellFormedness.code_later change
      ⟨there scope rfl, allocated v List.mem_cons_self⟩
    have replaced : ∀ w ∈ ((between.store.bindings scope).get? name).toList,
        w.IsAllocated between.store := fun w member =>
      met.allocated scope _ (Store.mem_of_get? (Option.mem_toList.mp member))
    have written : wellFormedness.Keeps (Run.define name v scope) (fun _ _ => True) between :=
      .of_ok rfl fun met =>
        have ⟨holds, later⟩ := wellFormedness.defines name met code code.2
        ⟨holds, later, trivial⟩
    exact (written.bind fun _ last change _ => .pure fun w member =>
      wellFormedness.value_later change (replaced w member)) met
  | assign name v scope =>
    have code : wellFormedness.code world scope v :=
      ⟨there scope rfl, allocated v List.mem_cons_self⟩
    exact (Invariant.assign_keeps code code.2).bind fun _ _ _ _ => .pure (by simp)
  | eval depth expression scope =>
    have code : wellFormedness.code world scope expression :=
      ⟨there scope rfl, allocated expression List.mem_cons_self⟩
    exact (wellFormedness.eval_keeps depth _ _ _ code).bind fun v _ _ good =>
      .pure (List.forall_mem_singleton.mpr good)

end Operation

/-- A world, the scopes that were made without a parent, and the values that are known. -/
structure Environments where
  world : World
  globals : List ScopeId
  known : List Value

namespace Environments

/-- What can be reached from nothing by reading texts and carrying out operations, whether they
fail or not, on scopes that are there and with values that are known. -/
inductive Reached : Environments → Prop where
  | empty : Reached ⟨World.empty, [], []⟩
  | read {environments : Environments} {text : String} {tree : Value} {ignored : Nat}
    (reached : Reached environments) (read : Form.read text = .ok (tree, ignored)) :
    Reached { environments with known := tree :: environments.known }
  | operation {environments : Environments} {operation : Operation}
    {result : Except Fault (List Value)} {after : World} (reached : Reached environments)
    (there : ∀ scope, operation.scope? = some scope → scope < environments.world.store.size)
    (given : ∀ v ∈ operation.given, v ∈ environments.known)
    (ends : operation.run.EndsWith environments.world result after) :
    Reached ⟨after, environments.globals ++ operation.opened environments.world,
      Operation.returned result ++ environments.known⟩

structure IsSound (environments : Environments) : Prop where
  store : environments.world.store.IsWellFormed
  global : ∀ id, environments.world.store.IsGlobal id → id ∈ environments.globals
  known : ∀ v ∈ environments.known, v.IsAllocated environments.world.store

variable {environments : Environments} {operation : Operation} {after : World}
variable {result : Except Fault (List Value)}

theorem isSound_openGlobal (sound : environments.IsSound)
    (ends : Operation.openGlobal.run.EndsWith environments.world result after) :
    IsSound ⟨after, environments.globals ++ [environments.world.store.size],
      Operation.returned result ++ environments.known⟩ := by
  have done : Operation.openGlobal.run environments.world = some ⟨.ok [],
      { environments.world with store := environments.world.store.add Scope.global },
      .both .empty .empty⟩ := rfl
  obtain ⟨rfl, rfl⟩ := (Run.endsWith_of_some done).mp ends
  refine ⟨sound.store.addGlobal, fun id top => ?_, fun v known => ?_⟩
  · unfold Store.IsGlobal at top
    rw [Store.scope?_add] at top
    split at top
    next new => exact List.mem_append_right _ (List.mem_singleton.mpr new)
    next => exact List.mem_append_left _ (sound.global id top)
  · exact (sound.known v known).mono (by simp)

theorem isSound_operation (sound : environments.IsSound)
    (there : ∀ scope, operation.scope? = some scope → scope < environments.world.store.size)
    (given : ∀ v ∈ operation.given, v ∈ environments.known)
    (ends : operation.run.EndsWith environments.world result after) :
    IsSound ⟨after, environments.globals ++ operation.opened environments.world,
      Operation.returned result ++ environments.known⟩ := by
  by_cases opens : operation = .openGlobal
  · subst opens
    exact isSound_openGlobal sound ends
  · obtain ⟨trace, ran⟩ := ends
    have allocated := fun v member => sound.known v (given v member)
    have kept := Operation.keeps opens there allocated sound.store _ ran
    have later : Store.Deepens environments.world.store after.store := kept.later
    refine ⟨kept.holds, fun id top => ?_, fun v member => ?_⟩
    · exact List.mem_append_left _ (sound.global id (later.global id top))
    · rcases List.mem_append.mp member with new | old
      · cases result with
        | ok vs => exact kept.value vs rfl v new
        | error fault =>
          cases fault with
          | notCallable w =>
            obtain rfl := List.mem_singleton.mp new
            exact kept.fault _ rfl v rfl
          | _ => cases new
      · exact (sound.known v old).mono later.grows.size_le

theorem Reached.isSound (reached : environments.Reached) : environments.IsSound := by
  induction reached with
  | empty =>
    exact ⟨Store.isWellFormed_empty,
      fun id top => absurd (Store.lt_size_of_parent top) (Nat.not_lt_zero id), nofun⟩
  | read _ read ih =>
    refine ⟨ih.store, ih.global, fun v member => ?_⟩
    rcases List.mem_cons.mp member with rfl | old
    · exact .of_isTree (Form.isTree_of_read read)
    · exact ih.known v old
  | operation _ there given ends ih => exact isSound_operation ih there given ends

end Environments

/-! ### Access to names and calls -/

/-- What it comes to if a name is looked up in a scope or assigned to from there: the search along
the links has one end, which is the owner of the name or a scope without parent. -/
inductive Access (world : World) (name : String) (id : ScopeId) : Prop where
  | bound {owner : ScopeId} {v : Value}
    (search : ∀ found, world.store.Search name id found ↔ found = some owner)
    (holds : (world.store.bindings owner).get? name = some v)
    (get : world.store.get? name id = some v)
    (fetch : (Run.fetch name id).EndsWith world (.ok v) world)
    (assign : ∀ w, (Run.assign name w id).EndsWith world (.ok ()) (world.define name w owner))
  | unbound (search : ∀ found, world.store.Search name id found ↔ found = none)
    (get : world.store.get? name id = none)
    (fetch : (Run.fetch name id).EndsWith world (.error (.unknownSymbol name)) world)
    (assign : ∀ w, (Run.assign name w id).EndsWith world (.error (.unknownSymbol name)) world)

theorem access {world : World} {id : ScopeId} (met : world.store.IsWellFormed)
    (old : id < world.store.size) (name : String) : Access world name id := by
  have search (found : Option ScopeId) :
      world.store.Search name id found ↔ found = world.store.owner? name id := met.search_iff old
  cases found : world.store.owner? name id with
  | some owner =>
    rw [found] at search
    have owned := Store.owner_of_owner? found
    obtain ⟨v, bound⟩ := owned.bound
    have get : world.store.get? name id = some v :=
      Store.get?_eq_some_iff.mpr ⟨owner, owned, bound⟩
    exact .bound search bound get (Run.endsWith_fetch.mpr ⟨rfl, .inl ⟨v, get, rfl⟩⟩)
      fun w => Run.endsWith_assign.mpr (.inl ⟨owner, found, rfl, rfl⟩)
  | none =>
    rw [found] at search
    have get : world.store.get? name id = none :=
      Store.get?_eq_none_iff.mpr (Store.owner?_eq_none_iff.mp found)
    exact .unbound search get (Run.endsWith_fetch.mpr ⟨rfl, .inr ⟨get, rfl⟩⟩)
      fun w => Run.endsWith_assign.mpr (.inr ⟨found, rfl, rfl⟩)

theorem extend_addsChild {world after : World} {parent : ScopeId} {parameters : List String}
    {arguments : List Value} {result : Except Fault ScopeId} (old : parent < world.store.size)
    (ends : (Run.extend parameters arguments parent).EndsWith world result after) :
    (arguments.length = parameters.length ∧ result = .ok world.store.size ∧
      world.store.AddsChild after.store parent) ∨
      arguments.length ≠ parameters.length ∧ (∃ fault, result = .error fault) ∧ after = world := by
  rcases Run.endsWith_extend.mp ends with ⟨count, rfl, rfl⟩ | ⟨count, rfl, rfl⟩
  · exact .inl ⟨count, rfl, Store.addsChild_add old _⟩
  · exact .inr ⟨count, ⟨_, rfl⟩, rfl⟩

/-- The body of a closure is evaluated in a new child of the scope that it remembers. -/
theorem apply_addsChild {world after : World} {depth serial : Nat} {parameters : List String}
    {body : Value} {captured : ScopeId} {arguments : List Value} {result : Except Fault Value}
    (old : captured < world.store.size)
    (ends : (apply depth (.closure serial parameters body captured) arguments).EndsWith world
      result after) :
    (arguments.length = parameters.length ∧ ∃ entered : World,
      world.store.AddsChild entered.store captured ∧
      (eval depth body world.store.size).EndsWith entered result after) ∨
      arguments.length ≠ parameters.length ∧ (∃ fault, result = .error fault) ∧ after = world := by
  rcases Eval.applyWith_closure.mp ends with ⟨count, entered⟩ | ⟨count, rfl, rfl⟩
  · exact .inl ⟨count, world.enter parameters arguments captured, Store.addsChild_add old _,
      entered⟩
  · exact .inr ⟨count, ⟨_, rfl⟩, rfl⟩

/-- Whatever is done with scopes, in whatever order and whether it fails or not: the store is
well-formed, and everything that is known remembers only scopes that are there. From every scope
there is one way up to a scope without parent; it never meets a scope that is not there or the same
scope twice, it ends at a scope that was made as a global one, and the depth is the number of its
links. Looking names up and assigning to them therefore always comes to an end. Making a child of a
scope and calling a closure each add one scope, one deeper than its parent, and leave all others as
they were, or fail and change nothing. All this is so at every moment of an evaluation as well,
and for every value that is computed on the way. -/
theorem environments_wellFormed {environments : Environments} (reached : environments.Reached) :
    let world := environments.world
    let store := world.store
    store.IsWellFormed ∧ (∀ v ∈ environments.known, v.IsAllocated store) ∧
    (∀ id < store.size,
      store.root id ∈ environments.globals ∧
      (∀ n top, store.Chain id n top ∧ store.IsGlobal top ↔
        n = store.depth id ∧ top = store.root id) ∧
      (∀ n top, store.Chain id n top → top < store.size ∧ (n ≠ 0 → top ≠ id)) ∧
      ∀ name, Access world name id) ∧
    (∀ parent < store.size, ∀ parameters arguments result after,
      (Run.extend parameters arguments parent).EndsWith world result after →
        (arguments.length = parameters.length ∧ result = .ok store.size ∧
          store.AddsChild after.store parent) ∨
        arguments.length ≠ parameters.length ∧ (∃ fault, result = .error fault) ∧
          after = world) ∧
    (∀ before depth serial parameters body captured arguments result after,
      captured < before.store.size →
      (apply depth (.closure serial parameters body captured) arguments).EndsWith before
        result after →
        (arguments.length = parameters.length ∧ ∃ entered : World,
          before.store.AddsChild entered.store captured ∧
          (eval depth body before.store.size).EndsWith entered result after) ∨
        arguments.length ≠ parameters.length ∧ (∃ fault, result = .error fault) ∧
          after = before) ∧
    ∀ expression ∈ environments.known, ∀ scope < store.size, ∀ moment,
      Relation.ReflTransGen Moment.Reaches ⟨world, scope, expression⟩ moment →
      moment.world.store.IsWellFormed ∧ moment.scope < moment.world.store.size ∧
      ∀ depth result after,
        (eval depth moment.expression moment.scope).EndsWith moment.world result after →
          after.store.IsWellFormed ∧ (∀ v, result = .ok v → v.IsAllocated after.store) := by
  intro world store
  have sound := reached.isSound
  refine ⟨sound.store, sound.known, ?_, ?_, ?_, ?_⟩
  · intro id old
    have top := (sound.store.chain_root old).2
    refine ⟨sound.global _ top, fun n top => sound.store.chain_iff old, ?_, access sound.store old⟩
    intro n top chain
    have le := Nat.le_trans (Nat.le_add_right top n) (sound.store.chain_le chain)
    refine ⟨Nat.lt_of_le_of_lt le old, ?_⟩
    rintro some rfl
    obtain ⟨m, rfl⟩ := Nat.exists_eq_succ_of_ne_zero some
    exact sound.store.chain_irrefl chain
  · exact fun parent old parameters arguments result after => extend_addsChild old
  · exact fun before depth serial parameters body captured arguments result after old =>
      apply_addsChild old
  · intro expression member scope old moment context
    have first : wellFormedness.At ⟨world, scope, expression⟩ :=
      ⟨sound.store, old, sound.known expression member⟩
    obtain ⟨⟨met, code⟩, _⟩ := Invariant.reaches_at context first
    refine ⟨met, code.1, fun depth result after ends => ?_⟩
    obtain ⟨trace, ran⟩ := ends
    have kept := wellFormedness.eval_keeps depth _ _ _ code met _ ran
    exact ⟨kept.holds, kept.value⟩

/-- A closure is bound in the scope that it remembers, and in a child of that scope. Calling it adds
another child. -/
theorem environments_wellFormed_circle :
    let text : Value := .list [.symbol "lambda", .list [.symbol "x"], .list []]
    let closure : Value := .closure 0 ["x"] (.list []) 0
    let world := (World.fresh.withClosure.define "f" closure 0).enter ["z"] [closure] 0
    let store := world.store
    ∃ environments : Environments, environments.Reached ∧ environments.world = world ∧
      environments.globals = [0] ∧ environments.known = [closure, text] ∧
      (store.bindings 0).get? "f" = some closure ∧ (store.bindings 1).get? "z" = some closure ∧
      (∀ scope, closure.Remembers scope → scope < store.size) ∧
      store.root 1 = 0 ∧ store.Chain 1 1 0 ∧ ¬ store.Chain 1 1 1 ∧ Access world "f" 1 ∧
      (∃ entered : World, store.AddsChild entered.store 0 ∧
        (eval 1 (.list []) 2).EndsWith entered (.ok (.list [])) (world.enter ["x"] [text] 0)) := by
  intro text closure world store
  have read : Form.read "(lambda (x) ())" = .ok (text, 0) := rfl
  have opened : Environments.Reached ⟨World.fresh, [0], []⟩ :=
    @Environments.Reached.operation _ .openGlobal _ World.fresh .empty nofun nofun ⟨_, rfl⟩
  have here {world : World} (old : 0 < world.store.size) (scope : ScopeId)
      (same : some 0 = some scope) : scope < world.store.size := by
    cases same
    exact old
  have made : Environments.Reached ⟨World.fresh.withClosure, [0], [closure, text]⟩ :=
    @Environments.Reached.operation _ (.eval 2 text 0) _ World.fresh.withClosure
      (.read opened read) (here Nat.one_pos) (fun _ member => member) ⟨_, rfl⟩
  have bound : Environments.Reached
      ⟨World.fresh.withClosure.define "f" closure 0, [0], [closure, text]⟩ :=
    @Environments.Reached.operation _ (.define "f" closure 0) _
      (World.fresh.withClosure.define "f" closure 0) made (here Nat.one_pos)
      (by simp [Operation.given]) ⟨_, rfl⟩
  have extended : Environments.Reached ⟨world, [0], [closure, text]⟩ :=
    @Environments.Reached.operation _ (.extend ["z"] [closure] 0) _ world bound
      (here Nat.one_pos) (by simp [Operation.given]) ⟨_, rfl⟩
  obtain ⟨_, known, scopes, _, calls, _⟩ := environments_wellFormed extended
  obtain ⟨_, ways, circles, names⟩ := scopes 1 (by decide)
  have chain : store.Chain 1 1 0 := .up rfl .here
  have called : (apply 2 closure [text]).EndsWith world (.ok (.list []))
      (world.enter ["x"] [text] 0) := ⟨_, rfl⟩
  refine ⟨_, extended, rfl, rfl, rfl, rfl, rfl, known closure List.mem_cons_self,
    ((ways 1 0).mp ⟨chain, rfl⟩).2.symm, chain, fun circle => ?_, names "f", ?_⟩
  · exact (circles 1 1 circle).2 Nat.one_ne_zero rfl
  · rcases calls world 2 0 ["x"] (.list []) 0 [text] _ _ (by decide) called with
      ⟨_, entered⟩ | ⟨different, _⟩
    · exact entered
    · exact absurd rfl different

end MiniLisp
