import Mathlib.Logic.Relation
import MiniLisp.Proofs.Eval.Calls
import MiniLisp.Proofs.Session.Lines
import MiniLisp.Proofs.Store.Live

/-!
# Primitives cannot be made

A program gets hold of a primitive only by a name that is bound to it, or from a list in a binding.
The reader makes none, no form makes one, and no primitive answers with one that it was not given.
So what is gone from all bindings that code can get at is gone for good. In particular, a session
whose lines get at no binding of `quit` cannot be left by a line any more, and one whose lines get
at no binding of `display` displays nothing.
-/
namespace MiniLisp

open Value

/-- One of the allowed primitives, or a closure with a body that can be read, and therefore holds no
primitive, that remembers a scope of the region. -/
def Value.IsGenuine (allowed : Primitive → Prop) (region : ScopeId → Prop) : Value → Prop
  | .primitive p => allowed p
  | .closure _ _ body scope => body.IsTree ∧ region scope
  | _ => True

/-- What a genuine value remembers lies in the region: bodies remember nothing. -/
theorem Value.Every.remembered {allowed : Primitive → Prop} {region : ScopeId → Prop} {v : Value}
    {scope : ScopeId} (genuine : v.Every (Value.IsGenuine allowed region))
    (remembers : v.Remembers scope) : region scope := by
  obtain ⟨part, inside, given, remembers⟩ := remembers.exists_given
  have good := genuine part inside given
  cases remembers with
  | closure => exact good.2
  | body inside =>
    have nothing : IsAllocated .empty _ := .of_isTree good.1
    exact absurd (nothing scope inside) (Nat.not_lt_zero scope)
  | item => cases given

namespace Store

/-- The primitive stands in a binding of a scope that code in one of the roots can get at. If every
scope is a root, it stands in a binding of some scope. -/
def Holds (store : Store) (roots : ScopeId → Prop) (p : Primitive) : Prop :=
  ∃ id, store.Live roots id ∧ ∃ pair ∈ store.bindings id, Subtree (.primitive p) pair.2

/-- The bodies of the closures in bindings of live scopes can be read. -/
def HasTreeBodies (store : Store) (roots : ScopeId → Prop) : Prop :=
  ∀ id, store.Live roots id → ∀ pair ∈ store.bindings id, ∀ serial parameters body scope,
    Subtree (.closure serial parameters body scope) pair.2 → body.IsTree

/-- Bindings in the region hold allowed primitives only, and closures with bodies that can be read
that remember scopes of the region. The parents of its scopes lie in the region too, and so do all
scopes that are still to be made. -/
structure IsGenuine (allowed : Primitive → Prop) (region : ScopeId → Prop) (store : Store) :
    Prop where
  bound : ∀ id, region id → ∀ pair ∈ store.bindings id,
    pair.2.Every (Value.IsGenuine allowed region)
  parent : ∀ id parent, region id → store.Parent id parent → region parent
  new : ∀ id ≥ store.size, region id

variable {store : Store} {allowed : Primitive → Prop} {roots region : ScopeId → Prop}

theorem HasTreeBodies.isGenuine (bodies : store.HasTreeBodies roots) :
    store.IsGenuine (store.Holds roots) (store.LiveOrNew roots) where
  bound id inside pair member part stands given := by
    have live : store.Live roots id :=
      inside.resolve_right (Nat.not_le_of_lt (lt_size_of_mem member))
    cases part with
    | primitive p => exact ⟨id, live, pair, member, stands⟩
    | closure serial parameters body scope =>
      exact ⟨bodies id live pair member serial parameters body scope stands,
        .inl (.remembered live member (.of_subtree .closure stands))⟩
    | _ => trivial
  parent := (isClosed_liveOrNew store roots).parent
  new _ le := .inr le

namespace IsGenuine

theorem isClosed (met : store.IsGenuine allowed region) : store.IsClosed region where
  parent := met.parent
  remembered id inside pair member _ remembers :=
    (met.bound id inside pair member).remembered remembers

theorem hasTreeBodies (met : store.IsGenuine allowed region)
    (inside : ∀ id, roots id → region id) : store.HasTreeBodies roots := by
  intro id live pair member _ _ _ _ stands
  exact (met.bound id (met.isClosed.of_live inside live) pair member _ stands trivial).1

theorem of_holds {p : Primitive} (met : store.IsGenuine allowed region)
    (inside : ∀ id, roots id → region id) (holds : store.Holds roots p) : allowed p := by
  obtain ⟨id, live, pair, member, stands⟩ := holds
  exact met.bound id (met.isClosed.of_live inside live) pair member _ stands trivial

theorem define {name : String} {v : Value} {id : ScopeId} (met : store.IsGenuine allowed region)
    (result : v.Every (Value.IsGenuine allowed region)) :
    (store.define name v id).IsGenuine allowed region where
  bound other inside pair member := by
    rcases mem_bindings_define member with old | ⟨_, rfl⟩
    · exact met.bound other inside pair old
    · exact result
  parent other parent inside up := by
    rw [parent_iff, parent_define, ← parent_iff] at up
    exact met.parent other parent inside up
  new other le := met.new other (by simpa using le)

theorem add {scope : Scope} (met : store.IsGenuine allowed region)
    (above : ∀ parent, scope.parent = some parent → region parent)
    (bound : ∀ pair ∈ scope.bindings, pair.2.Every (Value.IsGenuine allowed region)) :
    (store.add scope).IsGenuine allowed region where
  bound id inside pair member := by
    rcases mem_bindings_add member with old | ⟨_, new⟩
    · exact met.bound id inside pair old
    · exact bound pair new
  parent id parent inside up := by
    rw [parent_iff, scope?_add] at up
    split at up
    · exact above parent (Option.some.inj up.2)
    · exact met.parent id parent inside (parent_iff.mpr up)
  new id le := met.new id (Nat.le_trans (by simp) le)

theorem fresh : World.fresh.store.IsGenuine (fun _ => True) (fun _ => True) := by
  have empty : Store.empty.IsGenuine (fun _ => True) (fun _ => True) :=
    ⟨fun id _ pair member => absurd (lt_size_of_mem member) (Nat.not_lt_zero id),
      fun _ _ _ _ => trivial, fun _ _ => trivial⟩
  exact empty.add nofun fun pair member => Every.standard (fun _ => trivial) member

end IsGenuine

end Store

/-- The fault carries the primitive: in a value that cannot be applied, or to blame it. -/
inductive Fault.Carries (p : Primitive) : Fault → Prop where
  | value {v : Value} (inside : Subtree (.primitive p) v) : Carries p (.notCallable v)
  | noCase : Carries p (.noCase p)

/-- The fault shows only what is genuine, and what it asks for or blames is allowed. -/
structure Fault.IsGenuine (allowed : Primitive → Prop) (region : ScopeId → Prop) (fault : Fault) :
    Prop where
  shown : ∀ v, fault = .notCallable v → v.Every (Value.IsGenuine allowed region)
  blamed : ∀ p, fault = .noCase p → allowed p
  leaves : ∀ code, fault = .exit code → allowed .quit

theorem Fault.IsGenuine.of_carries {allowed : Primitive → Prop} {region : ScopeId → Prop}
    {fault : Fault} {p : Primitive} (genuine : fault.IsGenuine allowed region)
    (carries : fault.Carries p) : allowed p := by
  cases carries with
  | value inside => exact genuine.shown _ rfl _ inside trivial
  | noCase => exact genuine.blamed p rfl

/-- What evaluation with some allowed primitives keeps, in a region that it does not leave. -/
def genuineness (allowed : Primitive → Prop) (region : ScopeId → Prop) : Invariant where
  holds world := world.store.IsGenuine allowed region
  value _ v := v.Every (Value.IsGenuine allowed region)
  code _ scope v := region scope ∧ v.IsTree
  fault _ f := f.IsGenuine allowed region
  seen _ := True
  later world after := ¬ allowed .display → after.output = world.output
  later_refl _ _ := rfl
  later_trans first second silent := (second silent).trans (first silent)
  value_later _ good := good
  code_later _ good := good
  seen_of_code _ := trivial
  bound met good owned found :=
    met.bound _ (met.isClosed.owner good.1 owned) _ (Store.mem_of_get? found)
  value_nil _ := .of_isBare Primitive.isBare_nil
  literal good _ := .of_isTree good.2 fun _ => trivial
  quoted good _ := .of_isTree
    (IsTree.quoted fun _ member => good.2.of_item (List.mem_cons_of_mem _ member)) fun _ => trivial
  item good _ member := ⟨good.1, good.2.of_item member⟩
  closes := by
    intro world scope word parameters body met good _
    have body_tree : body.IsTree := good.2.of_item (by simp)
    exact ⟨met, fun _ => rfl, .of_given ⟨body_tree, good.1⟩ nofun⟩
  defines _ met _ result := ⟨met.define result, fun _ => rfl⟩
  assigns met _ result _ := ⟨met.define result, fun _ => rfl⟩
  -- The scope of a call is new, and its parent is what the closure remembers.
  enters := by
    intro world serial parameters body captured arguments met procedure given _
    have closure : body.IsTree ∧ region captured := procedure _ (.refl _) trivial
    refine ⟨met.add ?_ fun pair member => ?_, fun _ => rfl, met.new _ (Nat.le_refl _), closure.1⟩
    · rintro _ ⟨⟩
      exact closure.2
    · exact given pair.2 (Store.mem_ofLists member).2
  -- Only `display` shows a text, and to be called it has to be allowed.
  calls := by
    intro world p arguments met procedure given _
    refine ⟨met, fun silent => ?_⟩
    have other : p ≠ .display := by
      rintro rfl
      exact silent (procedure _ (.refl _) trivial)
    simp [World.display, Primitive.displayed_of_ne other]
  answers _ given answered := .answer given answered
  fails := by
    intro world p arguments f procedure _ answered
    have called : allowed p := procedure _ (.refl _) trivial
    cases p.raising_result arguments f answered with
    | exit code leaves => exact ⟨nofun, nofun, fun _ _ => leaves ▸ called⟩
    | noCase =>
      refine ⟨nofun, ?_, nofun⟩
      rintro _ ⟨⟩
      exact called
    | typeMismatch => exact ⟨nofun, nofun, nofun⟩
    | divisionByZero => exact ⟨nofun, nofun, nofun⟩
  uncallable := by
    intro world v result
    refine ⟨?_, nofun, nofun⟩
    rintro _ ⟨⟩
    exact result
  plain := by
    rintro world f ⟨carried, leaves, blamed⟩
    exact ⟨fun v equal => absurd equal (carried v), fun p equal => absurd equal (blamed p),
      fun code equal => absurd equal (leaves code)⟩

/-! ### Lines -/

namespace Session

/-- One line of a session is answered, or evaluated and its result handed on, in one of the given
scopes. -/
inductive Turn (roots : ScopeId → Prop) : World → World → Prop where
  | answered {depth : Nat} {options : Options} {scope : ScopeId} {line : String}
    {world after : World} {done : Step Answer} (here : roots scope)
    (stepped : step (answerLine depth options scope line) world = some (done, after)) :
    Turn roots world after
  | evaluated {depth : Nat} {scope : ScopeId} {line : String} {world after : World}
    {done : Step Value} (here : roots scope)
    (stepped : step (evaluateLine depth scope line) world = some (done, after)) :
    Turn roots world after

variable {allowed : Primitive → Prop} {roots region : ScopeId → Prop} {world after : World}
  {depth : Nat} {options : Options} {scope : ScopeId} {line : String}

/-- What a step keeps that started in a world with allowed primitives only. -/
theorem step_genuine {α : Type} {run : Run α} {good : World → α → Prop} {done : Step α}
    (keeps : (genuineness allowed region).Keeps run good { world with output := "" })
    (met : world.store.IsGenuine allowed region) (stepped : step run world = some (done, after)) :
    after.store.IsGenuine allowed region ∧ (¬ allowed .display → done.output = "") ∧
      (∀ a, done.result = .ok a → ∃ last, good last a) ∧
      ∀ code, done.result = .error (.exit code) → allowed .quit := by
  obtain ⟨last, ran, same, shown⟩ := step_eq_some stepped
  have kept := keeps met _ ran
  refine ⟨same ▸ kept.holds, fun silent => ?_, fun a equal => ⟨last, kept.value a equal⟩, ?_⟩
  · rw [← shown]
    exact kept.later silent
  · exact fun code equal => (kept.fault _ equal).leaves code rfl

theorem evaluateLine_genuine {done : Step Value} (here : region scope)
    (met : world.store.IsGenuine allowed region)
    (stepped : step (evaluateLine depth scope line) world = some (done, after)) :
    after.store.IsGenuine allowed region ∧ (¬ allowed .display → done.output = "") ∧
      ∀ code, done.result = .error (.exit code) → allowed .quit := by
  have keeps : (genuineness allowed region).Keeps (evaluateLine depth scope line)
      (genuineness allowed region).value { world with output := "" } :=
    Invariant.evaluateLine_keeps depth fun _ _ read => ⟨here, Form.isTree_of_read read⟩
  obtain ⟨genuine, silent, _, leaves⟩ := step_genuine keeps met stepped
  exact ⟨genuine, silent, leaves⟩

theorem answerLine_genuine {done : Step Answer} (here : region scope)
    (met : world.store.IsGenuine allowed region)
    (stepped : step (answerLine depth options scope line) world = some (done, after)) :
    after.store.IsGenuine allowed region ∧ (¬ allowed .display → done.output = "") ∧
      ∀ code, done.result = .ok (.exit code) → allowed .quit := by
  have keeps : (genuineness allowed region).Keeps (answerLine depth options scope line)
      (fun _ answer => (genuineness allowed region).Permits answer) { world with output := "" } :=
    Invariant.answerLine_keeps depth options fun _ _ read => ⟨here, Form.isTree_of_read read⟩
  obtain ⟨genuine, silent, answered, _⟩ := step_genuine keeps met stepped
  refine ⟨genuine, silent, fun code equal => ?_⟩
  obtain ⟨_, asked⟩ := answered _ equal
  obtain ⟨_, leaves⟩ := asked code rfl
  exact leaves.leaves code rfl

theorem isGenuine_of_turns (inside : ∀ id, roots id → region id)
    (turns : Relation.ReflTransGen (Turn roots) world after)
    (met : world.store.IsGenuine allowed region) : after.store.IsGenuine allowed region := by
  induction turns with
  | refl => exact met
  | tail _ turn ih =>
    cases turn with
    | answered here stepped => exact (answerLine_genuine (inside _ here) ih stepped).1
    | evaluated here stepped => exact (evaluateLine_genuine (inside _ here) ih stepped).1

end Session

open Session

/-- The scopes from which everything is live that code can get at after an evaluation: besides the
roots those that the value remembers that it gives or shows. -/
def Eval.rootsAfter (roots : ScopeId → Prop) (result : Except Fault Value) (id : ScopeId) : Prop :=
  roots id ∨ ∃ v, (result = .ok v ∨ result = .error (.notCallable v)) ∧ v.Remembers id

/-- What evaluation of a tree ends with, value or fault, carries no primitive, and leaves none in
any binding that can be got at, that was not in such a binding before, provided that the bodies of
closures can be read. So, in a session, once `quit` is in no binding that its lines can get at, no
later line leaves the session or ends with the fault that asks for it; and once `display` is in
none, no later line displays anything. In a session that began in a fresh world the bodies of
closures can be read. Scopes of calls that are over do not count; if they shall, let every scope be
a root. -/
theorem primitives_not_made :
    (∀ (roots : ScopeId → Prop) (depth : Nat) (tree : Value) (scope : ScopeId)
      (world after : World) (result : Except Fault Value), roots scope → tree.IsTree →
      world.store.HasTreeBodies roots → (eval depth tree scope).EndsWith world result after →
      (∀ p v, result = .ok v → Subtree (.primitive p) v → world.store.Holds roots p) ∧
      (∀ p fault, result = .error fault → fault.Carries p → world.store.Holds roots p) ∧
      ∀ p, after.store.Holds (Eval.rootsAfter roots result) p → world.store.Holds roots p) ∧
    (∀ (roots : ScopeId → Prop) (world later : World), world.store.HasTreeBodies roots →
      Relation.ReflTransGen (Turn roots) world later →
      ∀ (depth : Nat) (options : Options) (scope : ScopeId) (line : String) (after : World),
        roots scope →
        (∀ done, step (answerLine depth options scope line) later = some (done, after) →
          (¬ world.store.Holds roots .quit → ∀ code, done.result ≠ .ok (.exit code)) ∧
          (¬ world.store.Holds roots .display → done.output = "")) ∧
        ∀ done, step (evaluateLine depth scope line) later = some (done, after) →
          (¬ world.store.Holds roots .quit → ∀ code, done.result ≠ .error (.exit code)) ∧
          (¬ world.store.Holds roots .display → done.output = "")) ∧
    ∀ (roots : ScopeId → Prop) (world : World),
      Relation.ReflTransGen (Turn roots) World.fresh world → world.store.HasTreeBodies roots := by
  refine ⟨?_, ?_, fun roots world turns => ?_⟩
  · rintro roots depth tree scope world after result here is bodies ⟨trace, ends⟩
    have keeps := (genuineness (world.store.Holds roots) (world.store.LiveOrNew roots)).eval_keeps
      depth tree scope world ⟨.inl (.root here), is⟩
    have kept := keeps bodies.isGenuine _ ends
    refine ⟨fun p v equal inside => ?_, fun p fault equal carries => ?_, fun p holds => ?_⟩
    · exact kept.value v equal _ inside trivial
    · exact (kept.fault fault equal).of_carries carries
    · refine kept.holds.of_holds (fun id root => ?_) holds
      rcases root with old | ⟨v, equal | equal, remembers⟩
      · exact .inl (.root old)
      · exact (kept.value v equal).remembered remembers
      · exact ((kept.fault _ equal).shown v rfl).remembered remembers
  · intro roots world later bodies turns depth options scope line after here
    have inside : ∀ id, roots id → world.store.LiveOrNew roots id := fun _ root => .inl (.root root)
    have met := isGenuine_of_turns inside turns bodies.isGenuine
    constructor
    · intro done stepped
      obtain ⟨_, silent, leaves⟩ := answerLine_genuine (inside _ here) met stepped
      exact ⟨fun gone code equal => gone (leaves code equal), silent⟩
    · intro done stepped
      obtain ⟨_, silent, leaves⟩ := evaluateLine_genuine (inside _ here) met stepped
      exact ⟨fun gone code equal => gone (leaves code equal), silent⟩
  · have genuine := isGenuine_of_turns (fun _ _ => trivial) turns Store.IsGenuine.fresh
    exact genuine.hasTreeBodies fun _ _ => trivial

/-- A line that calls a closure with `quit` and then binds `quit` and `display` to numbers. The
scope of the call still binds the primitive, but no line gets at that scope. So no later line leaves
the session or displays anything. -/
theorem primitives_not_made_without_quit :
    let lines : ScopeId → Prop := fun scope => scope = globalScope
    ∃ (depth : Nat) (tree : Value) (after : World), tree.IsTree ∧
      World.fresh.store.HasTreeBodies lines ∧
      (eval depth tree globalScope).EndsWith World.fresh (.ok (.integer 2)) after ∧
      (∀ p, after.store.Holds (Eval.rootsAfter lines (.ok (.integer 2))) p →
        World.fresh.store.Holds lines p) ∧
      Relation.ReflTransGen (Turn lines) World.fresh after ∧ after.store.HasTreeBodies lines ∧
      after.store.Holds (fun _ => True) .quit ∧
      ¬ after.store.Holds lines .quit ∧ ¬ after.store.Holds lines .display ∧
      ∀ depth options line done last,
        step (answerLine depth options globalScope line) after = some (done, last) →
          (∀ code, done.result ≠ .ok (.exit code)) ∧ done.output = "" := by
  intro lines
  let called := World.fresh.withClosure.enter ["leave"] [.primitive .quit] 0
  let after := (called.define "quit" (.integer 1) 0).define "display" (.integer 2) 0
  let tree : Value := .list [.symbol "begin",
    .list [.list [.symbol "lambda", .list [.symbol "leave"], .integer 1], .symbol "quit"],
    .list [.symbol "define", .symbol "quit", .integer 1],
    .list [.symbol "define", .symbol "display", .integer 2]]
  have read : Form.read "(begin ((lambda (leave) 1) quit) (define quit 1) (define display 2))" =
    .ok (tree, 0) := rfl
  have literal (n : Int64) : (Value.integer n).IsLiteral := ⟨nofun, nofun⟩
  have call : Evaluates World.fresh 0
      (.list [.list [.symbol "lambda", .list [.symbol "leave"], .integer 1], .symbol "quit"])
      (.ok (.integer 1)) called :=
    .call (Eval.isOperator_iff.mpr rfl) (@Evaluates.lambda _ _ _ ["leave"] _ rfl)
      (.cons (.of_bound rfl) .nil) (.closure rfl (.literal (literal 1)))
  have derived : Evaluates World.fresh 0 tree (.ok (.integer 2)) after :=
    .sequence rfl (.cons call (.cons (.define rfl (.literal (literal 1)))
      (.cons (.define rfl (.literal (literal 2))) .nil)))
  obtain ⟨depth, enough⟩ := derived.exists_enough
  have ends : (eval depth tree globalScope).EndsWith World.fresh (.ok (.integer 2)) after :=
    enough depth (Nat.le_refl depth)
  obtain ⟨done, stepped, _⟩ := step_of_ends _ World.fresh read ends
  have turns : Relation.ReflTransGen (Turn lines) World.fresh after :=
    .single (.evaluated rfl stepped)
  have is := Form.isTree_of_read read
  have bodies : World.fresh.store.HasTreeBodies lines := primitives_not_made.2.2 lines _ .refl
  -- In the global scope no binding is a list or a closure, and none is one of the two primitives.
  let kept : Value → Bool
    | .primitive p => p ≠ .quit ∧ p ≠ .display
    | .list _ | .closure _ _ _ _ => false
    | _ => true
  have bound : ∀ pair ∈ after.store.bindings 0, kept pair.2 = true := List.all_eq_true.mp rfl
  have bare : ∀ pair ∈ after.store.bindings 0, ∀ scope, ¬ pair.2.Remembers scope := by
    rintro ⟨name, v⟩ member scope remembers
    have none := bound _ member
    cases remembers <;> cases none
  have global : after.store.IsGlobal globalScope := rfl
  have gone (p : Primitive) (holds : after.store.Holds lines p) : p ≠ .quit ∧ p ≠ .display := by
    obtain ⟨id, live, ⟨name, v⟩, member, inside⟩ := holds
    obtain rfl : id = globalScope := live.eq_of_isGlobal global bare
    have other := bound _ member
    cases inside with
    | refl => exact of_decide_eq_true other
    | item => cases other
  have noQuit : ¬ after.store.Holds lines .quit := fun holds => (gone _ holds).1 rfl
  have noDisplay : ¬ after.store.Holds lines .display := fun holds => (gone _ holds).2 rfl
  have still : after.store.Holds (fun _ => True) .quit :=
    ⟨1, .root trivial, ("leave", .primitive .quit), List.mem_cons_self, .refl _⟩
  have first := primitives_not_made.1 lines _ _ _ _ _ _ rfl is bodies ends
  have trees := primitives_not_made.2.2 lines _ turns
  refine ⟨depth, tree, after, is, bodies, ends, first.2.2, turns, trees, still, noQuit, noDisplay,
    fun depth options line done last answered => ?_⟩
  have later := primitives_not_made.2.1 lines _ _ trees .refl depth options _ line last rfl
  have second := later.1 done answered
  exact ⟨second.1 noQuit, second.2 noDisplay⟩

end MiniLisp
