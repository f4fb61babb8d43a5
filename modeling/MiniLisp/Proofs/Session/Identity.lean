import MiniLisp.Proofs.Eval.Record
import MiniLisp.Proofs.Session.Environments
import MiniLisp.Proofs.Value.Nesting

/-!
# Equality is identity

Whatever is done with an interpreter, all its closures stay on one record. So when a program
compares two values without floats, it learns whether they are equal in every respect, closures down
to the scope that they remember: `=` and `==` never take two things for one. Two evaluations of the
same `lambda` make two things. The second closure has another number than the first, because nothing
that happens between the two evaluations takes back that the first one was made.
-/
namespace MiniLisp

/-! ### Operations on the record -/

namespace Operation

variable {operation : Operation} {world after : World} {result : Except Fault (List Value)}
  {made : List Value}

theorem returned_error (fault : Fault) : returned (.error fault) = fault.carried := by
  cases fault <;> rfl

/-- The ways in which operations end, with the values that they return and the worlds that they
leave. -/
inductive Ends (operation : Operation) (world : World) : List Value → World → Prop where
  | adds (scope : Scope) (bound : ∀ pair ∈ scope.bindings,
      pair ∈ Bindings.standard ∨ pair.2 ∈ operation.given) :
    Ends operation world [] { world with store := world.store.add scope }
  | writes {v : Value} {vs : List Value} (name : String) (scope : ScopeId)
    (given : v ∈ operation.given) (replaced : ∀ w ∈ vs, (name, w) ∈ world.store.bindings scope) :
    Ends operation world vs (world.define name v scope)
  | refuses : Ends operation world [] world
  | evaluates {depth : Nat} {expression : Value} {scope : ScopeId} {result : Except Fault Value}
    {after : World} (given : expression ∈ operation.given)
    (ends : (MiniLisp.eval depth expression scope).EndsWith world result after) :
    Ends operation world (Eval.carried ([·]) result) after

theorem ends_of_run (ends : operation.run.EndsWith world result after) :
    operation.Ends world (returned result) after := by
  cases operation with
  | openGlobal =>
    have done : openGlobal.run world = some
        ⟨.ok [], { world with store := world.store.add Scope.global }, .both .empty .empty⟩ := rfl
    obtain ⟨rfl, rfl⟩ := (Run.endsWith_of_some done).mp ends
    exact .adds Scope.global fun _ => .inl
  | extend parameters arguments parent =>
    rcases Run.endsWith_bind.mp ends with ⟨fault, rfl, failed⟩ | ⟨_, _, extended, done⟩
    · rcases Run.endsWith_extend.mp failed with ⟨_, ⟨⟩, _⟩ | ⟨_, rfl, ⟨⟩⟩
      exact .refuses
    · obtain ⟨rfl, rfl⟩ := Run.endsWith_pure.mp done
      rcases Run.endsWith_extend.mp extended with ⟨_, _, rfl⟩ | ⟨_, _, ⟨⟩⟩
      exact .adds _ fun _ member => .inr (Store.mem_ofLists member).2
  | define name v scope =>
    have done : (define name v scope).run world = some
      ⟨.ok ((world.store.bindings scope).get? name).toList, world.define name v scope,
        .both .empty (.both .empty .empty)⟩ := rfl
    obtain ⟨rfl, rfl⟩ := (Run.endsWith_of_some done).mp ends
    exact .writes name scope List.mem_cons_self fun w member =>
      Store.mem_of_get? (Option.mem_toList.mp member)
  | assign name v scope =>
    rcases Run.endsWith_bind.mp ends with ⟨fault, rfl, failed⟩ | ⟨_, _, assigned, done⟩
    · rcases Run.endsWith_assign.mp failed with ⟨_, _, ⟨⟩, _⟩ | ⟨_, ⟨⟩, rfl⟩
      exact .refuses
    · obtain ⟨rfl, rfl⟩ := Run.endsWith_pure.mp done
      rcases Run.endsWith_assign.mp assigned with ⟨owner, _, _, rfl⟩ | ⟨_, ⟨⟩, _⟩
      exact .writes name owner List.mem_cons_self nofun
  | eval depth expression scope =>
    rcases Run.endsWith_bind.mp ends with ⟨fault, rfl, failed⟩ | ⟨v, _, evaluated, done⟩
    · rw [returned_error]
      exact .evaluates List.mem_cons_self failed
    · obtain ⟨rfl, rfl⟩ := Run.endsWith_pure.mp done
      exact .evaluates List.mem_cons_self evaluated

theorem goesOn {vs : List Value} (records : world.Records made)
    (given : ∀ v ∈ operation.given, v.OnRecord made) (ends : operation.Ends world vs after) :
    after.GoesOn made vs := by
  cases ends with
  | adds scope bound =>
    refine .none (records.add fun pair member => ?_)
    rcases bound pair member with standard | argument
    · exact .standard (fun _ => trivial) standard
    · exact given _ argument
  | writes name scope member replaced =>
    exact .here (records.define name (given _ member) scope) fun w old =>
      records.bound scope _ (replaced w old)
  | refuses => exact .none records
  | evaluates member ends => exact Eval.eval_goesOn records (given _ member) ends

theorem closuresMade_le {vs : List Value} (ends : operation.Ends world vs after) :
    world.closuresMade ≤ after.closuresMade := by
  cases ends with
  | adds _ _ | writes _ _ _ _ | refuses => exact Nat.le_refl _
  | @evaluates depth _ _ _ _ _ ends =>
    obtain ⟨_, ran⟩ := ends
    exact (closureCount.eval_keeps depth _ _ _ trivial trivial _ ran).later

end Operation

/-- In what can be reached all closures are on one record. -/
theorem Environments.Reached.onRecord {environments : Environments}
    (reached : environments.Reached) :
    environments.world.GoesOn [] environments.known := by
  induction reached with
  | empty =>
    refine .none ⟨rfl, nofun, fun id pair member => ?_⟩
    exact absurd (Store.lt_size_of_mem member) (Nat.not_lt_zero id)
  | read _ read ih =>
    refine ih.bind fun made _ records known => .here records (List.forall_mem_cons.mpr ?_)
    exact ⟨.of_isTree (Form.isTree_of_read read) fun _ => trivial, known⟩
  | operation _ _ given ends ih =>
    refine ih.bind fun made _ records known => ?_
    have recorded := fun v member => known v (given v member)
    refine (Operation.goesOn records recorded (Operation.ends_of_run ends)).bind
      fun _ longer records returned => .here records ?_
    exact List.forall_mem_append.mpr ⟨returned, Value.OnRecord.all_mono longer known⟩

/-! ### Calls of an equality -/

/-- The moment is that of a call. Its head has become the procedure and its operands have become
the arguments, in a world that is left for the application. -/
inductive Moment.Calls (depth : Nat) : Moment → Value → List Value → World → Prop where
  | call {world between before : World} {scope : ScopeId} {head procedure : Value}
    {operands arguments : List Value} (operator : head.IsOperator)
    (first : (eval depth head scope).EndsWith world (.ok procedure) between)
    (evaluated : (Eval.operandsWith (eval depth) scope operands).EndsWith between (.ok arguments)
      before) :
    Calls depth ⟨world, scope, .list (head :: operands)⟩ procedure arguments before

namespace Moment.Calls

variable {depth : Nat} {moment : Moment} {procedure : Value} {arguments : List Value}
  {before : World} {made : List Value}

theorem goesOn (calls : moment.Calls depth procedure arguments before)
    (records : moment.world.Records made) (recorded : moment.expression.OnRecord made) :
    before.GoesOn made arguments := by
  obtain ⟨_, first, evaluated⟩ := calls
  refine (Eval.eval_goesOn records (recorded.item List.mem_cons_self) first).bind
    fun _ longer records _ => ?_
  exact Eval.operandsWith_goesOn records (Value.OnRecord.all_mono longer recorded.tail) evaluated

/-- An equality answers and does nothing else. -/
theorem ends_of_isEquality {p : Primitive} {a b : Value} (is : p.IsEquality)
    (calls : moment.Calls depth (.primitive p) [a, b] before) :
    (eval (depth + 1) moment.expression moment.scope).EndsWith moment.world
      (.ok (.boolean (a.equal b))) before := by
  obtain ⟨operator, first, evaluated⟩ := calls
  refine Eval.evalWith_call operator first evaluated (Eval.callPrimitive_ends.mpr (.inl ?_))
  refine ⟨?_, (is.result_eq a b).symm, ?_⟩
  · rcases is with rfl | rfl <;> rfl
  · rcases is with rfl | rfl <;> exact (World.display_empty before).symm

end Moment.Calls

/-! ### Two evaluations of a text -/

/-- The first world is left behind when the second is there: an operation has ended, or an
evaluation has come to a moment. -/
inductive World.Leads : World → World → Prop where
  | operation {operation : Operation} {world after : World} {result : Except Fault (List Value)}
    (ends : operation.run.EndsWith world result after) : Leads world after
  | moment {outer inner : Moment} (reaches : outer.Reaches inner) : Leads outer.world inner.world

theorem World.closuresMade_le_of_leads {between later : World}
    (leads : Relation.ReflTransGen World.Leads between later) :
    between.closuresMade ≤ later.closuresMade := by
  induction leads with
  | refl => exact Nat.le_refl _
  | tail _ step ih =>
    refine Nat.le_trans ih ?_
    cases step with
    | operation ends => exact Operation.closuresMade_le (Operation.ends_of_run ends)
    | @moment outer inner reaches =>
      exact (closureCount.reaches_at (.single reaches) ⟨trivial, trivial⟩).2

namespace Eval

variable {depth : Nat} {parameters : List String} {body : Value} {scope : ScopeId} {world : World}

theorem ends_lambda (depth : Nat) (parameters : List String) (body : Value) (scope : ScopeId)
    (world : World) :
    (eval (depth + 1) (Value.lambda parameters body) scope).EndsWith world
      (.ok (.closure world.closuresMade parameters body scope)) world.withClosure := by
  have parts := closureParts_symbols parameters body
  refine (evalWith_keyword (show Keyword.ofName? "lambda" = some .lambda from rfl)).mpr ?_
  exact (Run.endsWith_ofExcept.mpr ⟨parts.symm, rfl⟩).andThen (Run.endsWith_close.mpr ⟨rfl, rfl⟩)

theorem eq_of_lambda_ends {result : Except Fault Value} {after : World}
    (ends : (eval depth (Value.lambda parameters body) scope).EndsWith world result after) :
    result = .ok (.closure world.closuresMade parameters body scope) ∧
      after = world.withClosure :=
  (eval_deeper (Nat.le_succ depth) ends).unique (ends_lambda depth parameters body scope world)

end Eval

/-! ### The main statement -/

/-- Both spellings of equality obey the same laws. On values without floats they tell whether the
two are one tree, so equality is an equivalence there, and lists are equal if their heads and tails
are; with floats the order of the arguments still makes no difference. The two primitives themselves
are different. In every program, at whatever moment the call comes, the answer for two values
without floats is whether they are equal in every respect. A closure is equal to itself and not to
what any later evaluation of its text makes, whatever has been done in the meantime. -/
theorem equality_is_identity {p : Primitive} (is : p.IsEquality) :
    p.EqualityLaws ∧
    ¬ p.Holds (.primitive .equal) (.primitive .doubleEqual) ∧
    (∀ environments : Environments, environments.Reached →
      ∀ expression ∈ environments.known, ∀ scope moment,
      Relation.ReflTransGen Moment.Reaches ⟨environments.world, scope, expression⟩ moment →
      ∀ depth a b before, moment.Calls depth (.primitive p) [a, b] before →
      a.IsExact → b.IsExact →
      ∃ answer, (eval (depth + 1) moment.expression moment.scope).EndsWith moment.world
          (.ok (.boolean answer)) before ∧ (answer = true ↔ a = b)) ∧
    ∀ depth parameters body scope world, ∃ c between,
      (eval (depth + 1) (Value.lambda parameters body) scope).EndsWith world (.ok c) between ∧
      p.Holds c c ∧
      ∀ later, Relation.ReflTransGen World.Leads between later →
        ∀ depth scope d after,
          (eval depth (Value.lambda parameters body) scope).EndsWith later (.ok d) after →
          p.result [c, d] = .ok (.boolean false) := by
  have laws := is.equalityLaws
  refine ⟨laws, ?_, ?_, ?_⟩
  · rw [is.holds_iff]
    decide
  · intro environments reached expression known scope moment context depth a b before calls left
      right
    refine ⟨a.equal b, calls.ends_of_isEquality is, ?_⟩
    rw [Value.equal_iff_same left right]
    refine ⟨fun same => ?_, fun equal => equal ▸ Value.Same.refl a left⟩
    obtain ⟨made, _, records, onRecord⟩ := reached.onRecord
    obtain ⟨_, _, records, recorded⟩ :=
      Moment.reaches_goesOn context records (onRecord expression known)
    obtain ⟨_, _, _, arguments⟩ := calls.goesOn records (List.forall_mem_singleton.mp recorded)
    exact same.eq_of_onRecord (arguments a (by simp)) (arguments b (by simp))
  · intro depth parameters body scope world
    refine ⟨_, _, Eval.ends_lambda depth parameters body scope world, ?_, ?_⟩
    · exact is.holds_iff.mpr (by simp [Value.equal_closure])
    · intro later leads depth scope d after ends
      obtain ⟨rfl, _⟩ : d = _ ∧ _ := (Eval.eq_of_lambda_ends ends).imp_left Except.ok.inj
      have more : world.closuresMade + 1 ≤ later.closuresMade :=
        World.closuresMade_le_of_leads leads
      rw [is.result_eq, Value.equal_closure, decide_eq_false (Nat.ne_of_lt more)]

/-- Two closures of one text are not equal, the list of one of them and some data is equal to
itself, and no longer if its head is another closure. -/
theorem equality_is_identity_two_closures :
    let text : Value := Value.lambda ["x"] (.symbol "x")
    let comparison : Value := .list [.symbol "=", text, text]
    let closure (serial : Nat) : Value := .closure serial ["x"] (.symbol "x") 0
    let data : List Value := [.integer 1, .list [.symbol "a"]]
    let after := World.fresh.withClosure.withClosure
    Primitive.equal.IsEquality ∧
      (∃ environments : Environments, environments.Reached ∧
        environments.world = World.fresh ∧ comparison ∈ environments.known) ∧
      Moment.Calls 1 ⟨World.fresh, 0, comparison⟩ (.primitive .equal) [closure 0, closure 1] after ∧
      (closure 0).IsExact ∧ (closure 1).IsExact ∧ (Value.list data).IsExact ∧
      (eval 2 comparison 0).EndsWith World.fresh (.ok (.boolean false)) after ∧
      Primitive.equal.Holds (.list (closure 0 :: data)) (.list (closure 0 :: data)) ∧
      ¬ Primitive.equal.Holds (.list (closure 0 :: data)) (.list (closure 1 :: data)) := by
  intro text comparison closure data after
  have is : Primitive.equal.IsEquality := .inl rfl
  obtain ⟨laws, _, programs, _⟩ := equality_is_identity is
  have read : Form.read "(= (lambda (x) x) (lambda (x) x))" = .ok (comparison, 0) := rfl
  have opened : Environments.Reached ⟨World.fresh, [0], []⟩ :=
    @Environments.Reached.operation _ .openGlobal _ World.fresh .empty nofun nofun ⟨_, rfl⟩
  have reached : Environments.Reached ⟨World.fresh, [0], [comparison]⟩ := .read opened read
  have calls : Moment.Calls 1 ⟨World.fresh, 0, comparison⟩ (.primitive .equal)
      [closure 0, closure 1] after := by
    have bound : (World.fresh.store.bindings 0).get? "=" = some (.primitive .equal) := rfl
    have get := Store.get?_eq_some_iff.mpr ⟨0, .here bound, bound⟩
    have head := Run.endsWith_fetch.mpr ⟨rfl, .inl ⟨_, get, rfl⟩⟩
    exact .call (Eval.isOperator_iff.mpr rfl) (Eval.evalWith_symbol.mpr head) ⟨_, rfl⟩
  have exactClosure (serial : Nat) : (closure serial).IsExact := by
    rintro x ⟨⟩
  have exactData : (Value.list data).IsExact := by
    have number : (Value.integer 1).IsExact := by rintro x ⟨⟩
    have letter : (Value.symbol "a").IsExact := by rintro x ⟨⟩
    exact number.cons ((letter.cons .empty).cons .empty)
  obtain ⟨answer, ends, same⟩ := programs _ reached comparison List.mem_cons_self 0 _ .refl 1 _ _ _
    calls (exactClosure 0) (exactClosure 1)
  have different : closure 0 ≠ closure 1 := nofun
  obtain rfl : answer = false := Bool.eq_false_iff.mpr fun yes => different (same.mp yes)
  refine ⟨is, ⟨_, reached, rfl, List.mem_cons_self⟩, calls, exactClosure 0, exactClosure 1,
    exactData, ends, laws.equivalence.refl ⟨_, (exactClosure 0).cons exactData⟩, ?_⟩
  obtain ⟨c, d, ⟨⟩, ⟨⟩, heads⟩ := laws.cons (exactClosure 0) (exactClosure 1) exactData exactData
  exact fun holds => absurd ((is.holds_iff).mp (heads.mp holds).1) (by decide)

end MiniLisp
