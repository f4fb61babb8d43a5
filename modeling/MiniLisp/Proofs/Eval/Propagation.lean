import Mathlib.Logic.Relation
import MiniLisp.Proofs.Eval.Invariant
import MiniLisp.Proofs.Eval.Refinement

/-!
# Faults propagate

A fault ends everything around it. The places at which evaluation of a value comes to evaluate a
part of it, or the body of a closure that it calls, are the positions below; what has to be
evaluated before a position is reached, and the world in which it is reached, are said by the
premises of each. If the part fails there, the whole fails with the same fault and leaves the same
world, and the last that is recorded of it is the record of the part, so nothing is evaluated and
nothing written any more. Positions inside positions reach any depth, across scopes and calls.
-/
namespace MiniLisp

/-- A value that is about to be evaluated in a scope of a world. -/
structure Moment where
  world : World
  scope : ScopeId
  expression : Value

namespace Run

variable {α β : Type} {world between after : World} {fault : Fault} {last : Trace}

/-- The run fails, leaves the world, and records at its end what is recorded in the trace. -/
def FailsWith (run : Run α) (world : World) (fault : Fault) (after : World) (last : Trace) : Prop :=
  ∃ whole, run world = some ⟨.error fault, after, whole⟩ ∧ last.toList <:+ whole.toList

/-- What was to follow adds nothing. -/
theorem FailsWith.stops {first : Run α} {next : α → Run β}
    (failed : first.FailsWith world fault after last) :
    (first >>= next).FailsWith world fault after last := by
  obtain ⟨whole, done, ends⟩ := failed
  refine ⟨whole, ?_, ends⟩
  change Run.bind first next world = _
  simp only [Run.bind, done]

/-- What was done before stays done, and its records come first. -/
theorem EndsWith.thenFails {first : Run α} {next : α → Run β} {a : α}
    (ends : first.EndsWith world (.ok a) between)
    (failed : (next a).FailsWith between fault after last) :
    (first >>= next).FailsWith world fault after last := by
  obtain ⟨earlier, done⟩ := ends
  obtain ⟨later, rest, suffix⟩ := failed
  refine ⟨.both earlier later, ?_, ?_⟩
  · change Run.bind first next world = _
    simp only [Run.bind, done, rest]
  · rw [Trace.toList_both]
    exact suffix.trans (List.suffix_append _ _)

end Run

namespace Eval

open Run

/-- The first moment is the evaluation of a value, the second that of a part which it comes to, its
parts being evaluated by the given evaluator. -/
inductive Position (f : Evaluator) : Moment → Moment → Prop where
  -- The head of a list that is no form.
  | operator {world : World} {scope : ScopeId} {head : Value} {operands : List Value}
    (operator : head.IsOperator) :
    Position f ⟨world, scope, .list (head :: operands)⟩ ⟨world, scope, head⟩
  -- An operand, when the head and the operands before it have values.
  | operand {world between reached : World} {scope : ScopeId} {head procedure operand : Value}
    {before later vs : List Value} (operator : head.IsOperator)
    (first : (f head scope).EndsWith world (.ok procedure) between)
    (earlier : (operandsWith f scope before).EndsWith between (.ok vs) reached) :
    Position f ⟨world, scope, .list (head :: (before ++ operand :: later))⟩
      ⟨reached, scope, operand⟩
  | test {world : World} {scope : ScopeId} {word : String} {test consequent : Value}
    {alternatives : List Value} (spelled : Keyword.ofName? word = some .conditional)
    (count : alternatives.length ≤ 1) :
    Position f ⟨world, scope, .list (.symbol word :: test :: consequent :: alternatives)⟩
      ⟨world, scope, test⟩
  -- The branch that the value of the test selects.
  | consequent {world between : World} {scope : ScopeId} {word : String}
    {test consequent v : Value} {alternatives : List Value}
    (spelled : Keyword.ofName? word = some .conditional) (count : alternatives.length ≤ 1)
    (tested : (f test scope).EndsWith world (.ok v) between) (holds : v.isTruthy = true) :
    Position f ⟨world, scope, .list (.symbol word :: test :: consequent :: alternatives)⟩
      ⟨between, scope, consequent⟩
  | alternative {world between : World} {scope : ScopeId} {word : String}
    {test consequent alternative v : Value}
    (spelled : Keyword.ofName? word = some .conditional)
    (tested : (f test scope).EndsWith world (.ok v) between) (fails : v.isTruthy = false) :
    Position f ⟨world, scope, .list [.symbol word, test, consequent, alternative]⟩
      ⟨between, scope, alternative⟩
  -- The expression of a form that gives its value to a symbol.
  | written {world : World} {scope : ScopeId} {word name : String} {keyword : Keyword}
    {expression : Value} (spelled : Keyword.ofName? word = some keyword)
    (writes : keyword = .define ∨ keyword = .assign) :
    Position f ⟨world, scope, .list [.symbol word, .symbol name, expression]⟩
      ⟨world, scope, expression⟩
  -- An item of a sequence, when the items before it have values.
  | item {world reached : World} {scope : ScopeId} {word : String} {item v : Value}
    {before later : List Value} (spelled : Keyword.ofName? word = some .begin)
    (earlier : (sequenceWith f scope .nil before).EndsWith world (.ok v) reached) :
    Position f ⟨world, scope, .list (.symbol word :: (before ++ item :: later))⟩
      ⟨reached, scope, item⟩
  -- The body of a closure, in the scope that is made for the call.
  | body {world between reached : World} {scope captured : ScopeId} {head body : Value}
    {operands arguments : List Value} {serial : Nat} {parameters : List String}
    (operator : head.IsOperator)
    (first : (f head scope).EndsWith world (.ok (.closure serial parameters body captured)) between)
    (evaluated : (operandsWith f scope operands).EndsWith between (.ok arguments) reached)
    (count : arguments.length = parameters.length) :
    Position f ⟨world, scope, .list (head :: operands)⟩
      ⟨reached.enter parameters arguments captured, reached.nextScope, body⟩

variable {f g : Evaluator} {world reached after : World} {scope : ScopeId} {fault : Fault}
  {last : Trace}

/-! ### One position -/

/-- A position is still one when more evaluations come to their ends. -/
theorem Position.mono {outer inner : Moment} (below : Evaluator.Below f g)
    (position : Position f outer inner) : Position g outer inner := by
  cases position with
  | operator operator => exact .operator operator
  | operand operator first earlier =>
    exact .operand operator ((below _ _).endsWith first)
      ((operandsWith_below below _ _).endsWith earlier)
  | test spelled count => exact .test spelled count
  | consequent spelled count tested holds =>
    exact .consequent spelled count ((below _ _).endsWith tested) holds
  | alternative spelled tested fails =>
    exact .alternative spelled ((below _ _).endsWith tested) fails
  | written spelled writes => exact .written spelled writes
  | item spelled earlier =>
    exact .item spelled ((sequenceWith_below below _ _ _).endsWith earlier)
  | body operator first evaluated count =>
    exact .body operator ((below _ _).endsWith first)
      ((operandsWith_below below _ _).endsWith evaluated) count

theorem operandsWith_fails {before later vs : List Value} {operand : Value}
    (earlier : (operandsWith f scope before).EndsWith world (.ok vs) reached)
    (failed : (f operand scope).FailsWith reached fault after last) :
    (operandsWith f scope (before ++ operand :: later)).FailsWith world fault after last := by
  induction before generalizing world vs with
  | nil =>
    obtain ⟨_, rfl⟩ := endsWith_pure.mp earlier
    exact failed.stops
  | cons first rest ih =>
    obtain ⟨v, between, done, others⟩ := endsWith_bind_ok.mp earlier
    obtain ⟨ws, _, others, finish⟩ := endsWith_bind_ok.mp others
    obtain ⟨_, rfl⟩ := endsWith_pure.mp finish
    have remaining := ih others
    exact done.thenFails remaining.stops

theorem sequenceWith_fails {before later : List Value} {initial v item : Value}
    (earlier : (sequenceWith f scope initial before).EndsWith world (.ok v) reached)
    (failed : (f item scope).FailsWith reached fault after last) :
    (sequenceWith f scope initial (before ++ item :: later)).FailsWith world fault after last := by
  induction before generalizing world initial with
  | nil =>
    obtain ⟨_, rfl⟩ := endsWith_pure.mp earlier
    exact failed.stops
  | cons first rest ih =>
    obtain ⟨u, between, done, others⟩ := endsWith_bind_ok.mp earlier
    exact done.thenFails (ih others)

theorem conditionalWith_fails {test consequent : Value} {alternatives : List Value}
    (count : alternatives.length ≤ 1) (failed : (f test scope).FailsWith world fault after last) :
    (conditionalWith f scope (test :: consequent :: alternatives)).FailsWith world fault after
      last := by
  match alternatives, count with
  | [], _ | [_], _ => exact failed.stops

theorem conditionalWith_consequent_fails {test consequent v : Value} {alternatives : List Value}
    (count : alternatives.length ≤ 1) (tested : (f test scope).EndsWith world (.ok v) reached)
    (holds : v.isTruthy = true) (failed : (f consequent scope).FailsWith reached fault after last) :
    (conditionalWith f scope (test :: consequent :: alternatives)).FailsWith world fault after
      last := by
  match alternatives, count with
  | [], _ | [_], _ =>
    apply tested.thenFails
    rwa [if_pos holds]

theorem conditionalWith_alternative_fails {test consequent alternative v : Value}
    (tested : (f test scope).EndsWith world (.ok v) reached) (fails : v.isTruthy = false)
    (failed : (f alternative scope).FailsWith reached fault after last) :
    (conditionalWith f scope [test, consequent, alternative]).FailsWith world fault after last := by
  apply tested.thenFails
  rwa [if_neg (Bool.eq_false_iff.mp fails)]

/-- The target is a symbol, so the expression is evaluated; nothing is written if it fails. -/
theorem formWith_written_fails {keyword : Keyword}
    (writes : keyword = .define ∨ keyword = .assign) (name : String) {expression : Value}
    (failed : (f expression scope).FailsWith world fault after last) :
    (formWith f keyword [.symbol name, expression] scope).FailsWith world fault after last := by
  have checked : (Run.ofExcept (target keyword [.symbol name, expression])).EndsWith world
      (.ok (name, expression)) world := endsWith_ofExcept.mpr ⟨rfl, rfl⟩
  rcases writes with rfl | rfl
  · exact checked.thenFails failed.stops
  · exact checked.thenFails failed.stops

/-- The body is evaluated last in a call. -/
theorem applyWith_fails {serial : Nat} {parameters : List String} {body : Value}
    {captured : ScopeId} {arguments : List Value} (count : arguments.length = parameters.length)
    (failed : (f body world.nextScope).FailsWith (world.enter parameters arguments captured) fault
      after last) :
    (applyWith f (.closure serial parameters body captured) arguments).FailsWith world fault after
      last := by
  have recorded : (Run.emit (.applying parameters body arguments)).EndsWith world (.ok ()) world :=
    endsWith_emit.mpr ⟨rfl, rfl⟩
  have extended : (Run.extend parameters arguments captured).EndsWith world (.ok world.nextScope)
      (world.enter parameters arguments captured) :=
    endsWith_extend.mpr (.inl ⟨count, rfl, rfl⟩)
  have announced : (announce world.nextScope).EndsWith (world.enter parameters arguments captured)
      (.ok ()) (world.enter parameters arguments captured) := announce_ends.mpr ⟨rfl, rfl⟩
  exact recorded.thenFails (extended.thenFails (announced.thenFails failed))

theorem evalWith_form_fails {word : String} {keyword : Keyword} {operands : List Value}
    (spelled : Keyword.ofName? word = some keyword)
    (failed : (formWith f keyword operands scope).FailsWith world fault after last) :
    (evalWith f (.list (.symbol word :: operands)) scope).FailsWith world fault after last := by
  have recorded : (Run.emit (.evaluating (.list (.symbol word :: operands)))).EndsWith world
      (.ok ()) world := endsWith_emit.mpr ⟨rfl, rfl⟩
  have found : keyword? (.symbol word) = some keyword := spelled
  apply recorded.thenFails
  simp only [found]
  exact failed

theorem evalWith_call_fails {head : Value} {operands : List Value} (operator : head.IsOperator)
    (failed : (f head scope >>= fun procedure => operandsWith f scope operands >>= fun arguments =>
      applyWith f procedure arguments).FailsWith world fault after last) :
    (evalWith f (.list (head :: operands)) scope).FailsWith world fault after last := by
  have recorded : (Run.emit (.evaluating (.list (head :: operands)))).EndsWith world (.ok ())
      world := endsWith_emit.mpr ⟨rfl, rfl⟩
  apply recorded.thenFails
  simp only [isOperator_iff.mp operator]
  exact failed

/-- If the part at a position fails, the value around it fails in the same way. -/
theorem Position.fails {outer inner : Moment} (position : Position f outer inner)
    (failed : (f inner.expression inner.scope).FailsWith inner.world fault after last) :
    (evalWith f outer.expression outer.scope).FailsWith outer.world fault after last := by
  cases position with
  | operator operator => exact evalWith_call_fails operator failed.stops
  | operand operator first earlier =>
    exact evalWith_call_fails operator (first.thenFails (operandsWith_fails earlier failed).stops)
  | test spelled count => exact evalWith_form_fails spelled (conditionalWith_fails count failed)
  | consequent spelled count tested holds =>
    exact evalWith_form_fails spelled (conditionalWith_consequent_fails count tested holds failed)
  | alternative spelled tested fails =>
    exact evalWith_form_fails spelled (conditionalWith_alternative_fails tested fails failed)
  | written spelled writes =>
    exact evalWith_form_fails spelled (formWith_written_fails writes _ failed)
  | item spelled earlier => exact evalWith_form_fails spelled (sequenceWith_fails earlier failed)
  | body operator first evaluated count =>
    apply evalWith_call_fails operator
    exact first.thenFails (evaluated.thenFails (applyWith_fails count failed))

end Eval

/-! ### Any number of positions -/

/-- With enough depth for what is evaluated before it, the second moment is a position in the
first. -/
def Moment.Reaches (outer inner : Moment) : Prop :=
  ∃ depth, Eval.Position (eval depth) outer inner

/-- A fault goes through all positions around it, however many, including those in which closures
are called: with enough depth, the outermost value ends with the same fault and leaves the same
world, displayed text included, as the part in which it was raised, and the records of that part
are the last. -/
theorem faults_propagate {outer inner : Moment}
    (context : Relation.ReflTransGen Moment.Reaches outer inner) {depth : Nat} {fault : Fault}
    {after : World} {last : Trace}
    (failed : eval depth inner.expression inner.scope inner.world =
      some ⟨.error fault, after, last⟩) :
    ∃ enough whole, last.toList <:+ whole.toList ∧ ∀ greater ≥ enough,
      eval greater outer.expression outer.scope outer.world =
        some ⟨.error fault, after, whole⟩ := by
  suffices fails : ∃ enough,
      (eval enough outer.expression outer.scope).FailsWith outer.world fault after last by
    obtain ⟨enough, whole, done, suffix⟩ := fails
    refine ⟨enough, whole, suffix, fun greater le => ?_⟩
    exact eval_below le _ _ _ _ done
  -- By induction on the positions, from the innermost one outwards.
  induction context using Relation.ReflTransGen.head_induction_on with
  | refl => exact ⟨depth, last, failed, List.suffix_refl _⟩
  | head position _ ih =>
    obtain ⟨least, position⟩ := position
    obtain ⟨enough, whole, done, suffix⟩ := ih
    have deeper := position.mono (eval_below (Nat.le_max_left least enough))
    have done := eval_below (Nat.le_max_right least enough) _ _ _ _ done
    exact ⟨max least enough + 1, deeper.fails ⟨whole, done, suffix⟩⟩

/-- A request to leave, raised in the expression of a definition in the body of a closure that the
last item of a sequence calls: what the first item has bound stays bound, and `y` is not. -/
theorem faults_propagate_exit :
    let leave : Value := .list [.primitive .quit, .integer 3]
    let call : Value := .list [.list [.symbol "lambda", .list [.symbol "x"],
      .list [.symbol "define", .symbol "y", leave]], .integer 2]
    let outer : Value :=
      .list [.symbol "begin", .list [.symbol "define", .symbol "a", .integer 1], call]
    let after := (World.fresh.define "a" (.integer 1) 0).withClosure.enter ["x"] [.integer 2] 0
    ∃ (last : Trace) (enough : Nat) (whole : Trace),
      Relation.ReflTransGen Moment.Reaches ⟨World.fresh, 0, outer⟩ ⟨after, 1, leave⟩ ∧
      eval 2 leave 1 after = some ⟨.error (.exit 3), after, last⟩ ∧
      last.toList <:+ whole.toList ∧ ∀ greater ≥ enough,
        eval greater outer 0 World.fresh = some ⟨.error (.exit 3), after, whole⟩ := by
  intro leave call outer after
  let body : Value := .list [.symbol "define", .symbol "y", leave]
  let defined := World.fresh.define "a" (.integer 1) 0
  have failed : ∃ last, eval 2 leave 1 after = some ⟨.error (.exit 3), after, last⟩ := ⟨_, rfl⟩
  have item : Moment.Reaches ⟨World.fresh, 0, outer⟩ ⟨defined, 0, call⟩ :=
    ⟨2, @Eval.Position.item _ _ _ _ _ _ _ [.list [.symbol "define", .symbol "a", .integer 1]] []
      rfl ⟨_, rfl⟩⟩
  have entered : Moment.Reaches ⟨defined, 0, call⟩ ⟨after, 1, body⟩ :=
    ⟨2, @Eval.Position.body _ _ _ defined.withClosure _ _ _ _ _ [.integer 2] _ _ (by rintro _ ⟨⟩)
      ⟨_, rfl⟩ ⟨_, rfl⟩ rfl⟩
  have written : Moment.Reaches ⟨after, 1, body⟩ ⟨after, 1, leave⟩ :=
    ⟨0, .written rfl (.inl rfl)⟩
  have context := ((Relation.ReflTransGen.single item).tail entered).tail written
  obtain ⟨last, failed⟩ := failed
  obtain ⟨enough, whole, suffix, fails⟩ := faults_propagate context failed
  exact ⟨last, enough, whole, context, failed, suffix, fails⟩

end MiniLisp
