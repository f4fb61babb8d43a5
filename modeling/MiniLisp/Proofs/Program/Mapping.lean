import MiniLisp.Proofs.Eval.Calls
import MiniLisp.Proofs.Session.Lines

/-!
# Mapping over a list

Users define for themselves a procedure `map` that recurs along a list. Applied to a primitive and
a list it calls the primitive with one element after another, from the first to the last, and stops
at the first call that fails. The proof follows the list: each level of the recursion has a scope of
its own, a child of the global one, and finds in the global scope the same primitives and the same
procedure as the level before, since nothing that is evaluated writes to a scope that was there.
-/
namespace MiniLisp

/-! ### Calls with one argument -/

namespace Primitive

/-- What a call with one argument ends with. -/
def answerFor (p : Primitive) (v : Value) : Except Fault Value :=
  if p.arity.accepts 1 then p.result [v] else .error (.argumentCount p.name p.arity 1)

/-- The text that a call with one argument shows. -/
def shownFor (p : Primitive) (v : Value) : String :=
  if p.arity.accepts 1 then p.displayed [v] else ""

/-- The values with which the primitive is called, one after another, if the first call that fails
is the last. -/
def reached (p : Primitive) (vs : List Value) : List Value :=
  vs.take ((vs.takeWhile fun v => (p.answerFor v).isOk).length + 1)

/-- The answer and the text depend neither on the world nor on the depth. -/
theorem apply_single (p : Primitive) (v : Value) (depth : Nat) (world : World) :
    (apply depth (.primitive p) [v]).EndsWith world (p.answerFor v)
      (world.display (p.shownFor v)) := by
  refine Eval.callPrimitive_ends.mpr ?_
  unfold answerFor shownFor
  split
  next accepted => exact .inl ⟨accepted, rfl, rfl⟩
  next refused => exact .inr ⟨Bool.eq_false_iff.mpr refused, World.display_empty world, rfl⟩

theorem applies_single (p : Primitive) (v : Value) (world : World) :
    Applies world (.primitive p) [v] (p.answerFor v) (world.display (p.shownFor v)) :=
  Eval.applyWith_sound (eval_sound 0) (p.apply_single v 0 world)

variable {p : Primitive} {v : Value} {rest : List Value}

theorem answers_of_error {fault : Fault} (failed : p.answerFor v = .error fault) :
    (v :: rest).mapM p.answerFor = .error fault := by
  rw [List.mapM_cons, failed]
  rfl

theorem answers_of_ok {w : Value} (answered : p.answerFor v = .ok w) :
    (v :: rest).mapM p.answerFor = (rest.mapM p.answerFor).map (w :: ·) := by
  rw [List.mapM_cons, answered]
  cases rest.mapM p.answerFor <;> rfl

@[simp] theorem reached_nil : p.reached [] = [] := rfl

theorem reached_of_error {fault : Fault} (failed : p.answerFor v = .error fault) :
    p.reached (v :: rest) = [v] := by
  simp [reached, failed, Except.isOk, Except.toBool]

theorem reached_of_ok {w : Value} (answered : p.answerFor v = .ok w) :
    p.reached (v :: rest) = v :: p.reached rest := by
  simp [reached, answered, Except.isOk, Except.toBool]

end Primitive

/-! ### The procedure -/

namespace Mapping

open Session

/-- The line that defines the procedure. -/
def line : String :=
  "(define map (lambda (f xs) (if (null? xs) (list) (cons (f (car xs)) (map f (cdr xs))))))"

/-- The element in front, handed to the function. -/
def front : Value := .list [.symbol "f", .list [.symbol "car", .symbol "xs"]]

/-- The recursive call for the other elements. -/
def others : Value := .list [.symbol "map", .symbol "f", .list [.symbol "cdr", .symbol "xs"]]

def body : Value :=
  .list [.symbol "if", .list [.symbol "null?", .symbol "xs"], .list [.symbol "list"],
    .list [.symbol "cons", front, others]]

/-- The tree of the line. -/
def definition : Value :=
  .list [.symbol "define", .symbol "map",
    .list [.symbol "lambda", .list [.symbol "f", .symbol "xs"], body]]

/-- The procedure that the line makes in a fresh world. -/
def procedure : Value := .closure 0 ["f", "xs"] body globalScope

/-- The world that the line leaves. -/
def defined : World := World.fresh.withClosure.define "map" procedure globalScope

theorem evaluateLine_line {depth : Nat} (enough : depth ≥ 2) :
    (evaluateLine depth globalScope line).EndsWith World.fresh (.ok procedure) defined := by
  have read : Form.read line = .ok (definition, 0) := rfl
  have ends : (eval 2 definition globalScope).EndsWith World.fresh (.ok procedure) defined :=
    ⟨_, rfl⟩
  exact evaluateLine_ends read (eval_deeper enough ends)

/-- The global scope binds what it has bound since the line was evaluated. -/
def Provides (world : World) : Prop :=
  world.store.bindings globalScope = defined.store.bindings globalScope

/-- The scope is one that was made for a call of the procedure with a primitive and a list. -/
structure Frame (p : Primitive) (xs : List Value) (world : World) (scope : ScopeId) : Prop where
  own : world.store.bindings scope = Bindings.ofLists ["f", "xs"] [.primitive p, .list xs]
  up : world.store.Parent scope globalScope
  outer : Provides world

namespace Frame

variable {p : Primitive} {xs : List Value} {world before : World} {scope : ScopeId}

theorem enter (provides : Provides world) (p : Primitive) (xs : List Value) :
    Frame p xs (world.enter ["f", "xs"] [.primitive p, .list xs] globalScope)
      world.nextScope := by
  have bound : (world.store.bindings globalScope).get? "map" = some procedure := by
    rw [provides]
    rfl
  have old := Store.lt_size_of_bound bound
  exact ⟨world.bindings_enter .., world.parent_enter _ _ old,
    (world.bindings_enter_of_lt _ _ old).trans provides⟩

theorem display (frame : Frame p xs world scope) (text : String) :
    Frame p xs (world.display text) scope :=
  ⟨frame.own, frame.up, frame.outer⟩

theorem function (frame : Frame p xs world scope) :
    Evaluates world scope (.symbol "f") (.ok (.primitive p)) world :=
  .of_bound (by rw [frame.own]; rfl)

theorem elements (frame : Frame p xs world scope) :
    Evaluates world scope (.symbol "xs") (.ok (.list xs)) world :=
  .of_bound (by rw [frame.own]; rfl)

/-- All other names are those of the global scope. -/
theorem global (frame : Frame p xs world scope) (name : String) {v : Value}
    (other : name ∉ ["f", "xs"])
    (bound : (defined.store.bindings globalScope).get? name = some v) :
    Evaluates world scope (.symbol name) (.ok v) world := by
  refine .of_outside ?_ frame.up (by rw [frame.outer]; exact bound)
  rw [frame.own]
  exact Store.get?_ofLists_of_not_mem other _

theorem call (frame : Frame p xs world scope) (q : Primitive) (silent : q ≠ .display)
    {operands arguments : List Value}
    (evaluated : EvaluatesAll world scope operands (.ok arguments) before)
    (accepted : q.arity.accepts arguments.length = true) :
    Evaluates world scope (.list (.symbol q.name :: operands)) (q.result arguments) before := by
  have free : Keyword.ofName? q.name = none := by cases q <;> rfl
  have other : q.name ∉ ["f", "xs"] := by cases q <;> decide
  have bound : (defined.store.bindings globalScope).get? q.name = some (.primitive q) := by
    cases q <;> rfl
  exact .of_primitive free (frame.global q.name other bound) evaluated accepted silent

/-- A call of a primitive with the list. -/
theorem callOnElements (frame : Frame p xs world scope) (q : Primitive) (silent : q ≠ .display)
    (accepted : q.arity.accepts 1 = true) :
    Evaluates world scope (.list [.symbol q.name, .symbol "xs"]) (q.result [.list xs]) world :=
  frame.call q silent (.cons frame.elements .nil) accepted

end Frame

/-- The procedure comes to the values of the calls in order, or to the first fault. -/
theorem applies_procedure (p : Primitive) (xs : List Value) {world : World}
    (provides : Provides world) :
    ∃ after, Applies world procedure [.primitive p, .list xs]
        ((xs.mapM p.answerFor).map .list) after ∧
      after.output = world.output ++ String.join ((p.reached xs).map p.shownFor) ∧
      Provides after := by
  induction xs generalizing world with
  | nil =>
    have frame := Frame.enter provides p []
    have test := frame.callOnElements .isNull (by decide) rfl
    have empty := frame.call .list (by decide) .nil rfl
    exact ⟨_, .closure rfl (.consequent rfl (by decide) test rfl empty), by simp [World.enter],
      frame.outer⟩
  | cons x rest ih =>
    have frame := Frame.enter provides p (x :: rest)
    have test := frame.callOnElements .isNull (by decide) rfl
    -- The rest of the body is the call of `cons`, whose operands are evaluated in order.
    have operator : (Value.symbol "cons").IsOperator := Eval.isOperator_iff.mpr rfl
    have head := frame.global "cons" (by decide) rfl
    have branch {result : Except Fault Value} {after : World}
        (chosen : Evaluates _ world.nextScope (.list [.symbol "cons", front, others]) result
          after) :
        Applies world procedure [.primitive p, .list (x :: rest)] result after :=
      .closure rfl (.alternative rfl test rfl chosen)
    have car := frame.callOnElements .car (by decide) rfl
    have first := Evaluates.call (Eval.isOperator_iff.mpr rfl) frame.function (.cons car .nil)
      (p.applies_single x _)
    have later := frame.display (p.shownFor x)
    cases answered : p.answerFor x with
    | error fault =>
      rw [answered] at first
      refine ⟨_, ?_, ?_, later.outer⟩
      · rw [Primitive.answers_of_error answered]
        exact branch (.operandFault operator head (.fault first))
      · simp [Primitive.reached_of_error answered, World.display, World.enter]
    | ok v =>
      rw [answered] at first
      obtain ⟨after, recursive, output, provides⟩ := ih later.outer
      have cdr := later.callOnElements .cdr (by decide) rfl
      have again := later.global "map" (by decide) rfl
      have tail := Evaluates.call (Eval.isOperator_iff.mpr rfl) again
        (.cons later.function (.cons cdr .nil)) recursive
      refine ⟨after, ?_, ?_, provides⟩
      · rw [Primitive.answers_of_ok answered]
        cases remaining : rest.mapM p.answerFor with
        | error fault =>
          rw [remaining] at tail
          exact branch (.operandFault operator head (.later first (.fault tail)))
        | ok vs =>
          rw [remaining] at tail
          exact branch (frame.call .cons (by decide) (.cons first (.cons tail .nil)) rfl)
      · rw [output, Primitive.reached_of_ok answered, List.map_cons, String.join_cons,
          ← String.append_assoc]
        rfl

end Mapping

open Session Mapping

/-- The line that defines `map` makes a procedure in a fresh world. That procedure, applied to a
primitive and a list of any values, comes to an end. What a call of the primitive with one value
answers and shows does not depend on the world; and `map` answers the list of the answers for the
elements in order, or the fault of the first element for which there is none, and shows what the
calls up to there show, one after another. The global scope binds what it has bound before. -/
theorem map_calls_each (p : Primitive) (xs : List Value) :
    (∀ depth ≥ 2,
      (evaluateLine depth globalScope line).EndsWith World.fresh (.ok procedure) defined) ∧
    (∀ (v : Value) (depth : Nat) (world : World),
      (apply depth (.primitive p) [v]).EndsWith world (p.answerFor v)
        (world.display (p.shownFor v))) ∧
    ∃ enough after,
      (∀ depth ≥ enough, (apply depth procedure [.primitive p, .list xs]).EndsWith defined
        ((xs.mapM p.answerFor).map .list) after) ∧
      after.output = defined.output ++ String.join ((p.reached xs).map p.shownFor) ∧
      after.store.bindings globalScope = defined.store.bindings globalScope := by
  obtain ⟨after, applied, output, provides⟩ := applies_procedure p xs rfl
  obtain ⟨enough, ends⟩ := applied.exists_enough
  exact ⟨fun depth enough => evaluateLine_line enough, p.apply_single, enough, after, ends, output,
    provides⟩

/-- All elements are displayed in order, and `car` stops at the second element, which is no list. -/
theorem map_calls_each_display :
    let name : Value := .symbol "a"
    (evaluateLine 2 globalScope line).EndsWith World.fresh (.ok procedure) defined ∧
      (∃ enough after,
        (apply enough procedure [.primitive .display, .list [name, .list []]]).EndsWith defined
          (.ok (.list [.nil, .nil])) after ∧ after.output = "a\n()\n") ∧
      ∃ enough after,
        (apply enough procedure [.primitive .car, .list [.list [name], name, .list []]]).EndsWith
          defined (.error (.typeMismatch .list)) after := by
  intro name
  obtain ⟨line, _, enough, after, ends, output, _⟩ :=
    map_calls_each .display [name, .list []]
  obtain ⟨_, _, least, last, fails, _⟩ := map_calls_each .car [.list [name], name, .list []]
  exact ⟨line 2 (Nat.le_refl 2), ⟨enough, after, ends enough (Nat.le_refl _), output⟩,
    least, last, fails least (Nat.le_refl _)⟩

end MiniLisp
