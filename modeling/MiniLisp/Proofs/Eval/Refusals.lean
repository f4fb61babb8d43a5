import MiniLisp.Proofs.Eval.Cases
import MiniLisp.Proofs.Eval.Invariant

/-!
# Refusals

An operation that fails has done nothing of its own. A form whose operands do not have the shape
that it asks for is refused before any of them is evaluated. A form that writes does so last, once
its expression has a value, and an assignment looks for the owner of the name only then, so with a
fault it leaves the world as the expression has left it. An application is refused if the value is
no procedure, if there are too few or too many arguments, or if a primitive has no answer for them;
it leaves the world as its operands have left it. Every other application that fails does so in the
body of a closure.
-/
namespace MiniLisp

open Run

/-! ### Shapes of forms -/

/-- The form is refused for the shape of its operands. -/
inductive Keyword.Refuses : Keyword → List Value → Fault → Prop where
  | conditionalCount {operands : List Value}
    (count : operands.length ≠ 2 ∧ operands.length ≠ 3) :
    Refuses .conditional operands (.operandCount .conditional operands.length)
  | writeCount {keyword : Keyword} {operands : List Value}
    (writes : keyword = .define ∨ keyword = .assign) (count : operands.length ≠ 2) :
    Refuses keyword operands (.operandCount keyword operands.length)
  | writeTarget {keyword : Keyword} {target expression : Value}
    (writes : keyword = .define ∨ keyword = .assign) (wrong : ∀ name, target ≠ .symbol name) :
    Refuses keyword [target, expression] (.targetNotSymbol keyword)
  | lambdaCount {operands : List Value} (count : operands.length ≠ 2) :
    Refuses .lambda operands (.operandCount .lambda operands.length)
  | lambdaList {parameters body : Value} (wrong : ∀ items, parameters ≠ .list items) :
    Refuses .lambda [parameters, body] .parametersNotList
  | lambdaSymbol {parameters : List Value} {wrong body : Value} (member : wrong ∈ parameters)
    (other : ∀ name, wrong ≠ .symbol name) :
    Refuses .lambda [.list parameters, body] .parameterNotSymbol

namespace Eval

variable {f : Evaluator} {world after : World} {scope : ScopeId} {keyword : Keyword}
  {operands : List Value} {fault : Fault}

/-- Nothing is done and nothing recorded if there is no value to begin with. -/
theorem ofExcept_bind_of_error {α β : Type} {given : Except Fault α} {next : α → Run β}
    (failed : given = .error fault) (world : World) :
    (ofExcept given >>= next) world = some ⟨.error fault, world, .empty⟩ := by
  rw [failed]
  rfl

/-- A refused form does nothing, whatever evaluates its operands. -/
theorem formWith_of_refuses (refused : keyword.Refuses operands fault) (f : Evaluator)
    (scope : ScopeId) (world : World) :
    formWith f keyword operands scope world = some ⟨.error fault, world, .empty⟩ := by
  cases refused with
  | conditionalCount count =>
    match operands, count with
    | [_, _], count => exact absurd rfl count.1
    | [_, _, _], count => exact absurd rfl count.2
    | [], _ | [_], _ | _ :: _ :: _ :: _ :: _, _ => rfl
  | writeCount writes count =>
    rcases writes with rfl | rfl
    · exact ofExcept_bind_of_error (target_of_length _ count) world
    · exact ofExcept_bind_of_error (target_of_length _ count) world
  | writeTarget writes wrong =>
    rcases writes with rfl | rfl
    · exact ofExcept_bind_of_error (target_of_not_symbol _ _ wrong) world
    · exact ofExcept_bind_of_error (target_of_not_symbol _ _ wrong) world
  | lambdaCount count => exact ofExcept_bind_of_error (closureParts_of_length count) world
  | lambdaList wrong => exact ofExcept_bind_of_error (closureParts_of_not_list _ wrong) world
  | lambdaSymbol member other =>
    exact ofExcept_bind_of_error (closureParts_of_not_symbol _ member other) world

/-- The record of a refused form is the only one. -/
theorem evalWith_of_refuses {word : String} (spelled : Keyword.ofName? word = some keyword)
    (refused : keyword.Refuses operands fault) (f : Evaluator) (scope : ScopeId) (world : World) :
    ∃ trace, evalWith f (.list (.symbol word :: operands)) scope world =
        some ⟨.error fault, world, trace⟩ ∧
      trace.toList = [.evaluating (.list (.symbol word :: operands))] := by
  have found : keyword? (.symbol word) = some keyword := spelled
  have form := formWith_of_refuses refused f scope world
  refine ⟨.both (.single (.evaluating (.list (.symbol word :: operands)))) .empty, ?_, rfl⟩
  simp only [evalWith, found]
  change Run.bind _ _ world = _
  simp only [Run.bind, emit, form]

/-- A form that fails although nothing can be evaluated is refused. -/
theorem refuses_of_formWith
    (none : ∀ v scope world (result : Except Fault Value) after,
      ¬ (f v scope).EndsWith world result after)
    (failed : (formWith f keyword operands scope).EndsWith world (.error fault) after) :
    keyword.Refuses operands fault := by
  -- A refusal is the only end of its form.
  have only {other : Fault} (refused : keyword.Refuses operands other) :
      keyword.Refuses operands fault := by
    cases (failed.unique ⟨_, formWith_of_refuses refused f scope world⟩).1
    exact refused
  -- What begins with an evaluation has no end.
  have stuck {β : Type} {v : Value} {next : Value → Run β} {result : Except Fault β} :
      ¬ (f v scope >>= next).EndsWith world result after := by
    intro ends
    rcases endsWith_bind.mp ends with ⟨_, _, ends⟩ | ⟨_, _, ends, _⟩
    · exact none _ _ _ _ _ ends
    · exact none _ _ _ _ _ ends
  cases keyword with
  | quote => cases (endsWith_pure.mp failed).1
  | conditional =>
    by_cases two : operands.length = 2
    · obtain ⟨test, consequent, rfl⟩ := List.length_eq_two.mp two
      exact absurd failed stuck
    · by_cases three : operands.length = 3
      · obtain ⟨test, consequent, alternative, rfl⟩ := List.length_eq_three.mp three
        exact absurd failed stuck
      · exact only (.conditionalCount ⟨two, three⟩)
  | define | assign =>
    rcases target_cases operands with ⟨name, expression, rfl⟩ |
      ⟨wrong, expression, rfl, other⟩ | count
    · exact absurd (endsWith_ofExcept_ok.mp failed) stuck
    · exact only (.writeTarget (by simp) other)
    · exact only (.writeCount (by simp) count)
  | lambda =>
    rcases closureParts_cases operands with ⟨names, body, rfl⟩ |
      ⟨parameters, body, rfl, wrong, member, other⟩ | ⟨wrong, body, rfl, other⟩ | count
    · simp [formWith, Eval.close, closureParts_symbols, endsWith_ofExcept_ok] at failed
    · exact only (.lambdaSymbol member other)
    · exact only (.lambdaList other)
    · exact only (.lambdaCount count)
  | begin =>
    cases operands with
    | nil => cases (endsWith_pure.mp failed).1
    | cons item rest => exact absurd failed stuck

end Eval

/-! ### Applications -/

/-- A fault that an application raises itself. -/
def Fault.IsOfApplication : Fault → Prop
  | .notCallable _ | .argumentCount _ _ _ | .typeMismatch _ | .divisionByZero | .exit _ => True
  | _ => False

/-- The application is refused: the value is no procedure, the number of arguments is not the one
that the procedure takes, or the primitive has no answer for the arguments. -/
inductive Value.Refuses : Value → List Value → Fault → Prop where
  | notCallable {v : Value} {arguments : List Value} (other : v.isProcedure = false) :
    Refuses v arguments (.notCallable v)
  | primitiveCount {p : Primitive} {arguments : List Value}
    (refused : p.arity.accepts arguments.length = false) :
    Refuses (.primitive p) arguments (.argumentCount p.name p.arity arguments.length)
  | noAnswer {p : Primitive} {arguments : List Value} {fault : Fault}
    (accepted : p.arity.accepts arguments.length = true)
    (failed : p.result arguments = .error fault) : Refuses (.primitive p) arguments fault
  | closureCount {serial : Nat} {parameters : List String} {body : Value} {captured : ScopeId}
    {arguments : List Value} (count : arguments.length ≠ parameters.length) :
    Refuses (.closure serial parameters body captured) arguments
      (.argumentCount "lambda" (.exactly parameters.length) arguments.length)

/-- A primitive that fails has shown nothing. -/
theorem Primitive.displayed_of_error {p : Primitive} {arguments : List Value} {fault : Fault}
    (accepted : p.arity.accepts arguments.length = true)
    (failed : p.result arguments = .error fault) : p.displayed arguments = "" := by
  by_cases shows : p = .display
  · subst shows
    obtain ⟨v, rfl⟩ := List.length_eq_one_iff.mp (Arity.accepts_exactly.mp accepted)
    cases failed
  · exact displayed_of_ne shows arguments

namespace Value.Refuses

variable {procedure : Value} {arguments : List Value} {fault : Fault}

theorem isOfApplication (refused : procedure.Refuses arguments fault) : fault.IsOfApplication := by
  cases refused with
  | @noAnswer p _ _ accepted failed =>
    cases p.raising_result arguments fault failed with
    | noCase => exact absurd failed (Primitive.hasCase_result accepted)
    | typeMismatch | divisionByZero | exit => trivial
  | _ => trivial

theorem applyWith (refused : procedure.Refuses arguments fault) (f : Evaluator) (world : World) :
    (Eval.applyWith f procedure arguments).EndsWith world (.error fault) world := by
  cases refused with
  | notCallable other => exact Eval.applyWith_of_not_procedure other
  | primitiveCount refused => exact Eval.callPrimitive_ends.mpr (.inr ⟨refused, rfl, rfl⟩)
  | noAnswer accepted failed =>
    refine Eval.callPrimitive_ends.mpr (.inl ⟨accepted, failed.symm, ?_⟩)
    rw [Primitive.displayed_of_error accepted failed, World.display_empty]
  | closureCount count => exact Eval.applyWith_closure.mpr (.inr ⟨count, rfl, rfl⟩)

end Value.Refuses

/-- An application that fails is refused, or the body of a closure has failed. -/
theorem Eval.applyWith_error {f : Evaluator} {procedure : Value} {arguments : List Value}
    {fault : Fault} {world after : World}
    (failed : (applyWith f procedure arguments).EndsWith world (.error fault) after) :
    (procedure.Refuses arguments fault ∧ after = world) ∨
      ∃ serial parameters body captured, procedure = .closure serial parameters body captured ∧
        arguments.length = parameters.length ∧
        (f body world.nextScope).EndsWith (world.enter parameters arguments captured)
          (.error fault) after := by
  -- A refusal is the only end of its application.
  have only {other : Fault} (refused : procedure.Refuses arguments other) :
      procedure.Refuses arguments fault ∧ after = world := by
    obtain ⟨same, rfl⟩ := failed.unique (refused.applyWith f world)
    cases same
    exact ⟨refused, rfl⟩
  cases procedure with
  | primitive p =>
    rcases callPrimitive_ends.mp failed with ⟨accepted, answer, _⟩ | ⟨refused, _, _⟩
    · exact .inl (only (.noAnswer accepted answer.symm))
    · exact .inl (only (.primitiveCount refused))
  | closure serial parameters body captured =>
    rcases applyWith_closure.mp failed with ⟨count, entered⟩ | ⟨count, _, _⟩
    · exact .inr ⟨serial, parameters, body, captured, rfl, count, entered⟩
    · exact .inl (only (.closureCount count))
  | _ => exact .inl (only (.notCallable rfl))

/-- What fails writes nothing of its own. A form is refused for the shape of its operands, which is
if it fails without any evaluation of its parts, and then it evaluates none of them, as the records
show, and leaves the world as it was. A form that writes and whose expression fails leaves the world
as the expression alone leaves it. So does an assignment to a name without owner, where the owner is
the one that the name has once the expression has its value. A call that is refused when its head
and its operands have values leaves the world as they have left it, and its fault is one of those
that applications raise; if a call fails at that point and is not refused, the body of a closure has
failed. -/
theorem faults_write_nothing :
    (∀ (word : String) (keyword : Keyword), Keyword.ofName? word = some keyword →
      ∀ (operands : List Value) (fault : Fault) (scope : ScopeId) (world : World),
        let form : Value := .list (.symbol word :: operands)
        (keyword.Refuses operands fault ↔
          ∃ after, (eval 1 form scope).EndsWith world (.error fault) after) ∧
        (keyword.Refuses operands fault → ∀ depth, ∃ trace,
          eval (depth + 1) form scope world = some ⟨.error fault, world, trace⟩ ∧
            trace.toList = [.evaluating form])) ∧
    (∀ (word : String) (keyword : Keyword), Keyword.ofName? word = some keyword →
      keyword = .define ∨ keyword = .assign →
      ∀ (depth : Nat) (name : String) (expression : Value) (scope : ScopeId)
        (world after : World) (fault : Fault),
        (eval depth expression scope).EndsWith world (.error fault) after →
        (eval (depth + 1) (.list [.symbol word, .symbol name, expression]) scope).EndsWith world
          (.error fault) after) ∧
    (∀ (word : String), Keyword.ofName? word = some .assign →
      ∀ (depth : Nat) (name : String) (expression v : Value) (scope : ScopeId)
        (world after : World),
        (eval depth expression scope).EndsWith world (.ok v) after →
        let assignment := eval (depth + 1) (.list [.symbol word, .symbol name, expression]) scope
        ((∀ owner, ¬ after.store.Owner name scope owner) →
          assignment.EndsWith world (.error (.unknownSymbol name)) after) ∧
        ∀ owner, after.store.Owner name scope owner →
          assignment.EndsWith world (.ok v) (after.define name v owner)) ∧
    (∀ (depth : Nat) (head procedure : Value) (operands arguments : List Value) (scope : ScopeId)
      (world between before : World), head.IsOperator →
      (eval depth head scope).EndsWith world (.ok procedure) between →
      (Eval.operandsWith (eval depth) scope operands).EndsWith between (.ok arguments) before →
      let call := eval (depth + 1) (.list (head :: operands)) scope
      (∀ fault, procedure.Refuses arguments fault →
        fault.IsOfApplication ∧ call.EndsWith world (.error fault) before) ∧
      ∀ fault after, call.EndsWith world (.error fault) after →
        (procedure.Refuses arguments fault ∧ after = before) ∨
        ∃ serial parameters body captured,
          procedure = .closure serial parameters body captured ∧
          arguments.length = parameters.length ∧
          (eval depth body before.nextScope).EndsWith (before.enter parameters arguments captured)
            (.error fault) after) ∧
    ∀ (depth : Nat) (procedure : Value) (arguments : List Value) (fault : Fault) (world : World),
      procedure.Refuses arguments fault →
      (apply depth procedure arguments).EndsWith world (.error fault) world := by
  refine ⟨?_, ?_, ?_, ?_, fun depth _ _ _ world refused => refused.applyWith (eval depth) world⟩
  · intro word keyword spelled operands fault scope world form
    have refuses := fun (refused : keyword.Refuses operands fault) depth =>
      Eval.evalWith_of_refuses spelled refused (eval depth) scope world
    refine ⟨⟨fun refused => ?_, ?_⟩, refuses⟩
    · obtain ⟨trace, done, _⟩ := refuses refused 0
      exact ⟨world, trace, done⟩
    · rintro ⟨after, failed⟩
      have never : ∀ v scope world (result : Except Fault Value) after,
          ¬ (eval 0 v scope).EndsWith world result after := fun _ _ _ _ _ => not_endsWith_cutShort
      exact Eval.refuses_of_formWith never ((Eval.evalWith_keyword spelled).mp failed)
  · intro word keyword spelled writes depth name expression scope world after fault failed
    exact (Eval.evalWith_keyword spelled).mpr (Eval.formWith_of_expression_error writes failed)
  · intro word spelled depth name expression v scope world after evaluated assignment
    constructor
    · intro free
      exact (Eval.evalWith_keyword spelled).mpr (Eval.formWith_assign_unknown evaluated free)
    · intro owner owned
      exact (Eval.evalWith_keyword spelled).mpr (Eval.formWith_assign evaluated owned)
  · intro depth head procedure operands arguments scope world between before operator first
      evaluated call
    have applies {result : Except Fault Value} {after : World} :
        call.EndsWith world result after ↔
          (apply depth procedure arguments).EndsWith before result after :=
      Eval.evalWith_call_iff operator first evaluated
    constructor
    · intro fault refused
      exact ⟨refused.isOfApplication, applies.mpr (refused.applyWith (eval depth) before)⟩
    · intro fault after failed
      exact Eval.applyWith_error (applies.mp failed)

/-- An assignment to a number is refused. A definition fails in an expression that has bound the
same name before; an assignment fails for want of a name and another one finds the name that its own
expression has bound; and `car` fails for an argument that is no list. -/
theorem faults_write_nothing_bound :
    let one : Value := .integer 1
    let define (name : String) : Value := .list [.symbol "define", .symbol name, one]
    let fails : Value := .list [.symbol "begin", define "x", .list [.primitive .car, one]]
    let bound (name : String) := World.fresh.define name one 0
    (∃ trace, eval 9 (.list [.symbol "set!", one, define "x"]) 0 World.fresh =
        some ⟨.error (.targetNotSymbol .assign), World.fresh, trace⟩ ∧
      trace.toList = [.evaluating (.list [.symbol "set!", one, define "x"])]) ∧
    (eval 4 (.list [.symbol "define", .symbol "x", fails]) 0).EndsWith World.fresh
      (.error (.typeMismatch .list)) (bound "x") ∧
    (eval 3 (.list [.symbol "set!", .symbol "y", define "x"]) 0).EndsWith World.fresh
      (.error (.unknownSymbol "y")) (bound "x") ∧
    (eval 3 (.list [.symbol "set!", .symbol "y", define "y"]) 0).EndsWith World.fresh
      (.ok one) ((bound "y").define "y" one 0) ∧
    (eval 3 (.list [.primitive .car, define "x"]) 0).EndsWith World.fresh
      (.error (.typeMismatch .list)) (bound "x") ∧
    (apply 0 (.primitive .car) [one]).EndsWith World.fresh (.error (.typeMismatch .list))
      World.fresh := by
  intro one define fails bound
  obtain ⟨shapes, written, assigned, calls, applied⟩ := faults_write_nothing
  have defines (name : String) : (eval 2 (define name) 0).EndsWith World.fresh (.ok one)
      (bound name) := ⟨_, rfl⟩
  have failed : (eval 3 fails 0).EndsWith World.fresh (.error (.typeMismatch .list)) (bound "x") :=
    ⟨_, rfl⟩
  have free : ∀ owner, ¬ (bound "x").store.Owner "y" 0 owner := by
    intro owner owned
    cases owned with
    | here found => cases found
    | outside _ up _ =>
      obtain ⟨_, up⟩ := up
      cases up
  have owned : (bound "y").store.Owner "y" 0 0 := .here rfl
  have refused : Value.Refuses (.primitive .car) [one] (.typeMismatch .list) := .noAnswer rfl rfl
  have shape : Keyword.assign.Refuses [one, define "x"] (.targetNotSymbol .assign) :=
    .writeTarget (.inr rfl) nofun
  have operator : (Value.primitive .car).IsOperator := nofun
  refine ⟨(shapes "set!" .assign rfl _ _ 0 World.fresh).2 shape 8,
    written "define" .define rfl (.inl rfl) _ _ _ _ _ _ _ failed,
    (assigned "set!" rfl _ "y" _ _ _ _ _ (defines "x")).1 free,
    (assigned "set!" rfl _ "y" _ _ _ _ _ (defines "y")).2 0 owned,
    ((calls 2 (.primitive .car) (.primitive .car) [define "x"] [one] 0 World.fresh World.fresh
      (bound "x") operator ⟨_, rfl⟩ ⟨_, rfl⟩).1 _ refused).2,
    applied 0 _ _ _ World.fresh refused⟩

end MiniLisp
