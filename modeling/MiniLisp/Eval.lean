import MiniLisp.Primitive.Result
import MiniLisp.Run

/-!
# Evaluation

Symbols are looked up, lists are forms or calls, and everything else is its own value. A list that
begins with a keyword is a form; in any other list the head is evaluated first, then the operands
from left to right, and only then is the head's value looked at. The body of a closure is
evaluated in a new child of the scope that the closure remembers, never of the caller's.

Each function here takes, as `recur`, the evaluation to use for the parts of what it evaluates.
`eval` closes the circle: with a depth of `n + 1` it evaluates the parts with a depth of `n`, and
with a depth of zero it is cut short. A run that comes to its end therefore comes to the same end
with every greater depth.
-/
namespace MiniLisp

abbrev Evaluator := Value → ScopeId → Run Value

namespace Eval

/-- Evaluates operands from left to right. -/
def operandsWith (recur : Evaluator) (scope : ScopeId) : List Value → Run (List Value)
  | [] => return []
  | operand :: rest => do
    let v ← recur operand scope
    let vs ← operandsWith recur scope rest
    return v :: vs

/-- Evaluates items from left to right and ends with the last value, or with the given one. -/
def sequenceWith (recur : Evaluator) (scope : ScopeId) (last : Value) : List Value → Run Value
  | [] => return last
  | item :: rest => do
    let v ← recur item scope
    sequenceWith recur scope v rest

def callPrimitive (p : Primitive) (arguments : List Value) : Run Value := do
  -- Arguments are counted before anything is recorded or shown.
  if p.arity.accepts arguments.length then
    Run.emit (.calling p arguments)
    Run.write (p.displayed arguments)
    match p.result arguments with
    | .ok v =>
      Run.emit (.returned p v)
      return v
    | .error fault =>
      Run.emit (.failed p fault)
      Run.fail fault
  else Run.fail (.argumentCount p.name p.arity arguments.length)

/-- Records that a new scope is about to be used. -/
def announce (scope : ScopeId) : Run Unit := do
  let world ← Run.world
  Run.emit (.entered (world.store.depth scope) (world.store.bindings scope).length)

def applyWith (recur : Evaluator) (procedure : Value) (arguments : List Value) : Run Value :=
  match procedure with
  | .primitive p => callPrimitive p arguments
  | .closure _ parameters body scope => do
    Run.emit (.applying parameters body arguments)
    let inner ← Run.extend parameters arguments scope
    announce inner
    recur body inner
  | other => Run.fail (.notCallable other)

/-- A single operand is the quoted value; any other number of them is quoted as a list. -/
def quoted : List Value → Value
  | [v] => v
  | vs => .list vs

/-- The symbol and the expression of a form that gives a value to a name. -/
def target (keyword : Keyword) : List Value → Except Fault (String × Value)
  | [.symbol name, expression] => .ok (name, expression)
  | [_, _] => .error (.targetNotSymbol keyword)
  | operands => .error (.operandCount keyword operands.length)

def parameterNames : List Value → Except Fault (List String)
  | [] => .ok []
  | .symbol name :: rest => return name :: (← parameterNames rest)
  | _ :: _ => .error .parameterNotSymbol

/-- The parameters and the body of a closure. -/
def closureParts : List Value → Except Fault (List String × Value)
  | [.list parameters, body] => return (← parameterNames parameters, body)
  | [_, _] => .error .parametersNotList
  | operands => .error (.operandCount .lambda operands.length)

/-- Evaluates a test and then one branch. A branch that is missing has the value `nil`. -/
def conditionalWith (recur : Evaluator) (scope : ScopeId) : List Value → Run Value
  | [test, consequent] => do
    let v ← recur test scope
    if v.isTruthy then recur consequent scope else return .nil
  | [test, consequent, alternative] => do
    let v ← recur test scope
    if v.isTruthy then recur consequent scope else recur alternative scope
  | operands => Run.fail (.operandCount .conditional operands.length)

/-- Evaluates an expression and binds a name to its value in the current scope. -/
def defineWith (recur : Evaluator) (scope : ScopeId) (operands : List Value) : Run Value := do
  -- The operands are checked before the expression is evaluated.
  let (name, expression) ← Run.ofExcept (target .define operands)
  let v ← recur expression scope
  Run.define name v scope
  Run.emit (.defined name v)
  return v

/-- Evaluates an expression and gives its value to the nearest binding of a name. -/
def assignWith (recur : Evaluator) (scope : ScopeId) (operands : List Value) : Run Value := do
  let (name, expression) ← Run.ofExcept (target .assign operands)
  let v ← recur expression scope
  Run.assign name v scope
  Run.emit (.assigned name v)
  return v

/-- Makes a closure that remembers the current scope. -/
def close (scope : ScopeId) (operands : List Value) : Run Value := do
  let (parameters, body) ← Run.ofExcept (closureParts operands)
  Run.close parameters body scope

def formWith (recur : Evaluator) (keyword : Keyword) (operands : List Value) (scope : ScopeId) :
    Run Value :=
  match keyword with
  | .quote => return quoted operands
  | .conditional => conditionalWith recur scope operands
  | .assign => assignWith recur scope operands
  | .define => defineWith recur scope operands
  | .lambda => close scope operands
  | .begin => sequenceWith recur scope .nil operands

/-- The keyword that a list begins with, if its head is one. -/
def keyword? (head : Value) : Option Keyword :=
  head.name?.bind Keyword.ofName?

/-- Evaluates a value, its parts by the given evaluation. -/
def evalWith (recur : Evaluator) (expression : Value) (scope : ScopeId) : Run Value := do
  Run.emit (.evaluating expression)
  match expression with
  | .symbol name => Run.fetch name scope
  | .list (head :: operands) =>
    match keyword? head with
    | some keyword => formWith recur keyword operands scope
    | none =>
      -- Whether the head's value can be applied is asked after the operands.
      let procedure ← recur head scope
      let arguments ← operandsWith recur scope operands
      applyWith recur procedure arguments
  | other => return other

end Eval

/-- Evaluates a value in a scope, nesting evaluations at most as deep as given. -/
def eval : Nat → Evaluator
  | 0 => fun _ _ => Run.cutShort
  | depth + 1 => Eval.evalWith (eval depth)

/-- Applies a procedure to arguments, nesting evaluations at most as deep as given. -/
def apply (depth : Nat) (procedure : Value) (arguments : List Value) : Run Value :=
  Eval.applyWith (eval depth) procedure arguments

end MiniLisp
