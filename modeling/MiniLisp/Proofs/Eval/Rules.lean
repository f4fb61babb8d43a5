import MiniLisp.Eval
import MiniLisp.Proofs.Store.Owner

/-!
# The rules of evaluation

The language is given here by rules, without an order of computation and without a limit on depth.
A judgement says that evaluating a value in a scope of one world ends with a result, a value or a
fault, and leaves another world. Each kind of list has a rule for every way in which it can end;
the premises of a rule follow one another in the worlds that they mention, so what is evaluated
first, and what is not evaluated at all, can be read off them.
-/
namespace MiniLisp

/-- Only quotation has a second spelling. -/
theorem Keyword.eq_name_of_ofName? {word : String} {keyword : Keyword}
    (spelled : Keyword.ofName? word = some keyword) (other : keyword ≠ .quote) :
    word = keyword.name := by
  grind [Keyword.ofName?, Keyword.name]

/-- The value is neither a symbol nor a list with elements. -/
def Value.IsLiteral (v : Value) : Prop :=
  (∀ name, v ≠ .symbol name) ∧ ∀ head operands, v ≠ .list (head :: operands)

/-- The value is no word that spells a keyword. -/
def Value.IsOperator (head : Value) : Prop :=
  ∀ word, head = .symbol word → Keyword.ofName? word = none

namespace World

def define (world : World) (name : String) (v : Value) (scope : ScopeId) : World :=
  { world with store := world.store.define name v scope }

/-- The world with one more scope for a call: a child of the scope that the closure remembers,
binding the parameters to the arguments. -/
def enter (world : World) (parameters : List String) (arguments : List Value)
    (parent : ScopeId) : World :=
  { world with
    store := world.store.add ⟨some parent, Bindings.ofLists parameters arguments⟩ }

def nextScope (world : World) : ScopeId := world.store.size

def withClosure (world : World) : World :=
  { world with closuresMade := world.closuresMade + 1 }

def display (world : World) (text : String) : World :=
  { world with output := world.output ++ text }

@[simp] theorem display_empty (world : World) : world.display "" = world := by
  simp [display]

end World

mutual

/-- Evaluating a value in a scope of a world ends with a result and leaves a world. -/
inductive Evaluates : World → ScopeId → Value → Except Fault Value → World → Prop where
  -- A symbol has the value that its owner binds it to.
  | symbol {world : World} {scope owner : ScopeId} {name : String} {v : Value}
    (owned : world.store.Owner name scope owner)
    (bound : (world.store.bindings owner).get? name = some v) :
    Evaluates world scope (.symbol name) (.ok v) world
  | unknown {world : World} {scope : ScopeId} {name : String}
    (free : ∀ owner, ¬ world.store.Owner name scope owner) :
    Evaluates world scope (.symbol name) (.error (.unknownSymbol name)) world
  -- Atoms other than symbols, and the empty list, are their own values.
  | literal {world : World} {scope : ScopeId} {v : Value} (is : v.IsLiteral) :
    Evaluates world scope v (.ok v) world
  -- A single operand is quoted as it is.
  | quote {world : World} {scope : ScopeId} {word : String} {operand : Value}
    (spelled : Keyword.ofName? word = some .quote) :
    Evaluates world scope (.list [.symbol word, operand]) (.ok operand) world
  -- No operand or several are quoted as their list.
  | quoteList {world : World} {scope : ScopeId} {word : String} {operands : List Value}
    (spelled : Keyword.ofName? word = some .quote) (count : operands.length ≠ 1) :
    Evaluates world scope (.list (.symbol word :: operands)) (.ok (.list operands)) world
  -- After the test exactly one branch is evaluated, in the world that the test has left.
  | consequent {world between after : World} {scope : ScopeId} {word : String}
    {test consequent v : Value} {alternatives : List Value} {result : Except Fault Value}
    (spelled : Keyword.ofName? word = some .conditional) (count : alternatives.length ≤ 1)
    (tested : Evaluates world scope test (.ok v) between) (holds : v.isTruthy = true)
    (chosen : Evaluates between scope consequent result after) :
    Evaluates world scope (.list (.symbol word :: test :: consequent :: alternatives)) result after
  | alternative {world between after : World} {scope : ScopeId} {word : String}
    {test consequent alternative v : Value} {result : Except Fault Value}
    (spelled : Keyword.ofName? word = some .conditional)
    (tested : Evaluates world scope test (.ok v) between) (fails : v.isTruthy = false)
    (chosen : Evaluates between scope alternative result after) :
    Evaluates world scope (.list [.symbol word, test, consequent, alternative]) result after
  | noAlternative {world between : World} {scope : ScopeId} {word : String}
    {test consequent v : Value} (spelled : Keyword.ofName? word = some .conditional)
    (tested : Evaluates world scope test (.ok v) between) (fails : v.isTruthy = false) :
    Evaluates world scope (.list [.symbol word, test, consequent]) (.ok .nil) between
  | testFault {world after : World} {scope : ScopeId} {word : String} {test consequent : Value}
    {alternatives : List Value} {fault : Fault}
    (spelled : Keyword.ofName? word = some .conditional) (count : alternatives.length ≤ 1)
    (tested : Evaluates world scope test (.error fault) after) :
    Evaluates world scope (.list (.symbol word :: test :: consequent :: alternatives))
      (.error fault) after
  | conditionalCount {world : World} {scope : ScopeId} {word : String} {operands : List Value}
    (spelled : Keyword.ofName? word = some .conditional)
    (count : operands.length ≠ 2 ∧ operands.length ≠ 3) :
    Evaluates world scope (.list (.symbol word :: operands))
      (.error (.operandCount .conditional operands.length)) world
  -- A definition writes to the current scope once its expression has a value.
  | define {world after : World} {scope : ScopeId} {word name : String} {expression v : Value}
    (spelled : Keyword.ofName? word = some .define)
    (evaluated : Evaluates world scope expression (.ok v) after) :
    Evaluates world scope (.list [.symbol word, .symbol name, expression]) (.ok v)
      (after.define name v scope)
  -- An assignment writes to the owner that the name has once the expression has a value.
  | assign {world after : World} {scope owner : ScopeId} {word name : String}
    {expression v : Value} (spelled : Keyword.ofName? word = some .assign)
    (evaluated : Evaluates world scope expression (.ok v) after)
    (owned : after.store.Owner name scope owner) :
    Evaluates world scope (.list [.symbol word, .symbol name, expression]) (.ok v)
      (after.define name v owner)
  | assignUnknown {world after : World} {scope : ScopeId} {word name : String}
    {expression v : Value} (spelled : Keyword.ofName? word = some .assign)
    (evaluated : Evaluates world scope expression (.ok v) after)
    (free : ∀ owner, ¬ after.store.Owner name scope owner) :
    Evaluates world scope (.list [.symbol word, .symbol name, expression])
      (.error (.unknownSymbol name)) after
  -- Both forms that write fail before they write.
  | writeFault {world after : World} {scope : ScopeId} {word name : String} {keyword : Keyword}
    {expression : Value} {fault : Fault} (spelled : Keyword.ofName? word = some keyword)
    (writes : keyword = .define ∨ keyword = .assign)
    (evaluated : Evaluates world scope expression (.error fault) after) :
    Evaluates world scope (.list [.symbol word, .symbol name, expression]) (.error fault) after
  | writeCount {world : World} {scope : ScopeId} {word : String} {keyword : Keyword}
    {operands : List Value} (spelled : Keyword.ofName? word = some keyword)
    (writes : keyword = .define ∨ keyword = .assign) (count : operands.length ≠ 2) :
    Evaluates world scope (.list (.symbol word :: operands))
      (.error (.operandCount keyword operands.length)) world
  | writeTarget {world : World} {scope : ScopeId} {word : String} {keyword : Keyword}
    {target expression : Value} (spelled : Keyword.ofName? word = some keyword)
    (writes : keyword = .define ∨ keyword = .assign) (wrong : ∀ name, target ≠ .symbol name) :
    Evaluates world scope (.list [.symbol word, target, expression])
      (.error (.targetNotSymbol keyword)) world
  -- A closure remembers the current scope; its body is not evaluated.
  | lambda {world : World} {scope : ScopeId} {word : String} {parameters : List String}
    {body : Value} (spelled : Keyword.ofName? word = some .lambda) :
    Evaluates world scope (.list [.symbol word, .list (parameters.map .symbol), body])
      (.ok (.closure world.closuresMade parameters body scope)) world.withClosure
  | lambdaCount {world : World} {scope : ScopeId} {word : String} {operands : List Value}
    (spelled : Keyword.ofName? word = some .lambda) (count : operands.length ≠ 2) :
    Evaluates world scope (.list (.symbol word :: operands))
      (.error (.operandCount .lambda operands.length)) world
  | lambdaList {world : World} {scope : ScopeId} {word : String} {parameters body : Value}
    (spelled : Keyword.ofName? word = some .lambda)
    (wrong : ∀ items, parameters ≠ .list items) :
    Evaluates world scope (.list [.symbol word, parameters, body])
      (.error .parametersNotList) world
  | lambdaSymbol {world : World} {scope : ScopeId} {word : String} {parameters : List Value}
    {wrong body : Value} (spelled : Keyword.ofName? word = some .lambda)
    (member : wrong ∈ parameters) (other : ∀ name, wrong ≠ .symbol name) :
    Evaluates world scope (.list [.symbol word, .list parameters, body])
      (.error .parameterNotSymbol) world
  -- A sequence has the value of its last item, and an empty one has the value `nil`.
  | sequence {world after : World} {scope : ScopeId} {word : String} {items vs : List Value}
    (spelled : Keyword.ofName? word = some .begin)
    (evaluated : EvaluatesAll world scope items (.ok vs) after) :
    Evaluates world scope (.list (.symbol word :: items)) (.ok (vs.getLastD .nil)) after
  | sequenceFault {world after : World} {scope : ScopeId} {word : String} {items : List Value}
    {fault : Fault} (spelled : Keyword.ofName? word = some .begin)
    (evaluated : EvaluatesAll world scope items (.error fault) after) :
    Evaluates world scope (.list (.symbol word :: items)) (.error fault) after
  -- In any other list the head comes first, then all operands, and then the application.
  | call {world between before after : World} {scope : ScopeId} {head procedure : Value}
    {operands arguments : List Value} {result : Except Fault Value} (operator : head.IsOperator)
    (first : Evaluates world scope head (.ok procedure) between)
    (evaluated : EvaluatesAll between scope operands (.ok arguments) before)
    (applied : Applies before procedure arguments result after) :
    Evaluates world scope (.list (head :: operands)) result after
  | headFault {world after : World} {scope : ScopeId} {head : Value} {operands : List Value}
    {fault : Fault} (operator : head.IsOperator)
    (first : Evaluates world scope head (.error fault) after) :
    Evaluates world scope (.list (head :: operands)) (.error fault) after
  | operandFault {world between after : World} {scope : ScopeId} {head procedure : Value}
    {operands : List Value} {fault : Fault} (operator : head.IsOperator)
    (first : Evaluates world scope head (.ok procedure) between)
    (evaluated : EvaluatesAll between scope operands (.error fault) after) :
    Evaluates world scope (.list (head :: operands)) (.error fault) after

/-- Evaluating values from left to right, each once, ends with all their values or with the fault
of the first that has none. -/
inductive EvaluatesAll :
    World → ScopeId → List Value → Except Fault (List Value) → World → Prop where
  | nil {world : World} {scope : ScopeId} : EvaluatesAll world scope [] (.ok []) world
  | cons {world between after : World} {scope : ScopeId} {item v : Value} {rest vs : List Value}
    (first : Evaluates world scope item (.ok v) between)
    (others : EvaluatesAll between scope rest (.ok vs) after) :
    EvaluatesAll world scope (item :: rest) (.ok (v :: vs)) after
  | fault {world after : World} {scope : ScopeId} {item : Value} {rest : List Value}
    {fault : Fault} (first : Evaluates world scope item (.error fault) after) :
    EvaluatesAll world scope (item :: rest) (.error fault) after
  -- What has been evaluated before the fault stays done.
  | later {world between after : World} {scope : ScopeId} {item v : Value} {rest : List Value}
    {fault : Fault} (first : Evaluates world scope item (.ok v) between)
    (others : EvaluatesAll between scope rest (.error fault) after) :
    EvaluatesAll world scope (item :: rest) (.error fault) after

/-- Applying a value to arguments ends with a result and leaves a world. -/
inductive Applies : World → Value → List Value → Except Fault Value → World → Prop where
  | primitive {world : World} {p : Primitive} {arguments : List Value}
    (accepted : p.arity.accepts arguments.length = true) :
    Applies world (.primitive p) arguments (p.result arguments)
      (world.display (p.displayed arguments))
  | primitiveCount {world : World} {p : Primitive} {arguments : List Value}
    (refused : p.arity.accepts arguments.length = false) :
    Applies world (.primitive p) arguments
      (.error (.argumentCount p.name p.arity arguments.length)) world
  -- The body is evaluated in one fresh child of the scope that the closure remembers.
  | closure {world after : World} {serial : Nat} {parameters : List String} {body : Value}
    {captured : ScopeId} {arguments : List Value} {result : Except Fault Value}
    (count : arguments.length = parameters.length)
    (entered : Evaluates (world.enter parameters arguments captured) world.nextScope body
      result after) :
    Applies world (.closure serial parameters body captured) arguments result after
  | closureCount {world : World} {serial : Nat} {parameters : List String} {body : Value}
    {captured : ScopeId} {arguments : List Value}
    (count : arguments.length ≠ parameters.length) :
    Applies world (.closure serial parameters body captured) arguments
      (.error (.argumentCount "lambda" (.exactly parameters.length) arguments.length)) world
  -- That a value cannot be applied is found out when its arguments are there.
  | notCallable {world : World} {v : Value} {arguments : List Value}
    (other : v.isProcedure = false) :
    Applies world v arguments (.error (.notCallable v)) world

end

end MiniLisp
