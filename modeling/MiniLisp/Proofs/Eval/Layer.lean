import MiniLisp.Proofs.Eval.Rules
import MiniLisp.Proofs.Run.Ends

/-!
# One layer of evaluation

What `evalWith` does with a value in terms of what the evaluation of its parts does: for each kind
of value and each form, how the run ends if the runs of the parts end in given ways. Nothing here
is an induction; the evaluation of the parts is any evaluator.
-/
namespace MiniLisp

open Run

namespace Eval

variable {f : Evaluator} {world after : World} {scope : ScopeId}

/-! ### Kinds of values -/

theorem isOperator_iff {head : Value} : head.IsOperator ↔ keyword? head = none := by
  cases head <;> simp [Value.IsOperator, keyword?, Value.name?]

theorem keyword?_eq_some {head : Value} {keyword : Keyword} (found : keyword? head = some keyword) :
    ∃ word, head = .symbol word ∧ Keyword.ofName? word = some keyword := by
  cases head with
  | symbol word => exact ⟨word, rfl, found⟩
  | _ => cases found

theorem evalWith_symbol {name : String} {result : Except Fault Value} :
    (evalWith f (.symbol name) scope).EndsWith world result after ↔
      (fetch name scope).EndsWith world result after := by
  simp [evalWith, endsWith_bind]

theorem evalWith_literal {v : Value} (literal : v.IsLiteral) {result : Except Fault Value} :
    (evalWith f v scope).EndsWith world result after ↔ result = .ok v ∧ after = world := by
  cases v with
  | symbol name => exact absurd rfl (literal.1 name)
  | list items =>
    cases items with
    | nil => simp [evalWith, endsWith_bind]
    | cons head operands => exact absurd rfl (literal.2 head operands)
  | _ => simp [evalWith, endsWith_bind]

theorem evalWith_keyword {word : String} {keyword : Keyword} {operands : List Value}
    (spelled : Keyword.ofName? word = some keyword) {result : Except Fault Value} :
    (evalWith f (.list (.symbol word :: operands)) scope).EndsWith world result after ↔
      (formWith f keyword operands scope).EndsWith world result after := by
  simp [evalWith, endsWith_bind, keyword?, Value.name?, spelled]

theorem evalWith_operator {head : Value} {operands : List Value} (operator : head.IsOperator)
    {result : Except Fault Value} :
    (evalWith f (.list (head :: operands)) scope).EndsWith world result after ↔
      (f head scope >>= fun procedure => operandsWith f scope operands >>= fun arguments =>
        applyWith f procedure arguments).EndsWith world result after := by
  have none := isOperator_iff.mp operator
  cases head <;> simp_all [evalWith, endsWith_bind]

theorem evalWith_call {head procedure : Value} {operands arguments : List Value}
    {between before : World} {result : Except Fault Value} (operator : head.IsOperator)
    (first : (f head scope).EndsWith world (.ok procedure) between)
    (evaluated : (operandsWith f scope operands).EndsWith between (.ok arguments) before)
    (applied : (applyWith f procedure arguments).EndsWith before result after) :
    (evalWith f (.list (head :: operands)) scope).EndsWith world result after :=
  (evalWith_operator operator).mpr (first.andThen (evaluated.andThen applied))

/-- A call whose head and operands have values ends as the application does. -/
theorem evalWith_call_iff {head procedure : Value} {operands arguments : List Value}
    {between before : World} {result : Except Fault Value} (operator : head.IsOperator)
    (first : (f head scope).EndsWith world (.ok procedure) between)
    (evaluated : (operandsWith f scope operands).EndsWith between (.ok arguments) before) :
    (evalWith f (.list (head :: operands)) scope).EndsWith world result after ↔
      (applyWith f procedure arguments).EndsWith before result after := by
  rw [evalWith_operator operator, first.bind_iff, evaluated.bind_iff]

/-! ### Applications -/

theorem callPrimitive_ends {p : Primitive} {arguments : List Value}
    {result : Except Fault Value} :
    (callPrimitive p arguments).EndsWith world result after ↔
      (p.arity.accepts arguments.length = true ∧ result = p.result arguments ∧
        after = world.display (p.displayed arguments)) ∨
      p.arity.accepts arguments.length = false ∧ after = world ∧
        result = .error (.argumentCount p.name p.arity arguments.length) := by
  cases accepted : p.arity.accepts arguments.length with
  | false => simp [callPrimitive, accepted, and_comm]
  | true =>
    cases answer : p.result arguments <;>
      simp [callPrimitive, accepted, answer, endsWith_bind, World.display]

theorem announce_ends {inner : ScopeId} {result : Except Fault Unit} :
    (announce inner).EndsWith world result after ↔ result = .ok () ∧ after = world := by
  simp only [announce, endsWith_bind, endsWith_world, endsWith_emit, reduceCtorEq, false_and,
    and_false, exists_false, false_or]
  constructor
  · rintro ⟨_, _, ⟨_, rfl⟩, rfl, rfl⟩
    exact ⟨rfl, rfl⟩
  · rintro ⟨rfl, rfl⟩
    exact ⟨_, _, ⟨rfl, rfl⟩, rfl, rfl⟩

/-- A closure is entered if the arguments can be counted off against its parameters. -/
theorem applyWith_closure {serial : Nat} {parameters : List String} {body : Value}
    {captured : ScopeId} {arguments : List Value} {result : Except Fault Value} :
    (applyWith f (.closure serial parameters body captured) arguments).EndsWith world result after ↔
      (arguments.length = parameters.length ∧
        (f body world.nextScope).EndsWith (world.enter parameters arguments captured)
          result after) ∨
      arguments.length ≠ parameters.length ∧ after = world ∧
        result = .error (.argumentCount "lambda" (.exactly parameters.length)
          arguments.length) := by
  -- The two records leave the world alone, so the counting alone decides.
  simp only [applyWith, endsWith_bind, endsWith_emit, endsWith_extend, announce_ends]
  by_cases equal : arguments.length = parameters.length
  · simp [equal, and_assoc, World.enter, World.nextScope]
  · simp [equal, and_comm]

theorem applyWith_of_not_procedure {v : Value} {arguments : List Value}
    (other : v.isProcedure = false) :
    (applyWith f v arguments).EndsWith world (.error (.notCallable v)) world := by
  cases v with
  | primitive p => cases other
  | closure serial parameters body captured => cases other
  | _ => exact endsWith_fail.mpr ⟨rfl, rfl⟩

/-! ### Operands of forms -/

theorem target_of_not_symbol (keyword : Keyword) {wrong : Value} (expression : Value)
    (other : ∀ name, wrong ≠ .symbol name) :
    target keyword [wrong, expression] = .error (.targetNotSymbol keyword) := by
  cases wrong with
  | symbol name => exact absurd rfl (other name)
  | _ => rfl

theorem target_of_length (keyword : Keyword) {operands : List Value}
    (count : operands.length ≠ 2) :
    target keyword operands = .error (.operandCount keyword operands.length) := by
  unfold target
  split
  · exact absurd rfl count
  · exact absurd rfl count
  · rfl

/-- Two operands of which the first is a symbol, two others, or another number of them. -/
theorem target_cases (operands : List Value) :
    (∃ name expression, operands = [.symbol name, expression]) ∨
      (∃ wrong expression, operands = [wrong, expression] ∧ ∀ name, wrong ≠ .symbol name) ∨
      operands.length ≠ 2 := by
  by_cases count : operands.length = 2
  · match operands, count with
    | [destination, expression], _ =>
      by_cases symbol : ∃ name, destination = .symbol name
      · obtain ⟨name, rfl⟩ := symbol
        exact .inl ⟨name, expression, rfl⟩
      · exact .inr (.inl ⟨destination, expression, rfl, fun name equal => symbol ⟨name, equal⟩⟩)
  · exact .inr (.inr count)

theorem target_eq_ok {keyword : Keyword} {operands : List Value} {name : String}
    {expression : Value} (found : target keyword operands = .ok (name, expression)) :
    operands = [.symbol name, expression] := by
  rcases target_cases operands with ⟨name, expression, rfl⟩ | ⟨wrong, expression, rfl, other⟩ | count
  · cases found
    rfl
  · cases (target_of_not_symbol keyword expression other).symm.trans found
  · cases (target_of_length keyword count).symm.trans found

theorem parameterNames_map (names : List String) :
    parameterNames (names.map .symbol) = .ok names := by
  induction names with
  | nil => rfl
  | cons name rest ih =>
    simp only [List.map_cons, parameterNames, ih]
    rfl

theorem parameterNames_of_not_symbol {parameters : List Value} {wrong : Value}
    (member : wrong ∈ parameters) (other : ∀ name, wrong ≠ .symbol name) :
    parameterNames parameters = .error .parameterNotSymbol := by
  induction parameters with
  | nil => cases member
  | cons first rest ih =>
    cases first with
    | symbol name =>
      rcases List.mem_cons.mp member with rfl | member
      · exact absurd rfl (other name)
      · simp only [parameterNames, ih member]
        rfl
    | _ => rfl

/-- Parameters are symbols, or one of them is not. -/
theorem parameters_cases (parameters : List Value) :
    (∃ names : List String, parameters = names.map .symbol) ∨
      ∃ wrong ∈ parameters, ∀ name, wrong ≠ .symbol name := by
  induction parameters with
  | nil => exact .inl ⟨[], rfl⟩
  | cons first rest ih =>
    by_cases symbol : ∃ name, first = .symbol name
    · obtain ⟨name, rfl⟩ := symbol
      rcases ih with ⟨names, rfl⟩ | ⟨wrong, member, other⟩
      · exact .inl ⟨name :: names, rfl⟩
      · exact .inr ⟨wrong, List.mem_cons_of_mem _ member, other⟩
    · exact .inr ⟨first, by simp, fun name equal => symbol ⟨name, equal⟩⟩

theorem closureParts_symbols (names : List String) (body : Value) :
    closureParts [.list (names.map .symbol), body] = .ok (names, body) := by
  simp only [closureParts, parameterNames_map]
  rfl

theorem closureParts_of_not_symbol {parameters : List Value} {wrong : Value} (body : Value)
    (member : wrong ∈ parameters) (other : ∀ name, wrong ≠ .symbol name) :
    closureParts [.list parameters, body] = .error .parameterNotSymbol := by
  simp only [closureParts, parameterNames_of_not_symbol member other]
  rfl

theorem closureParts_of_not_list {parameters : Value} (body : Value)
    (other : ∀ items, parameters ≠ .list items) :
    closureParts [parameters, body] = .error .parametersNotList := by
  cases parameters with
  | list items => exact absurd rfl (other items)
  | _ => rfl

theorem closureParts_of_length {operands : List Value} (count : operands.length ≠ 2) :
    closureParts operands = .error (.operandCount .lambda operands.length) := by
  unfold closureParts
  split
  · exact absurd rfl count
  · exact absurd rfl count
  · rfl

/-- A list of symbols and a body, a list that holds something else, no list, or another number of
operands. -/
theorem closureParts_cases (operands : List Value) :
    (∃ (names : List String) (body : Value), operands = [.list (names.map .symbol), body]) ∨
      (∃ parameters body, operands = [.list parameters, body] ∧
        ∃ wrong ∈ parameters, ∀ name, wrong ≠ .symbol name) ∨
      (∃ wrong body, operands = [wrong, body] ∧ ∀ items, wrong ≠ .list items) ∨
      operands.length ≠ 2 := by
  by_cases count : operands.length = 2
  · match operands, count with
    | [parameters, body], _ =>
      by_cases list : ∃ items, parameters = .list items
      · obtain ⟨items, rfl⟩ := list
        rcases parameters_cases items with ⟨names, rfl⟩ | wrong
        · exact .inl ⟨names, body, rfl⟩
        · exact .inr (.inl ⟨items, body, rfl, wrong⟩)
      · exact .inr (.inr (.inl ⟨parameters, body, rfl, fun items equal => list ⟨items, equal⟩⟩))
  · exact .inr (.inr (.inr count))

theorem closureParts_eq_ok {operands : List Value} {parameters : List String} {body : Value}
    (found : closureParts operands = .ok (parameters, body)) :
    operands = [.list (parameters.map .symbol), body] := by
  rcases closureParts_cases operands with ⟨names, other, rfl⟩ |
    ⟨_, other, rfl, _, member, wrong⟩ | ⟨_, other, rfl, wrong⟩ | count
  · cases (closureParts_symbols names other).symm.trans found
    rfl
  · cases (closureParts_of_not_symbol other member wrong).symm.trans found
  · cases (closureParts_of_not_list other wrong).symm.trans found
  · cases (closureParts_of_length count).symm.trans found

theorem quoted_of_length {operands : List Value} (count : operands.length ≠ 1) :
    quoted operands = .list operands := by
  match operands, count with
  | [_], count => exact absurd rfl count
  | [], _ | _ :: _ :: _, _ => rfl

/-! ### Forms -/

/-- The items of a sequence are evaluated as operands are, and the last value counts. -/
theorem sequenceWith_ok {items : List Value} {last v : Value} :
    (sequenceWith f scope last items).EndsWith world (.ok v) after ↔
      ∃ vs, v = vs.getLastD last ∧ (operandsWith f scope items).EndsWith world (.ok vs) after := by
  induction items generalizing world last with
  | nil =>
    simp only [sequenceWith, operandsWith, endsWith_pure, Except.ok.injEq]
    constructor
    · rintro ⟨rfl, rfl⟩
      exact ⟨[], rfl, rfl, rfl⟩
    · rintro ⟨vs, rfl, rfl, rfl⟩
      exact ⟨rfl, rfl⟩
  | cons item rest ih =>
    simp only [sequenceWith, operandsWith, endsWith_bind_ok, ih, endsWith_pure, Except.ok.injEq]
    -- The value of the item is the last one if nothing follows it.
    constructor
    · rintro ⟨u, between, first, vs, rfl, others⟩
      exact ⟨u :: vs, by rw [List.getLastD_cons], u, between, first, vs, _, others, rfl, rfl⟩
    · rintro ⟨_, rfl, u, between, first, vs, _, others, rfl, rfl⟩
      exact ⟨u, between, first, vs, by rw [List.getLastD_cons], others⟩

theorem sequenceWith_error {items : List Value} {last : Value} {fault : Fault} :
    (sequenceWith f scope last items).EndsWith world (.error fault) after ↔
      (operandsWith f scope items).EndsWith world (.error fault) after := by
  induction items generalizing world last with
  | nil => simp [sequenceWith, operandsWith]
  | cons item rest ih =>
    simp [sequenceWith, operandsWith, endsWith_bind_error, ih]

theorem conditionalWith_of_length {operands : List Value}
    (count : operands.length ≠ 2 ∧ operands.length ≠ 3) :
    (conditionalWith f scope operands).EndsWith world
      (.error (.operandCount .conditional operands.length)) world := by
  match operands, count with
  | [_, _], count => exact absurd rfl count.1
  | [_, _, _], count => exact absurd rfl count.2
  | [], _ | [_], _ | _ :: _ :: _ :: _ :: _, _ => exact endsWith_fail.mpr ⟨rfl, rfl⟩

theorem conditionalWith_of_error {test consequent : Value} {alternatives : List Value}
    {fault : Fault} (count : alternatives.length ≤ 1)
    (tested : (f test scope).EndsWith world (.error fault) after) :
    (conditionalWith f scope (test :: consequent :: alternatives)).EndsWith world
      (.error fault) after := by
  match alternatives, count with
  | [], _ | [_], _ => exact tested.stops

theorem conditionalWith_of_true {test consequent v : Value} {alternatives : List Value}
    {between : World} {result : Except Fault Value} (count : alternatives.length ≤ 1)
    (holds : v.isTruthy = true) (tested : (f test scope).EndsWith world (.ok v) between)
    (chosen : (f consequent scope).EndsWith between result after) :
    (conditionalWith f scope (test :: consequent :: alternatives)).EndsWith world result after := by
  match alternatives, count with
  | [], _ | [_], _ =>
    refine tested.andThen ?_
    rw [holds]
    exact chosen

/-- Without a name and an expression, nothing is evaluated for a form that writes. -/
theorem formWith_of_target_error {keyword : Keyword}
    (writes : keyword = .define ∨ keyword = .assign) {operands : List Value} {fault : Fault}
    (failed : target keyword operands = .error fault) :
    (formWith f keyword operands scope).EndsWith world (.error fault) world := by
  rcases writes with rfl | rfl
  · exact endsWith_of_eq_error failed
  · exact endsWith_of_eq_error failed

/-- Nothing is written if the expression ends with a fault. -/
theorem formWith_of_expression_error {keyword : Keyword}
    (writes : keyword = .define ∨ keyword = .assign) {name : String} {expression : Value}
    {fault : Fault} (evaluated : (f expression scope).EndsWith world (.error fault) after) :
    (formWith f keyword [.symbol name, expression] scope).EndsWith world (.error fault) after := by
  rcases writes with rfl | rfl
  · exact endsWith_ofExcept_ok.mpr evaluated.stops
  · exact endsWith_ofExcept_ok.mpr evaluated.stops

theorem formWith_define {name : String} {expression v : Value}
    (evaluated : (f expression scope).EndsWith world (.ok v) after) :
    (formWith f .define [.symbol name, expression] scope).EndsWith world (.ok v)
      (after.define name v scope) := by
  refine endsWith_ofExcept_ok.mpr (evaluated.andThen ?_)
  have defined : (Run.define name v scope).EndsWith after (.ok ()) (after.define name v scope) :=
    endsWith_define.mpr ⟨rfl, rfl⟩
  exact defined.andThen (by simp [endsWith_bind])

theorem formWith_assign {name : String} {expression v : Value} {owner : ScopeId}
    (evaluated : (f expression scope).EndsWith world (.ok v) after)
    (owned : after.store.Owner name scope owner) :
    (formWith f .assign [.symbol name, expression] scope).EndsWith world (.ok v)
      (after.define name v owner) := by
  refine endsWith_ofExcept_ok.mpr (evaluated.andThen ?_)
  have assigned : (Run.assign name v scope).EndsWith after (.ok ()) (after.define name v owner) :=
    endsWith_assign.mpr (.inl ⟨owner, Store.owner?_eq_some_iff.mpr owned, rfl, rfl⟩)
  exact assigned.andThen (by simp [endsWith_bind])

theorem formWith_assign_unknown {name : String} {expression v : Value}
    (evaluated : (f expression scope).EndsWith world (.ok v) after)
    (free : ∀ owner, ¬ after.store.Owner name scope owner) :
    (formWith f .assign [.symbol name, expression] scope).EndsWith world
      (.error (.unknownSymbol name)) after := by
  refine endsWith_ofExcept_ok.mpr (evaluated.andThen ?_)
  have failed : (Run.assign name v scope).EndsWith after (.error (.unknownSymbol name)) after :=
    endsWith_assign.mpr (.inr ⟨Store.owner?_eq_none_iff.mpr free, rfl, rfl⟩)
  exact failed.stops

end Eval

end MiniLisp
