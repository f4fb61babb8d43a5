import MiniLisp.Proofs.Eval.Layer

/-!
# The evaluator follows the rules

An evaluation with some depth ends in a way that the rules derive, and every way that the rules
derive is how evaluation ends with a depth that is large enough. In one direction the parts are
sound by induction on the depth; in the other they end by induction on the derivation, and the
depths that two premises need are brought together by taking the greater one.
-/
namespace MiniLisp

open Run

/-- The rules derive every end of an evaluation. -/
def Evaluator.Sound (f : Evaluator) : Prop :=
  ∀ v scope world result after,
    (f v scope).EndsWith world result after → Evaluates world scope v result after

namespace Eval

/-! ### What ends is derived -/

section

variable {f : Evaluator} (sound : f.Sound) {world after : World} {scope : ScopeId}

include sound

theorem operandsWith_sound {operands : List Value} {result : Except Fault (List Value)}
    (ends : (operandsWith f scope operands).EndsWith world result after) :
    EvaluatesAll world scope operands result after := by
  -- The first operand fails, or the others do, or all have values.
  induction operands generalizing world result with
  | nil =>
    obtain ⟨rfl, rfl⟩ := endsWith_pure.mp ends
    exact .nil
  | cons operand rest ih =>
    rcases endsWith_bind.mp ends with ⟨fault, rfl, first⟩ | ⟨v, between, first, remaining⟩
    · exact .fault (sound _ _ _ _ _ first)
    · rcases endsWith_bind.mp remaining with ⟨fault, rfl, others⟩ | ⟨vs, last, others, done⟩
      · exact .later (sound _ _ _ _ _ first) (ih others)
      · obtain ⟨rfl, rfl⟩ := endsWith_pure.mp done
        exact .cons (sound _ _ _ _ _ first) (ih others)

theorem applyWith_sound {procedure : Value} {arguments : List Value}
    {result : Except Fault Value}
    (ends : (applyWith f procedure arguments).EndsWith world result after) :
    Applies world procedure arguments result after := by
  cases procedure with
  | primitive p =>
    rcases callPrimitive_ends.mp ends with ⟨accepted, rfl, rfl⟩ | ⟨refused, rfl, rfl⟩
    · exact .primitive accepted
    · exact .primitiveCount refused
  | closure serial parameters body captured =>
    rcases applyWith_closure.mp ends with ⟨count, entered⟩ | ⟨count, rfl, rfl⟩
    · exact .closure count (sound _ _ _ _ _ entered)
    · exact .closureCount count
  | _ =>
    obtain ⟨rfl, rfl⟩ := endsWith_fail.mp ends
    exact .notCallable rfl

theorem conditionalWith_sound {word : String} (spelled : Keyword.ofName? word = some .conditional)
    {operands : List Value} {result : Except Fault Value}
    (ends : (conditionalWith f scope operands).EndsWith world result after) :
    Evaluates world scope (.list (.symbol word :: operands)) result after := by
  match operands, ends with
  | [test, consequent], ends =>
    rcases endsWith_bind.mp ends with ⟨fault, rfl, tested⟩ | ⟨v, between, tested, chosen⟩
    · exact .testFault spelled (by simp) (sound _ _ _ _ _ tested)
    · cases holds : v.isTruthy with
      | true =>
        simp only [holds, ↓reduceIte] at chosen
        exact .consequent spelled (by simp) (sound _ _ _ _ _ tested) holds
          (sound _ _ _ _ _ chosen)
      | false =>
        simp only [holds, Bool.false_eq_true, ↓reduceIte, endsWith_pure] at chosen
        obtain ⟨rfl, rfl⟩ := chosen
        exact .noAlternative spelled (sound _ _ _ _ _ tested) holds
  | [test, consequent, alternative], ends =>
    rcases endsWith_bind.mp ends with ⟨fault, rfl, tested⟩ | ⟨v, between, tested, chosen⟩
    · exact .testFault spelled (by simp) (sound _ _ _ _ _ tested)
    · cases holds : v.isTruthy with
      | true =>
        simp only [holds, ↓reduceIte] at chosen
        exact .consequent spelled (by simp) (sound _ _ _ _ _ tested) holds
          (sound _ _ _ _ _ chosen)
      | false =>
        simp only [holds, Bool.false_eq_true, ↓reduceIte] at chosen
        exact .alternative spelled (sound _ _ _ _ _ tested) holds (sound _ _ _ _ _ chosen)
  | [], ends | [_], ends | _ :: _ :: _ :: _ :: _, ends =>
    obtain ⟨rfl, rfl⟩ := endsWith_fail.mp ends
    exact .conditionalCount spelled (by simp)

/-- `define` and `assign` both evaluate one expression and then write. -/
theorem target_sound {word : String} {keyword : Keyword}
    (spelled : Keyword.ofName? word = some keyword)
    (writes : keyword = .define ∨ keyword = .assign) {operands : List Value}
    {next : String × Value → Run Value} {write : String → Value → Run Value}
    (order : ∀ name expression, next (name, expression) = f expression scope >>= write name)
    {result : Except Fault Value}
    (written : ∀ name expression v between,
      (f expression scope).EndsWith world (.ok v) between →
      (write name v).EndsWith between result after →
      Evaluates world scope (.list [.symbol word, .symbol name, expression]) result after)
    (ends : (ofExcept (target keyword operands) >>= next).EndsWith world result after) :
    Evaluates world scope (.list (.symbol word :: operands)) result after := by
  rcases target_cases operands with ⟨name, expression, rfl⟩ | ⟨wrong, expression, rfl, other⟩ | count
  · simp only [target, endsWith_ofExcept_ok, order] at ends
    rcases endsWith_bind.mp ends with ⟨fault, rfl, evaluated⟩ | ⟨v, between, evaluated, done⟩
    · exact .writeFault spelled writes (sound _ _ _ _ _ evaluated)
    · exact written name expression v between evaluated done
  · simp only [target_of_not_symbol keyword expression other, endsWith_ofExcept_error] at ends
    obtain ⟨rfl, rfl⟩ := ends
    exact .writeTarget spelled writes other
  · simp only [target_of_length keyword count, endsWith_ofExcept_error] at ends
    obtain ⟨rfl, rfl⟩ := ends
    exact .writeCount spelled writes count

theorem defineWith_sound {word : String} (spelled : Keyword.ofName? word = some .define)
    {operands : List Value} {result : Except Fault Value}
    (ends : (defineWith f scope operands).EndsWith world result after) :
    Evaluates world scope (.list (.symbol word :: operands)) result after := by
  refine target_sound sound spelled (.inl rfl) (fun _ _ => rfl)
    (fun name expression v between evaluated done => ?_) ends
  simp only [endsWith_bind, endsWith_define, endsWith_emit, endsWith_pure, reduceCtorEq,
    false_and, and_false, exists_false, false_or] at done
  obtain ⟨_, _, ⟨_, rfl⟩, _, _, ⟨_, rfl⟩, rfl, rfl⟩ := done
  exact .define spelled (sound _ _ _ _ _ evaluated)

theorem assignWith_sound {word : String} (spelled : Keyword.ofName? word = some .assign)
    {operands : List Value} {result : Except Fault Value}
    (ends : (assignWith f scope operands).EndsWith world result after) :
    Evaluates world scope (.list (.symbol word :: operands)) result after := by
  refine target_sound sound spelled (.inr rfl) (fun _ _ => rfl)
    (fun name expression v between evaluated done => ?_) ends
  have evaluated := sound _ _ _ _ _ evaluated
  rcases endsWith_bind.mp done with ⟨fault, rfl, assigned⟩ | ⟨_, _, assigned, done⟩
  · rcases endsWith_assign.mp assigned with ⟨_, _, impossible, _⟩ | ⟨free, failed, rfl⟩
    · cases impossible
    · cases failed
      exact .assignUnknown spelled evaluated (Store.owner?_eq_none_iff.mp free)
  -- The owner is looked for in the world that the expression has left.
  · rcases endsWith_assign.mp assigned with ⟨owner, owned, _, rfl⟩ | ⟨_, impossible, _⟩
    · simp only [endsWith_bind, endsWith_emit, endsWith_pure, reduceCtorEq, false_and, and_false,
        exists_false, false_or] at done
      obtain ⟨_, _, ⟨_, rfl⟩, rfl, rfl⟩ := done
      exact .assign spelled evaluated (Store.owner?_eq_some_iff.mp owned)
    · cases impossible

omit sound in
theorem close_sound {word : String} (spelled : Keyword.ofName? word = some .lambda)
    {operands : List Value} {result : Except Fault Value}
    (ends : (Eval.close scope operands).EndsWith world result after) :
    Evaluates world scope (.list (.symbol word :: operands)) result after := by
  unfold Eval.close at ends
  rcases closureParts_cases operands with ⟨names, body, rfl⟩ |
    ⟨parameters, body, rfl, wrong, member, other⟩ | ⟨wrong, body, rfl, other⟩ | count
  · simp only [closureParts_symbols, endsWith_ofExcept_ok, endsWith_close] at ends
    obtain ⟨rfl, rfl⟩ := ends
    exact .lambda spelled
  · simp only [closureParts_of_not_symbol body member other, endsWith_ofExcept_error] at ends
    obtain ⟨rfl, rfl⟩ := ends
    exact .lambdaSymbol spelled member other
  · simp only [closureParts_of_not_list body other, endsWith_ofExcept_error] at ends
    obtain ⟨rfl, rfl⟩ := ends
    exact .lambdaList spelled other
  · simp only [closureParts_of_length count, endsWith_ofExcept_error] at ends
    obtain ⟨rfl, rfl⟩ := ends
    exact .lambdaCount spelled count

theorem formWith_sound {word : String} {keyword : Keyword}
    (spelled : Keyword.ofName? word = some keyword) {operands : List Value}
    {result : Except Fault Value}
    (ends : (formWith f keyword operands scope).EndsWith world result after) :
    Evaluates world scope (.list (.symbol word :: operands)) result after := by
  cases keyword with
  | quote =>
    obtain ⟨rfl, rfl⟩ := endsWith_pure.mp ends
    match operands with
    | [operand] => exact .quote spelled
    | [] | _ :: _ :: _ => exact .quoteList spelled (by simp)
  | conditional => exact conditionalWith_sound sound spelled ends
  | assign => exact assignWith_sound sound spelled ends
  | define => exact defineWith_sound sound spelled ends
  | lambda => exact close_sound spelled ends
  | begin =>
    -- Items are evaluated as operands are; only the value is another one.
    cases result with
    | ok v =>
      obtain ⟨vs, rfl, evaluated⟩ := sequenceWith_ok.mp ends
      exact .sequence spelled (operandsWith_sound sound evaluated)
    | error fault =>
      exact .sequenceFault spelled (operandsWith_sound sound (sequenceWith_error.mp ends))

end

/-- One more layer of evaluation is sound if the evaluation of the parts is. -/
theorem evalWith_sound {f : Evaluator} (sound : f.Sound) :
    Evaluator.Sound (evalWith f) := by
  intro v scope world result after ends
  by_cases literal : v.IsLiteral
  · obtain ⟨rfl, rfl⟩ := (evalWith_literal literal).mp ends
    exact .literal literal
  match v, literal with
  | .symbol name, _ =>
    rcases endsWith_fetch.mp (evalWith_symbol.mp ends) with
      ⟨rfl, ⟨v, found, rfl⟩ | ⟨unbound, rfl⟩⟩
    · obtain ⟨owner, owned, bound⟩ := Store.get?_eq_some_iff.mp found
      exact .symbol owned bound
    · exact .unknown (Store.get?_eq_none_iff.mp unbound)
  | .list (head :: operands), _ =>
    by_cases operator : head.IsOperator
    · have ends := (evalWith_operator operator).mp ends
      rcases endsWith_bind.mp ends with ⟨fault, rfl, first⟩ | ⟨procedure, between, first, rest⟩
      · exact .headFault operator (sound _ _ _ _ _ first)
      · have first := sound _ _ _ _ _ first
        rcases endsWith_bind.mp rest with ⟨fault, rfl, evaluated⟩ | ⟨vs, before, evaluated, rest⟩
        · exact .operandFault operator first (operandsWith_sound sound evaluated)
        · exact .call operator first (operandsWith_sound sound evaluated)
            (applyWith_sound sound rest)
    · -- A head that is no operator spells a keyword, so the list is a form.
      obtain ⟨keyword, found⟩ := Option.ne_none_iff_exists'.mp (mt isOperator_iff.mpr operator)
      obtain ⟨word, rfl, spelled⟩ := keyword?_eq_some found
      exact formWith_sound sound spelled ((evalWith_keyword spelled).mp ends)
  | .list [], literal | .nil, literal | .boolean _, literal | .integer _, literal
  | .float _, literal | .primitive _, literal | .closure _ _ _ _, literal =>
    exact absurd (by simp [Value.IsLiteral]) literal

end Eval

/-- What ends with some depth is derived by the rules. -/
theorem eval_sound (depth : Nat) : Evaluator.Sound (eval depth) := by
  induction depth with
  | zero =>
    -- Without depth nothing ends.
    intro v scope world result after ends
    exact absurd ends not_endsWith_cutShort
  | succ depth ih => exact Eval.evalWith_sound ih

/-! ### What is derived ends -/

section

variable {world after : World} {scope : ScopeId} {small great : Nat}

theorem eval_deeper (le : small ≤ great) {v : Value} {result : Except Fault Value}
    (ends : (eval small v scope).EndsWith world result after) :
    (eval great v scope).EndsWith world result after :=
  (eval_below le v scope).endsWith ends

theorem operandsWith_deeper (le : small ≤ great) {operands : List Value}
    {result : Except Fault (List Value)}
    (ends : (Eval.operandsWith (eval small) scope operands).EndsWith world result after) :
    (Eval.operandsWith (eval great) scope operands).EndsWith world result after :=
  (Eval.operandsWith_below (eval_below le) scope operands).endsWith ends

/-- A form that the next layer evaluates to an end. -/
theorem ends_of_formWith (depth : Nat) {word : String} {keyword : Keyword}
    {operands : List Value} {result : Except Fault Value}
    (spelled : Keyword.ofName? word = some keyword)
    (ends : (Eval.formWith (eval depth) keyword operands scope).EndsWith world result after) :
    ∃ depth, (eval depth (.list (.symbol word :: operands)) scope).EndsWith world result after :=
  ⟨depth + 1, (Eval.evalWith_keyword spelled).mpr ends⟩

end

mutual

theorem ends_of_evaluates {world after : World} {scope : ScopeId} {v : Value}
    {result : Except Fault Value} (derived : Evaluates world scope v result after) :
    ∃ depth, (eval depth v scope).EndsWith world result after := by
  -- By recursion on the derivation: each premise ends with a depth of its own, and the greatest of
  -- them is enough for all.
  match derived with
  | .symbol owned bound =>
    refine ⟨1, Eval.evalWith_symbol.mpr (endsWith_fetch.mpr ⟨rfl, .inl ⟨_, ?_, rfl⟩⟩)⟩
    exact Store.get?_eq_some_iff.mpr ⟨_, owned, bound⟩
  | .unknown free =>
    refine ⟨1, Eval.evalWith_symbol.mpr (endsWith_fetch.mpr ⟨rfl, .inr ⟨?_, rfl⟩⟩)⟩
    exact Store.get?_eq_none_iff.mpr free
  | .literal is => exact ⟨1, (Eval.evalWith_literal is).mpr ⟨rfl, rfl⟩⟩
  | .quote spelled => exact ends_of_formWith 0 spelled (endsWith_pure.mpr ⟨rfl, rfl⟩)
  | .quoteList spelled count =>
    exact ends_of_formWith 0 spelled (endsWith_pure.mpr ⟨by rw [Eval.quoted_of_length count], rfl⟩)
  | .consequent spelled count tested holds chosen =>
    obtain ⟨m, tested⟩ := ends_of_evaluates tested
    obtain ⟨n, chosen⟩ := ends_of_evaluates chosen
    have tested := eval_deeper (Nat.le_max_left m n) tested
    have chosen := eval_deeper (Nat.le_max_right m n) chosen
    exact ends_of_formWith (max m n) spelled
      (Eval.conditionalWith_of_true count holds tested chosen)
  | .alternative spelled tested fails chosen =>
    obtain ⟨m, tested⟩ := ends_of_evaluates tested
    obtain ⟨n, chosen⟩ := ends_of_evaluates chosen
    have tested := eval_deeper (Nat.le_max_left m n) tested
    refine ends_of_formWith (max m n) spelled (tested.andThen ?_)
    rw [fails]
    exact eval_deeper (Nat.le_max_right m n) chosen
  | .noAlternative spelled tested fails =>
    obtain ⟨depth, tested⟩ := ends_of_evaluates tested
    refine ends_of_formWith depth spelled (tested.andThen ?_)
    rw [fails]
    exact endsWith_pure.mpr ⟨rfl, rfl⟩
  | .testFault spelled count tested =>
    obtain ⟨depth, tested⟩ := ends_of_evaluates tested
    exact ends_of_formWith depth spelled (Eval.conditionalWith_of_error count tested)
  | .conditionalCount spelled count =>
    exact ends_of_formWith 0 spelled (Eval.conditionalWith_of_length count)
  | .define spelled evaluated =>
    obtain ⟨depth, evaluated⟩ := ends_of_evaluates evaluated
    exact ends_of_formWith depth spelled (Eval.formWith_define evaluated)
  | .assign spelled evaluated owned =>
    obtain ⟨depth, evaluated⟩ := ends_of_evaluates evaluated
    exact ends_of_formWith depth spelled (Eval.formWith_assign evaluated owned)
  | .assignUnknown spelled evaluated free =>
    obtain ⟨depth, evaluated⟩ := ends_of_evaluates evaluated
    exact ends_of_formWith depth spelled (Eval.formWith_assign_unknown evaluated free)
  | .writeFault spelled writes evaluated =>
    obtain ⟨depth, evaluated⟩ := ends_of_evaluates evaluated
    exact ends_of_formWith depth spelled (Eval.formWith_of_expression_error writes evaluated)
  | .writeCount spelled writes count =>
    exact ends_of_formWith 0 spelled
      (Eval.formWith_of_target_error writes (Eval.target_of_length _ count))
  | .writeTarget spelled writes wrong =>
    exact ends_of_formWith 0 spelled
      (Eval.formWith_of_target_error writes (Eval.target_of_not_symbol _ _ wrong))
  | .lambda spelled =>
    refine ends_of_formWith 0 spelled ?_
    simp [Eval.formWith, Eval.close, Eval.closureParts_symbols, endsWith_ofExcept_ok,
      World.withClosure]
  | .lambdaCount spelled count =>
    exact ends_of_formWith 0 spelled (endsWith_of_eq_error (Eval.closureParts_of_length count))
  | .lambdaList spelled wrong =>
    exact ends_of_formWith 0 spelled (endsWith_of_eq_error (Eval.closureParts_of_not_list _ wrong))
  | .lambdaSymbol spelled member other =>
    exact ends_of_formWith 0 spelled
      (endsWith_of_eq_error (Eval.closureParts_of_not_symbol _ member other))
  | .sequence spelled evaluated =>
    obtain ⟨depth, evaluated⟩ := ends_of_evaluatesAll evaluated
    exact ends_of_formWith depth spelled (Eval.sequenceWith_ok.mpr ⟨_, rfl, evaluated⟩)
  | .sequenceFault spelled evaluated =>
    obtain ⟨depth, evaluated⟩ := ends_of_evaluatesAll evaluated
    exact ends_of_formWith depth spelled (Eval.sequenceWith_error.mpr evaluated)
  | .call operator first evaluated applied =>
    obtain ⟨l, first⟩ := ends_of_evaluates first
    obtain ⟨m, evaluated⟩ := ends_of_evaluatesAll evaluated
    obtain ⟨n, applied⟩ := ends_of_applies applied
    have first := eval_deeper (show l ≤ max l (max m n) by omega) first
    have evaluated := operandsWith_deeper (show m ≤ max l (max m n) by omega) evaluated
    have applied := (apply_below (show n ≤ max l (max m n) by omega) _ _).endsWith applied
    exact ⟨max l (max m n) + 1, Eval.evalWith_call operator first evaluated applied⟩
  | .headFault operator first =>
    obtain ⟨depth, first⟩ := ends_of_evaluates first
    exact ⟨depth + 1, (Eval.evalWith_operator operator).mpr first.stops⟩
  | .operandFault operator first evaluated =>
    obtain ⟨m, first⟩ := ends_of_evaluates first
    obtain ⟨n, evaluated⟩ := ends_of_evaluatesAll evaluated
    have first := eval_deeper (Nat.le_max_left m n) first
    have failed := operandsWith_deeper (Nat.le_max_right m n) evaluated
    exact ⟨max m n + 1, (Eval.evalWith_operator operator).mpr (first.andThen failed.stops)⟩

theorem ends_of_evaluatesAll {world after : World} {scope : ScopeId} {vs : List Value}
    {result : Except Fault (List Value)} (derived : EvaluatesAll world scope vs result after) :
    ∃ depth, (Eval.operandsWith (eval depth) scope vs).EndsWith world result after := by
  match derived with
  | .nil => exact ⟨0, endsWith_pure.mpr ⟨rfl, rfl⟩⟩
  | .cons first others =>
    obtain ⟨m, first⟩ := ends_of_evaluates first
    obtain ⟨n, others⟩ := ends_of_evaluatesAll others
    have first := eval_deeper (Nat.le_max_left m n) first
    have others := operandsWith_deeper (Nat.le_max_right m n) others
    exact ⟨max m n, first.andThen (others.andThen (endsWith_pure.mpr ⟨rfl, rfl⟩))⟩
  | .fault first =>
    obtain ⟨depth, first⟩ := ends_of_evaluates first
    exact ⟨depth, first.stops⟩
  | .later first others =>
    obtain ⟨m, first⟩ := ends_of_evaluates first
    obtain ⟨n, others⟩ := ends_of_evaluatesAll others
    have first := eval_deeper (Nat.le_max_left m n) first
    have failed := operandsWith_deeper (Nat.le_max_right m n) others
    exact ⟨max m n, first.andThen failed.stops⟩

theorem ends_of_applies {world after : World} {procedure : Value} {arguments : List Value}
    {result : Except Fault Value} (derived : Applies world procedure arguments result after) :
    ∃ depth, (apply depth procedure arguments).EndsWith world result after := by
  match derived with
  | .primitive accepted => exact ⟨0, Eval.callPrimitive_ends.mpr (.inl ⟨accepted, rfl, rfl⟩)⟩
  | .primitiveCount refused => exact ⟨0, Eval.callPrimitive_ends.mpr (.inr ⟨refused, rfl, rfl⟩)⟩
  | .closure count entered =>
    obtain ⟨depth, entered⟩ := ends_of_evaluates entered
    exact ⟨depth, Eval.applyWith_closure.mpr (.inl ⟨count, entered⟩)⟩
  | .closureCount count => exact ⟨0, Eval.applyWith_closure.mpr (.inr ⟨count, rfl, rfl⟩)⟩
  | .notCallable other => exact ⟨0, Eval.applyWith_of_not_procedure other⟩

end

/-- Evaluation is the language of the rules: from any world and in any scope, evaluating a value
ends with a result, which may be a fault, and leaves a world, given enough depth, if and only if
the rules derive that; and so does applying a value to arguments. -/
theorem ends_iff_derived :
    (∀ (v : Value) (scope : ScopeId) (world after : World) (result : Except Fault Value),
      (∃ depth, (eval depth v scope).EndsWith world result after) ↔
        Evaluates world scope v result after) ∧
    ∀ (procedure : Value) (arguments : List Value) (world after : World)
      (result : Except Fault Value),
      (∃ depth, (apply depth procedure arguments).EndsWith world result after) ↔
        Applies world procedure arguments result after := by
  constructor
  · intro v scope world after result
    constructor
    · rintro ⟨depth, ends⟩
      exact eval_sound depth v scope world result after ends
    · exact ends_of_evaluates
  · intro procedure arguments world after result
    constructor
    · rintro ⟨depth, ends⟩
      exact Eval.applyWith_sound (eval_sound depth) ends
    · exact ends_of_applies

end MiniLisp
