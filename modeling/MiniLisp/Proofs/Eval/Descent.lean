import MiniLisp.Proofs.Eval.Moments

/-!
# Where evaluation is cut short

No rule of evaluation goes on forever. Where evaluation has no report, it has come to a position at
which the evaluation of a part has none, or that of the body of a closure. Parts are less high than
what they are parts of, and only bodies can be as high as they like. So evaluation ends wherever an
invariant keeps closures away, and nests no deeper than the value that is evaluated is high.
-/
namespace MiniLisp

namespace Run

variable {α β : Type} {run : Run α} {world : World}

theorem EndsWith.ne_none {result : Except Fault α} {after : World}
    (ends : run.EndsWith world result after) : run world ≠ none := by
  obtain ⟨trace, done⟩ := ends
  simp [done]

theorem exists_endsWith (done : run world ≠ none) :
    ∃ result after, run.EndsWith world result after := by
  obtain ⟨⟨result, after, trace⟩, ran⟩ := Option.ne_none_iff_exists'.mp done
  exact ⟨result, after, trace, ran⟩

/-- A run is cut short if another one is that ends wherever it does. -/
theorem eq_none_of_ends {other : Run α} {start : World}
    (ends : ∀ {result : Except Fault α} {after : World},
      run.EndsWith world result after → other.EndsWith start result after)
    (cut : other start = none) : run world = none := by
  refine Classical.byContradiction fun done => ?_
  obtain ⟨result, after, done⟩ := exists_endsWith done
  exact (ends done).ne_none cut

/-- A composed run is cut short in its first part, or in what follows the value of that. -/
theorem bind_eq_none {first : Run α} {next : α → Run β} (cut : (first >>= next) world = none) :
    first world = none ∨
      ∃ a between, first.EndsWith world (.ok a) between ∧ next a between = none := by
  refine (Classical.em (first world = none)).imp_right fun done => ?_
  obtain ⟨result, between, ends⟩ := exists_endsWith done
  cases result with
  | error fault => exact absurd cut ends.stops.ne_none
  | ok a => exact ⟨a, between, ends, eq_none_of_ends ends.andThen cut⟩

end Run

/-- The evaluation that begins at the moment is cut short. -/
def Moment.IsCut (f : Evaluator) (moment : Moment) : Prop :=
  f moment.expression moment.scope moment.world = none

namespace Eval

open Run

variable {f : Evaluator} {world : World} {scope : ScopeId}

/-! ### Rules -/

theorem operandsWith_cut {operands : List Value}
    (cut : operandsWith f scope operands world = none) :
    ∃ before operand later vs reached, operands = before ++ operand :: later ∧
      (operandsWith f scope before).EndsWith world (.ok vs) reached ∧
      Moment.IsCut f ⟨reached, scope, operand⟩ := by
  induction operands generalizing world with
  | nil => cases cut
  | cons operand rest ih =>
    rcases bind_eq_none cut with here | ⟨v, between, first, cut⟩
    · exact ⟨[], operand, rest, [], world, rfl, endsWith_pure.mpr ⟨rfl, rfl⟩, here⟩
    · rcases bind_eq_none cut with cut | ⟨_, _, _, none⟩
      · obtain ⟨before, other, later, vs, reached, rfl, ends, there⟩ := ih cut
        refine ⟨operand :: before, other, later, v :: vs, reached, rfl, ?_, there⟩
        exact first.andThen (ends.andThen (endsWith_pure.mpr ⟨rfl, rfl⟩))
      · cases none

theorem sequenceWith_cut {items : List Value} {last : Value}
    (cut : sequenceWith f scope last items world = none) :
    ∃ before item later v reached, items = before ++ item :: later ∧
      (sequenceWith f scope last before).EndsWith world (.ok v) reached ∧
      Moment.IsCut f ⟨reached, scope, item⟩ := by
  induction items generalizing world last with
  | nil => cases cut
  | cons item rest ih =>
    rcases bind_eq_none cut with here | ⟨v, between, first, cut⟩
    · exact ⟨[], item, rest, last, world, rfl, endsWith_pure.mpr ⟨rfl, rfl⟩, here⟩
    · obtain ⟨before, other, later, w, reached, rfl, ends, there⟩ := ih cut
      exact ⟨item :: before, other, later, w, reached, rfl, first.andThen ends, there⟩

/-- The test is cut short, or the branch that its value selects. -/
theorem conditionalWith_cut {word : String} {operands : List Value}
    (spelled : Keyword.ofName? word = some .conditional)
    (cut : conditionalWith f scope operands world = none) :
    ∃ inner, Position f ⟨world, scope, .list (.symbol word :: operands)⟩ inner ∧
      inner.IsCut f := by
  match operands, cut with
  | [test, consequent], cut =>
    rcases bind_eq_none cut with here | ⟨v, between, tested, cut⟩
    · exact ⟨_, .test spelled (Nat.zero_le 1), here⟩
    · cases holds : v.isTruthy with
      | true =>
        rw [holds] at cut
        exact ⟨_, .consequent spelled (Nat.zero_le 1) tested holds, cut⟩
      | false =>
        rw [holds] at cut
        cases cut
  | [test, consequent, alternative], cut =>
    rcases bind_eq_none cut with here | ⟨v, between, tested, cut⟩
    · exact ⟨_, .test spelled (Nat.le_refl 1), here⟩
    · cases holds : v.isTruthy with
      | true =>
        rw [holds] at cut
        exact ⟨_, .consequent spelled (Nat.le_refl 1) tested holds, cut⟩
      | false =>
        rw [holds] at cut
        exact ⟨_, .alternative spelled tested holds, cut⟩

/-- What a form that writes does besides evaluating its expression is not cut short. -/
theorem formWith_written_cut {word : String} {keyword : Keyword} {operands : List Value}
    (spelled : Keyword.ofName? word = some keyword)
    (writes : keyword = .define ∨ keyword = .assign)
    (cut : formWith f keyword operands scope world = none) :
    ∃ inner, Position f ⟨world, scope, .list (.symbol word :: operands)⟩ inner ∧
      inner.IsCut f := by
  cases parts : target keyword operands with
  | error fault => exact absurd cut (formWith_of_target_error writes parts).ne_none
  | ok pair =>
    obtain ⟨name, expression⟩ := pair
    obtain rfl := target_eq_ok parts
    refine ⟨_, .written spelled writes, Classical.byContradiction fun done => ?_⟩
    obtain ⟨result, after, ends⟩ := exists_endsWith done
    cases result with
    | error fault => exact (formWith_of_expression_error writes ends).ne_none cut
    | ok v =>
      rcases writes with rfl | rfl
      · exact (formWith_define ends).ne_none cut
      · cases found : after.store.owner? name scope with
        | some owner =>
          exact (formWith_assign ends (Store.owner_of_owner? found)).ne_none cut
        | none =>
          exact (formWith_assign_unknown ends (Store.owner?_eq_none_iff.mp found)).ne_none cut

theorem formWith_cut {word : String} {keyword : Keyword} {operands : List Value}
    (spelled : Keyword.ofName? word = some keyword)
    (cut : formWith f keyword operands scope world = none) :
    ∃ inner, Position f ⟨world, scope, .list (.symbol word :: operands)⟩ inner ∧
      inner.IsCut f := by
  cases keyword with
  | quote => cases cut
  | conditional => exact conditionalWith_cut spelled cut
  | assign => exact formWith_written_cut spelled (.inr rfl) cut
  | define => exact formWith_written_cut spelled (.inl rfl) cut
  | lambda =>
    rcases bind_eq_none cut with none | ⟨_, _, _, none⟩
    · exact absurd none (endsWith_ofExcept.mpr ⟨rfl, rfl⟩).ne_none
    · cases none
  | begin =>
    obtain ⟨before, item, later, v, reached, rfl, ends, there⟩ := sequenceWith_cut cut
    exact ⟨_, .item spelled ends, there⟩

/-- Counting arguments and calling a primitive is done at once. -/
theorem applyWith_cut {procedure : Value} {arguments : List Value}
    (cut : applyWith f procedure arguments world = none) :
    ∃ serial parameters body captured, procedure = .closure serial parameters body captured ∧
      arguments.length = parameters.length ∧
      Moment.IsCut f ⟨world.enter parameters arguments captured, world.nextScope, body⟩ := by
  cases procedure with
  | primitive p =>
    cases accepted : p.arity.accepts arguments.length with
    | true => exact absurd cut (callPrimitive_ends.mpr (.inl ⟨accepted, rfl, rfl⟩)).ne_none
    | false => exact absurd cut (callPrimitive_ends.mpr (.inr ⟨accepted, rfl, rfl⟩)).ne_none
  | closure serial parameters body captured =>
    by_cases count : arguments.length = parameters.length
    · refine ⟨serial, parameters, body, captured, rfl, count, ?_⟩
      exact eq_none_of_ends (fun ends => applyWith_closure.mpr (.inl ⟨count, ends⟩)) cut
    · exact absurd cut (applyWith_closure.mpr (.inr ⟨count, rfl, rfl⟩)).ne_none
  | _ => cases cut

/-- Where evaluation is cut short it is so at a position that it has come to. -/
theorem exists_position_of_isCut {outer : Moment} (cut : outer.IsCut (evalWith f)) :
    ∃ inner, Position f outer inner ∧ inner.IsCut f := by
  obtain ⟨world, scope, expression⟩ := outer
  by_cases literal : expression.IsLiteral
  · exact absurd cut ((evalWith_literal literal).mpr ⟨rfl, rfl⟩).ne_none
  cases expression with
  | symbol name =>
    cases found : world.store.get? name scope with
    | some v =>
      have ends := endsWith_fetch.mpr ⟨rfl, .inl ⟨v, found, rfl⟩⟩
      exact absurd cut (evalWith_symbol.mpr ends).ne_none
    | none =>
      have ends := endsWith_fetch.mpr ⟨rfl, .inr ⟨found, rfl⟩⟩
      exact absurd cut (evalWith_symbol.mpr ends).ne_none
  | list items =>
    cases items with
    | nil => exact absurd ⟨nofun, nofun⟩ literal
    | cons head operands =>
      cases kind : keyword? head with
      | some keyword =>
        obtain ⟨word, rfl, spelled⟩ := keyword?_eq_some kind
        exact formWith_cut spelled (eq_none_of_ends (evalWith_keyword spelled).mpr cut)
      | none =>
        have operator := isOperator_iff.mpr kind
        rcases bind_eq_none (eq_none_of_ends (evalWith_operator operator).mpr cut) with
          here | ⟨procedure, before, first, rest⟩
        · exact ⟨_, .operator operator, here⟩
        rcases bind_eq_none rest with rest | ⟨arguments, reached, evaluated, applied⟩
        · obtain ⟨_, operand, _, vs, reached, rfl, ends, there⟩ := operandsWith_cut rest
          exact ⟨_, .operand operator first ends, there⟩
        · obtain ⟨serial, parameters, body, captured, rfl, count, there⟩ := applyWith_cut applied
          exact ⟨_, .body operator first evaluated count, there⟩
  | _ => exact absurd ⟨nofun, nofun⟩ literal

end Eval

/-! ### Heights -/

namespace Value

mutual

/-- The number of levels of a value. A list has one more than the highest of its items, and anything
else has one. -/
def height : Value → Nat
  | .list items => heights items + 1
  | _ => 1

/-- The number of levels of the highest of some values. -/
def heights : List Value → Nat
  | [] => 0
  | item :: rest => max (height item) (heights rest)

end

theorem height_pos (v : Value) : 0 < v.height := by
  cases v <;> simp [height]

theorem height_le_heights {item : Value} {items : List Value} (member : item ∈ items) :
    item.height ≤ heights items := by
  induction items with
  | nil => cases member
  | cons first rest ih =>
    rw [heights]
    rcases List.mem_cons.mp member with rfl | later
    · exact Nat.le_max_left _ _
    · exact Nat.le_trans (ih later) (Nat.le_max_right _ _)

theorem height_lt_list {item : Value} {items : List Value} (member : item ∈ items) :
    item.height < (Value.list items).height :=
  Nat.lt_succ_of_le (height_le_heights member)

end Value

/-- A position is less high than what it is a position in, or it is the body of a closure that the
head of a call has evaluated to. -/
theorem Eval.Position.descends {f : Evaluator} {outer inner : Moment}
    (position : Eval.Position f outer inner) :
    inner.expression.height < outer.expression.height ∨
      ∃ head operands serial parameters body captured between, head.IsOperator ∧
        outer.expression = .list (head :: operands) ∧
        (f head outer.scope).EndsWith outer.world (.ok (.closure serial parameters body captured))
          between := by
  cases position with
  | body operator first _ _ => exact .inr ⟨_, _, _, _, _, _, _, operator, rfl, first⟩
  | _ => exact .inl (Value.height_lt_list (by simp))

/-- Where no value is a closure, evaluation ends with any depth that is not less than the height of
what is evaluated. -/
theorem Invariant.exists_ends {I : Invariant}
    (none : ∀ world serial parameters body captured,
      ¬ I.value world (.closure serial parameters body captured))
    {depth : Nat} {moment : Moment} (good : I.At moment)
    (enough : moment.expression.height ≤ depth) :
    ∃ result after,
      (eval depth moment.expression moment.scope).EndsWith moment.world result after := by
  induction depth generalizing moment with
  | zero => exact absurd enough (Nat.not_le_of_lt (Value.height_pos _))
  | succ depth ih =>
    refine Run.exists_endsWith fun cut => ?_
    obtain ⟨inner, position, there⟩ := Eval.exists_position_of_isCut cut
    have preserved := I.eval_keeps depth
    rcases position.descends with lower | ⟨head, operands, serial, parameters, body, captured,
      between, operator, whole, first⟩
    · have less : inner.expression.height ≤ depth :=
        Nat.le_of_lt_succ (Nat.lt_of_lt_of_le lower enough)
      obtain ⟨result, after, ends⟩ := ih (I.position_at preserved position good).1 less
      exact ends.ne_none there
    · have code := call_code (whole ▸ good.code) operator head List.mem_cons_self
      exact none _ _ _ _ _ ((preserved _ _ _ code).ends good.holds first).2.2

end MiniLisp
