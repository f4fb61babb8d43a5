import Mathlib.Data.List.Basic
import MiniLisp.Proofs.Eval.Refinement
import MiniLisp.Proofs.Primitive.Parts

/-!
# Every call has a case

A primitive takes its arguments apart by cases, and what is left over is the case that must not be
met. That it is not met depends on three things: the arity declared for a primitive leaves only
numbers of arguments for which there is a case, examining arguments as numbers keeps how many there
are, and nothing is called before its arguments are counted. Arguments that are too few or too many
are refused without any of the primitive being carried out. It follows that no evaluation and no
application ends for want of a case.
-/
namespace MiniLisp

/-- A fault that evaluation may end with. That a text cannot be read is found out before, and the
lack of a case would be a fault of the primitive itself. -/
def Fault.IsOrdinary : Fault → Prop
  | .syntaxFault _ | .noCase _ => False
  | _ => True

namespace Primitive

variable {α : Type} {p : Primitive} {arguments : List Value}

/-- Some case of the primitive fits the arguments. -/
def HasCase (p : Primitive) (given : Except Fault α) : Prop :=
  given ≠ .error (.noCase p)

theorem hasCase_ok (a : α) : p.HasCase (.ok a) := nofun

theorem hasCase_bind {given : Except Fault α} {next : α → Except Fault Value}
    (first : p.HasCase given) (rest : ∀ a, given = .ok a → p.HasCase (next a)) :
    p.HasCase (given >>= next) := by
  cases given with
  | error fault =>
    rintro ⟨⟩
    exact first rfl
  | ok a => exact rest a rfl

theorem hasCase_items (v : Value) : p.HasCase (items v) := by
  intro failed
  cases items_eq_error failed

theorem hasCase_numbers (arguments : List Value) : p.HasCase (numbers arguments) := by
  intro failed
  cases numbers_eq_error failed

/-- There are as many numbers as arguments. -/
theorem length_numbers {xs : List Number} (found : numbers arguments = .ok xs) :
    xs.length = arguments.length := by
  induction arguments generalizing xs with
  | nil =>
    cases found
    rfl
  | cons v rest ih =>
    unfold numbers at found
    split at found
    next => cases found
    next x _ =>
      split at found
      next others read =>
        cases found
        rw [List.length_cons, List.length_cons, ih read]
      next => cases found

theorem hasCase_onTwo {operation : Number → Number → Except Fault Value}
    (count : arguments.length = 2) (rest : ∀ x y, p.HasCase (operation x y)) :
    p.HasCase (onTwo p operation arguments) := by
  refine hasCase_bind (hasCase_numbers arguments) fun xs found => ?_
  obtain ⟨x, y, rfl⟩ := List.length_eq_two.mp ((length_numbers found).trans count)
  exact rest x y

theorem hasCase_quotientOf (x y : Number) : p.HasCase (quotientOf x y) := by
  unfold quotientOf
  split <;> exact nofun

/-- The declared arity leaves only numbers of arguments for which the primitive has a case. -/
theorem hasCase_result (accepted : p.arity.accepts arguments.length = true) :
    p.HasCase (p.result arguments) := by
  cases p with
  -- Any number of arguments is taken.
  | sum | product => exact hasCase_bind (hasCase_numbers arguments) fun _ _ => hasCase_ok _
  | append =>
    refine hasCase_bind (fun failed => ?_) fun _ _ => hasCase_ok _
    cases appended_parts.2 _ failed
  | list => exact hasCase_ok _
  -- Two arguments are taken.
  | difference | greater | greaterOrEqual | less | lessOrEqual =>
    exact hasCase_onTwo (Arity.accepts_exactly.mp accepted) fun _ _ => hasCase_ok _
  | quotient => exact hasCase_onTwo (Arity.accepts_exactly.mp accepted) hasCase_quotientOf
  | equal | doubleEqual =>
    obtain ⟨a, b, rfl⟩ := List.length_eq_two.mp (Arity.accepts_exactly.mp accepted)
    exact hasCase_ok _
  | cons =>
    obtain ⟨v, tail, rfl⟩ := List.length_eq_two.mp (Arity.accepts_exactly.mp accepted)
    exact hasCase_bind (hasCase_items tail) fun _ _ => hasCase_ok _
  -- One argument is taken.
  | length | car | cdr =>
    obtain ⟨v, rfl⟩ := List.length_eq_one_iff.mp (Arity.accepts_exactly.mp accepted)
    exact hasCase_bind (hasCase_items v) fun _ _ => hasCase_ok _
  | isList | isNull | isSymbol | isNumber | isProcedure | not | display =>
    obtain ⟨v, rfl⟩ := List.length_eq_one_iff.mp (Arity.accepts_exactly.mp accepted)
    exact hasCase_ok _
  -- The code to leave with may be missing.
  | quit =>
    match arguments, accepted with
    | [], _ => exact nofun
    | [v], _ => cases v <;> exact nofun

/-- If arguments are accepted, the answer is a value or an ordinary fault. -/
theorem result_cases (accepted : p.arity.accepts arguments.length = true) :
    (∃ v, p.result arguments = .ok v) ∨
      ∃ fault, p.result arguments = .error fault ∧ fault.IsOrdinary := by
  cases answer : p.result arguments with
  | ok v => exact .inl ⟨v, rfl⟩
  | error fault =>
    refine .inr ⟨fault, rfl, ?_⟩
    cases p.raising_result arguments fault answer with
    | noCase => exact absurd answer (hasCase_result accepted)
    | typeMismatch | divisionByZero | exit => trivial

end Primitive

/-! ### Evaluation -/

mutual

theorem Evaluates.isOrdinary {world after : World} {scope : ScopeId} {v : Value}
    {result : Except Fault Value} (derived : Evaluates world scope v result after) :
    ∀ fault, result = .error fault → fault.IsOrdinary := by
  match derived with
  -- There is a value.
  | .symbol _ _ | .literal _ | .quote _ | .quoteList _ _ | .noAlternative _ _ _ | .define _ _
  | .assign _ _ _ | .lambda _ | .sequence _ _ => exact nofun
  -- The fault is raised here.
  | .unknown _ | .conditionalCount _ _ | .assignUnknown _ _ _ | .writeCount _ _ _
  | .writeTarget _ _ _ | .lambdaCount _ _ | .lambdaList _ _ | .lambdaSymbol _ _ _ =>
    rintro _ ⟨⟩
    trivial
  -- The fault, if there is one, is that of a part.
  | .consequent _ _ _ _ chosen => exact chosen.isOrdinary
  | .alternative _ _ _ chosen => exact chosen.isOrdinary
  | .testFault _ _ tested => exact tested.isOrdinary
  | .writeFault _ _ evaluated => exact evaluated.isOrdinary
  | .call _ _ _ applied => exact applied.isOrdinary
  | .headFault _ first => exact first.isOrdinary
  | .sequenceFault _ evaluated =>
    rintro _ ⟨⟩
    exact evaluated.isOrdinary _ rfl
  | .operandFault _ _ evaluated =>
    rintro _ ⟨⟩
    exact evaluated.isOrdinary _ rfl

theorem EvaluatesAll.isOrdinary {world after : World} {scope : ScopeId} {vs : List Value}
    {result : Except Fault (List Value)} (derived : EvaluatesAll world scope vs result after) :
    ∀ fault, result = .error fault → fault.IsOrdinary := by
  match derived with
  | .nil | .cons _ _ => exact nofun
  | .fault first =>
    rintro _ ⟨⟩
    exact first.isOrdinary _ rfl
  | .later _ others => exact others.isOrdinary

theorem Applies.isOrdinary {world after : World} {procedure : Value} {arguments : List Value}
    {result : Except Fault Value} (derived : Applies world procedure arguments result after) :
    ∀ fault, result = .error fault → fault.IsOrdinary := by
  match derived with
  -- This is the only place at which a primitive is carried out, and its arguments are counted.
  | .primitive accepted =>
    intro fault failed
    rcases Primitive.result_cases accepted with ⟨v, answer⟩ | ⟨other, answer, ordinary⟩
    · cases answer.symm.trans failed
    · cases answer.symm.trans failed
      exact ordinary
  | .primitiveCount _ | .closureCount _ | .notCallable _ =>
    rintro _ ⟨⟩
    trivial
  | .closure _ entered => exact entered.isOrdinary

end

/-- Nothing of a primitive is carried out, and nothing recorded, if the arguments are refused. -/
theorem apply_of_refused {p : Primitive} {arguments : List Value}
    (refused : p.arity.accepts arguments.length = false) (depth : Nat) (world : World) :
    apply depth (.primitive p) arguments world =
      some ⟨.error (.argumentCount p.name p.arity arguments.length), world, .empty⟩ := by
  simp only [apply, Eval.applyWith, Eval.callPrimitive, refused, Bool.false_eq_true, if_false,
    Run.fail]

/-- Whatever the arguments of a primitive are: if its arity accepts their number, the primitive has
a case for them and answers with a value or an ordinary fault, which is how its application ends;
and if not, the application ends with the fault that says so, with nothing shown, nothing recorded
and the world as it was. This is so in every world, and therefore wherever a primitive is called,
also in evaluations that never end. Evaluations and applications that end do so with a value or an
ordinary fault. -/
theorem accepted_arguments_have_cases :
    (∀ (p : Primitive) (arguments : List Value), p.arity.accepts arguments.length = true →
      ((∃ v, p.result arguments = .ok v) ∨
        ∃ fault, p.result arguments = .error fault ∧ fault.IsOrdinary) ∧
      ∀ depth world, (apply depth (.primitive p) arguments).EndsWith world (p.result arguments)
        (world.display (p.displayed arguments))) ∧
    (∀ (p : Primitive) (arguments : List Value), p.arity.accepts arguments.length = false →
      ∀ depth world, apply depth (.primitive p) arguments world =
        some ⟨.error (.argumentCount p.name p.arity arguments.length), world, .empty⟩) ∧
    (∀ (depth : Nat) (expression : Value) (scope : ScopeId) (world after : World) (fault : Fault),
      (eval depth expression scope).EndsWith world (.error fault) after → fault.IsOrdinary) ∧
    ∀ (depth : Nat) (procedure : Value) (arguments : List Value) (world after : World)
      (fault : Fault),
      (apply depth procedure arguments).EndsWith world (.error fault) after →
        fault.IsOrdinary := by
  refine ⟨fun p arguments accepted => ⟨Primitive.result_cases accepted, fun depth world => ?_⟩,
    fun p arguments refused => apply_of_refused refused, ?_, ?_⟩
  · exact Eval.callPrimitive_ends.mpr (.inl ⟨accepted, rfl, rfl⟩)
  · intro depth expression scope world after fault ends
    have derived := eval_sound depth expression scope world _ after ends
    exact derived.isOrdinary fault rfl
  · intro depth procedure arguments world after fault ends
    have derived := Eval.applyWith_sound (eval_sound depth) ends
    exact derived.isOrdinary fault rfl

/-- Two integers can be divided, and the fault of dividing by zero is an ordinary one; `car` without
arguments is refused. -/
theorem accepted_arguments_have_cases_quotient :
    let operands : List Value := [.integer 1, .integer 0]
    Primitive.quotient.arity.accepts operands.length = true ∧
      ((∃ v, Primitive.quotient.result operands = .ok v) ∨
        ∃ fault, Primitive.quotient.result operands = .error fault ∧ fault.IsOrdinary) ∧
      Primitive.car.arity.accepts 0 = false ∧
      apply 0 (.primitive .car) [] World.fresh =
        some ⟨.error (.argumentCount "car" (.exactly 1) 0), World.fresh, .empty⟩ ∧
      (eval 2 (.list (.primitive .quotient :: operands)) 0).EndsWith World.fresh
        (.error .divisionByZero) World.fresh ∧
      Fault.IsOrdinary .divisionByZero := by
  intro operands
  obtain ⟨accepts, refuses, evaluations, _⟩ := accepted_arguments_have_cases
  have accepted : Primitive.quotient.arity.accepts operands.length = true := rfl
  have refused : Primitive.car.arity.accepts ([] : List Value).length = false := rfl
  have ends : (eval 2 (.list (.primitive .quotient :: operands)) 0).EndsWith World.fresh
      (.error .divisionByZero) World.fresh := ⟨_, rfl⟩
  exact ⟨accepted, (accepts .quotient operands accepted).1, refused,
    refuses .car [] refused 0 World.fresh, ends, evaluations _ _ _ _ _ _ ends⟩

end MiniLisp
