import MiniLisp.Eval

/-!
# Depth and evaluation

The depth that an evaluation is given decides whether it comes to its end and nothing else. The
argument goes through a relation between runs: one run is below another if every report of the
first is the report of the second. Running one computation after another keeps the relation, and
every rule of evaluation is built from that, so evaluating the parts of an expression with an
evaluation further up takes the whole expression further up. The last theorem turns this into the
statement on depths.
-/
namespace MiniLisp

/-- Every report of the first run is one of the second. -/
def Run.Below {α : Type} (first second : Run α) : Prop :=
  ∀ world report, first world = some report → second world = some report

namespace Run.Below

theorem refl {α : Type} (run : Run α) : Run.Below run run := fun _ _ done => done

/-- A computation goes further up when its first part and all that can follow do. -/
theorem bind {α β : Type} {first second : Run α} {next later : α → Run β}
    (below : Run.Below first second) (continued : ∀ a, Run.Below (next a) (later a)) :
    Run.Below (first >>= next) (second >>= later) := by
  intro world report done
  change Run.bind first next world = some report at done
  change Run.bind second later world = some report
  simp only [Run.bind] at done ⊢
  cases run : first world with
  | none => simp [run] at done
  | some middle =>
    rw [below world middle run]
    rw [run] at done
    -- The second run has the report of the first, and goes on from there if it has a value.
    obtain ⟨result, between, trace⟩ := middle
    cases result with
    | error fault => exact done
    | ok a =>
      simp only at done ⊢
      cases rest : next a between with
      | none => simp [rest] at done
      | some last =>
        rw [continued a between last rest]
        simpa [rest] using done

end Run.Below

/-- One evaluation answers wherever another does, and answers the same. -/
def Evaluator.Below (f g : Evaluator) : Prop := ∀ v scope, Run.Below (f v scope) (g v scope)

namespace Eval

variable {f g : Evaluator} (below : Evaluator.Below f g)

include below

theorem operandsWith_below (scope : ScopeId) (operands : List Value) :
    Run.Below (operandsWith f scope operands) (operandsWith g scope operands) := by
  induction operands with
  | nil => exact .refl _
  | cons operand rest ih => exact .bind (below _ _) fun _ => .bind ih fun _ => .refl _

theorem sequenceWith_below (scope : ScopeId) (last : Value) (items : List Value) :
    Run.Below (sequenceWith f scope last items) (sequenceWith g scope last items) := by
  induction items generalizing last with
  | nil => exact .refl _
  | cons item rest ih => exact .bind (below _ _) fun _ => ih _

theorem applyWith_below (procedure : Value) (arguments : List Value) :
    Run.Below (applyWith f procedure arguments) (applyWith g procedure arguments) := by
  cases procedure with
  | closure serial parameters body scope =>
    exact .bind (.refl _) fun _ => .bind (.refl _) fun _ => .bind (.refl _) fun _ => below _ _
  | _ => exact .refl _

theorem conditionalWith_below (scope : ScopeId) (operands : List Value) :
    Run.Below (conditionalWith f scope operands) (conditionalWith g scope operands) := by
  match operands with
  | [test, consequent] =>
    refine .bind (below _ _) fun v => ?_
    split
    · exact below _ _
    · exact .refl _
  | [test, consequent, alternative] =>
    refine .bind (below _ _) fun v => ?_
    split
    · exact below _ _
    · exact below _ _
  | [] | [_] | _ :: _ :: _ :: _ :: _ => exact .refl _

theorem formWith_below (keyword : Keyword) (operands : List Value) (scope : ScopeId) :
    Run.Below (formWith f keyword operands scope) (formWith g keyword operands scope) := by
  cases keyword with
  | conditional => exact conditionalWith_below below scope operands
  | define => exact .bind (.refl _) fun _ => .bind (below _ _) fun _ => .refl _
  | assign => exact .bind (.refl _) fun _ => .bind (below _ _) fun _ => .refl _
  | begin => exact sequenceWith_below below scope _ operands
  | _ => exact .refl _

theorem evalWith_below (v : Value) (scope : ScopeId) :
    Run.Below (evalWith f v scope) (evalWith g v scope) := by
  refine .bind (.refl _) fun _ => ?_
  split
  · exact .refl _
  · split
    · exact formWith_below below _ _ _
    · exact .bind (below _ _) fun _ => .bind (operandsWith_below below _ _) fun _ =>
        applyWith_below below _ _
  · exact .refl _

end Eval

/-- A run that comes to its end comes to the same end with every greater depth. -/
theorem eval_below {small great : Nat} (le : small ≤ great) :
    Evaluator.Below (eval small) (eval great) := by
  induction small generalizing great with
  | zero =>
    intro v scope world report done
    simp [eval, Run.cutShort] at done
  | succ small ih =>
    obtain ⟨great, rfl⟩ : ∃ n, great = n + 1 := ⟨great - 1, by omega⟩
    exact fun v scope => Eval.evalWith_below (ih (by omega)) v scope

theorem apply_below {small great : Nat} (le : small ≤ great) (procedure : Value)
    (arguments : List Value) :
    Run.Below (apply small procedure arguments) (apply great procedure arguments) :=
  Eval.applyWith_below (eval_below le) procedure arguments

end MiniLisp
