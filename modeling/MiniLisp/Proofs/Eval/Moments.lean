import MiniLisp.Proofs.Eval.Propagation

/-!
# Invariants at every moment

An invariant of evaluation holds not only when an evaluation ends. It holds at every moment that
the evaluation reaches, in the body of every closure that it calls, and so also in evaluations that
never end or fail half-way.
-/
namespace MiniLisp

namespace Invariant

variable {I : Invariant} {f : Evaluator} {outer inner : Moment}

/-- The world of the moment may be met, and the expression may be evaluated in the scope. -/
structure At (I : Invariant) (moment : Moment) : Prop where
  holds : I.holds moment.world
  code : I.code moment.world moment.scope moment.expression

/-- A run that keeps the invariant and gives a value leaves a world that may be met. -/
theorem Keeps.ends {α : Type} {run : Run α} {good : World → α → Prop} {world after : World}
    {a : α} (keeps : I.Keeps run good world) (met : I.holds world)
    (ends : run.EndsWith world (.ok a) after) :
    I.holds after ∧ I.later world after ∧ good after a := by
  obtain ⟨trace, ran⟩ := ends
  have kept := keeps met _ ran
  exact ⟨kept.holds, kept.later, kept.value a rfl⟩

theorem position_at (preserved : I.Preserved f) (position : Eval.Position f outer inner)
    (good : I.At outer) : I.At inner ∧ I.later outer.world inner.world := by
  obtain ⟨met, code⟩ := good
  cases position with
  | operator operator =>
    exact ⟨⟨met, call_code code operator _ List.mem_cons_self⟩, I.later_refl _⟩
  | @operand world _ _ scope _ _ _ before _ _ operator first earlier =>
    have items := call_code code operator
    have front : ∀ v ∈ before, I.code world scope v := fun v member => items v (by simp [member])
    have head := preserved _ _ _ (items _ List.mem_cons_self)
    obtain ⟨met, change, _⟩ := head.ends met first
    have operands := operandsWith_keeps preserved (codes_later change front)
    obtain ⟨met, further, _⟩ := operands.ends met earlier
    have later := I.later_trans change further
    exact ⟨⟨met, I.code_later later (items _ (by simp))⟩, later⟩
  | test spelled count =>
    exact ⟨⟨met, operands_code code spelled (by decide) _ (by simp)⟩, I.later_refl _⟩
  | consequent spelled count tested holds =>
    have items := operands_code code spelled (by decide)
    obtain ⟨met, later, _⟩ := (preserved _ _ _ (items _ (by simp))).ends met tested
    exact ⟨⟨met, I.code_later later (items _ (by simp))⟩, later⟩
  | alternative spelled tested fails =>
    have items := operands_code code spelled (by decide)
    obtain ⟨met, later, _⟩ := (preserved _ _ _ (items _ List.mem_cons_self)).ends met tested
    exact ⟨⟨met, I.code_later later (items _ (by simp))⟩, later⟩
  | @written _ _ _ _ keyword _ spelled writes =>
    have other : keyword ≠ .lambda := by rcases writes with rfl | rfl <;> decide
    exact ⟨⟨met, operands_code code spelled other _ (by simp)⟩, I.later_refl _⟩
  | @item world _ scope _ _ _ before _ spelled earlier =>
    have items := operands_code code spelled (by decide)
    have front : ∀ v ∈ before, I.code world scope v := fun v member => items v (by simp [member])
    have sequence := sequenceWith_keeps preserved front (I.value_nil world)
    obtain ⟨met, later, _⟩ := sequence.ends met earlier
    exact ⟨⟨met, I.code_later later (items _ (by simp))⟩, later⟩
  | body operator first evaluated count =>
    have items := call_code code operator
    have head := preserved _ _ _ (items _ List.mem_cons_self)
    obtain ⟨met, change, procedure⟩ := head.ends met first
    have rest := codes_later change fun v member => items v (List.mem_cons_of_mem _ member)
    have operands := operandsWith_keeps preserved rest
    obtain ⟨met, further, given⟩ := operands.ends met evaluated
    obtain ⟨met, entered, body⟩ := I.enters met (I.value_later further procedure) given count
    exact ⟨⟨met, body⟩, I.later_trans (I.later_trans change further) entered⟩

/-- The invariant holds at every moment that an evaluation reaches. -/
theorem reaches_at (context : Relation.ReflTransGen Moment.Reaches outer inner)
    (good : I.At outer) : I.At inner ∧ I.later outer.world inner.world := by
  induction context with
  | refl => exact ⟨good, I.later_refl _⟩
  | tail _ position ih =>
    obtain ⟨depth, position⟩ := position
    obtain ⟨between, earlier⟩ := ih
    obtain ⟨last, later⟩ := position_at (I.eval_keeps depth) position between
    exact ⟨last, I.later_trans earlier later⟩

end Invariant

end MiniLisp
