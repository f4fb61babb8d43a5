import MiniLisp.Proofs.Eval.Layer

/-!
# Calls of quoted data

A quotation is its operand and does nothing to the world, whatever the operand looks like. So a call
whose operands are all quotations comes to its application with just the quoted values, in the world
in which it began. It ends as the application does, and the scope in which it stands plays no part,
except for a head that is looked up there.
-/
namespace MiniLisp

open Run

/-- The quotation of one value. -/
def Value.quotation (word : String) (v : Value) : Value := .list [.symbol word, v]

namespace Eval

variable {word : String} (spelled : Keyword.ofName? word = some .quote) (depth : Nat)
  (scope : ScopeId) (world : World)

include spelled

theorem quotation_ends (v : Value) :
    (eval (depth + 1) (v.quotation word) scope).EndsWith world (.ok v) world :=
  (evalWith_keyword spelled).mpr (endsWith_pure.mpr ⟨rfl, rfl⟩)

theorem quotations_end (vs : List Value) :
    (operandsWith (eval (depth + 1)) scope (vs.map (Value.quotation word))).EndsWith world (.ok vs)
      world := by
  induction vs with
  | nil => exact endsWith_pure.mpr ⟨rfl, rfl⟩
  | cons v rest ih =>
    have first := quotation_ends spelled depth scope world v
    exact first.andThen (ih.andThen (endsWith_pure.mpr ⟨rfl, rfl⟩))

/-- A call of quotations whose head has a value and does nothing else ends as the application of
that value. -/
theorem call_of_quotations_iff {head procedure : Value} (operator : head.IsOperator)
    (first : (eval (depth + 1) head scope).EndsWith world (.ok procedure) world)
    (arguments : List Value) {result : Except Fault Value} {after : World} :
    (eval (depth + 2) (.list (head :: arguments.map (Value.quotation word))) scope).EndsWith world
        result after ↔
      (apply (depth + 1) procedure arguments).EndsWith world result after :=
  evalWith_call_iff operator first (quotations_end spelled depth scope world arguments)

end Eval

/-- To call a quoted value with quoted arguments is to apply it to them: in every world and scope,
the one ends with a result and leaves a world, with one level of depth more, if and only if the
other does. This holds of any value, whether it can be applied or not, and of any arguments, also of
those that would be forms or calls if they were evaluated. It holds as well of a head that is a
symbol, no keyword, and resolves to the value. -/
theorem quoted_calls_apply {word : String} (spelled : Keyword.ofName? word = some .quote)
    (procedure : Value) (arguments : List Value) (scope : ScopeId) (world after : World)
    (result : Except Fault Value) (depth : Nat) :
    let operands := arguments.map (Value.quotation word)
    ((eval (depth + 2) (.list (procedure.quotation word :: operands)) scope).EndsWith world result
        after ↔
      (apply (depth + 1) procedure arguments).EndsWith world result after) ∧
    ∀ name, Keyword.ofName? name = none → world.store.get? name scope = some procedure →
      ((eval (depth + 2) (.list (.symbol name :: operands)) scope).EndsWith world result after ↔
        (apply (depth + 1) procedure arguments).EndsWith world result after) := by
  intro operands
  constructor
  · have operator : (procedure.quotation word).IsOperator := by rintro _ ⟨⟩
    have head := Eval.quotation_ends spelled depth scope world procedure
    exact Eval.call_of_quotations_iff spelled depth scope world operator head arguments
  · intro name free found
    have operator : (Value.symbol name).IsOperator := Eval.isOperator_iff.mpr free
    have head : (eval (depth + 1) (.symbol name) scope).EndsWith world (.ok procedure) world :=
      Eval.evalWith_symbol.mpr (endsWith_fetch.mpr ⟨rfl, .inl ⟨procedure, found, rfl⟩⟩)
    exact Eval.call_of_quotations_iff spelled depth scope world operator head arguments

/-- What is put in front of a list is a list that would be a form, quoted with the apostrophe; and a
number cannot be applied to it. -/
theorem quoted_calls_apply_form :
    let form : Value := .list [.symbol "define", .symbol "x", .integer 1]
    let operands : List Value := [form, .list []].map (Value.quotation "'")
    Keyword.ofName? "'" = some .quote ∧ Keyword.ofName? "cons" = none ∧
      World.fresh.store.get? "cons" 0 = some (.primitive .cons) ∧
      (eval 2 (.list (.symbol "cons" :: operands)) 0).EndsWith World.fresh (.ok (.list [form]))
        World.fresh ∧
      (eval 2 (.list ((Value.primitive .cons).quotation "'" :: operands)) 0).EndsWith World.fresh
        (.ok (.list [form])) World.fresh ∧
      (eval 2 (.list ((Value.integer 7).quotation "'" :: operands)) 0).EndsWith World.fresh
        (.error (.notCallable (.integer 7))) World.fresh := by
  intro form operands
  have spelled : Keyword.ofName? "'" = some .quote := rfl
  have free : Keyword.ofName? "cons" = none := rfl
  have found : World.fresh.store.get? "cons" 0 = some (.primitive .cons) :=
    Store.get?_eq_some_iff.mpr ⟨0, .here (v := .primitive .cons) rfl, rfl⟩
  have applied : (apply 1 (.primitive .cons) [form, .list []]).EndsWith World.fresh
      (.ok (.list [form])) World.fresh := ⟨_, rfl⟩
  have refused : (apply 1 (.integer 7) [form, .list []]).EndsWith World.fresh
      (.error (.notCallable (.integer 7))) World.fresh := ⟨_, rfl⟩
  have calls := quoted_calls_apply spelled (.primitive .cons) [form, .list []] 0 World.fresh
    World.fresh (.ok (.list [form])) 0
  have call := quoted_calls_apply spelled (.integer 7) [form, .list []] 0 World.fresh World.fresh
    (.error (.notCallable (.integer 7))) 0
  exact ⟨spelled, free, found, (calls.2 "cons" free found).mpr applied, calls.1.mpr applied,
    call.1.mpr refused⟩

end MiniLisp
