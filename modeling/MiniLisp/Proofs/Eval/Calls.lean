import MiniLisp.Proofs.Eval.Refinement
import MiniLisp.Proofs.Primitive.Parts
import MiniLisp.Proofs.Store.Growth

/-!
# Derivations for calls

What the body of a closure sees are its parameters, in the scope that was made for the call, and
all other names as the scope that the closure remembers sees them. The rules below are derived from
those of evaluation, for the names and the calls of primitives that stand in a body. What is derived
ends with every depth that is great enough.
-/
namespace MiniLisp

namespace World

variable (world : World) (parameters : List String) (arguments : List Value) (captured : ScopeId)

theorem bindings_enter :
    (world.enter parameters arguments captured).store.bindings world.nextScope =
      Bindings.ofLists parameters arguments := by
  simp [enter, nextScope, Store.bindings_add]

variable {world captured}

theorem bindings_enter_of_lt {id : ScopeId} (old : id < world.store.size) :
    (world.enter parameters arguments captured).store.bindings id = world.store.bindings id :=
  Store.bindings_add_of_lt old _

theorem parent_enter (old : captured < world.store.size) :
    (world.enter parameters arguments captured).store.Parent world.nextScope captured :=
  Store.parent_iff.mpr ⟨old, by simp [enter, nextScope, Store.scope?_add]⟩

/-! Scopes that were there keep their parents. -/

theorem parent_enter_of_parent {id parent : ScopeId} (up : world.store.Parent id parent) :
    (world.enter parameters arguments captured).store.Parent id parent := by
  have grows : Store.Grows (fun _ _ => False) world.store
      (world.enter parameters arguments captured).store := .add world.store _
  exact grows.parent_of up

theorem parent_define_of_parent {id parent place : ScopeId} {name : String} {v : Value}
    (up : world.store.Parent id parent) : (world.define name v place).store.Parent id parent :=
  (Store.Grows.define world.store name v place).parent_of up

end World

theorem Store.lt_size_of_bound {store : Store} {id : ScopeId} {name : String} {v : Value}
    (bound : (store.bindings id).get? name = some v) : id < store.size :=
  Binds.lt_size ⟨v, bound⟩

namespace Evaluates

variable {world before : World} {scope parent : ScopeId} {name : String} {v : Value}

/-- A name that the scope binds itself. -/
theorem of_bound (bound : (world.store.bindings scope).get? name = some v) :
    Evaluates world scope (.symbol name) (.ok v) world :=
  .symbol (.here bound) bound

/-- A name that the parent of the scope binds. -/
theorem of_outside (unbound : (world.store.bindings scope).get? name = none)
    (up : world.store.Parent scope parent)
    (bound : (world.store.bindings parent).get? name = some v) :
    Evaluates world scope (.symbol name) (.ok v) world :=
  .symbol (.outside unbound up (.here bound)) bound

/-- A call, by name, of a primitive that shows nothing. -/
theorem of_primitive {p : Primitive} {operands arguments : List Value}
    (free : Keyword.ofName? name = none)
    (first : Evaluates world scope (.symbol name) (.ok (.primitive p)) world)
    (evaluated : EvaluatesAll world scope operands (.ok arguments) before)
    (accepted : p.arity.accepts arguments.length = true) (silent : p ≠ .display) :
    Evaluates world scope (.list (.symbol name :: operands)) (p.result arguments) before := by
  have applied : Applies before (.primitive p) arguments (p.result arguments)
      (before.display (p.displayed arguments)) := .primitive accepted
  rw [Primitive.displayed_of_ne silent, World.display_empty] at applied
  exact .call (Eval.isOperator_iff.mpr free) first evaluated applied

end Evaluates

variable {world after : World}

theorem Evaluates.exists_enough {scope : ScopeId} {expression : Value}
    {result : Except Fault Value} (derived : Evaluates world scope expression result after) :
    ∃ enough, ∀ depth ≥ enough, (eval depth expression scope).EndsWith world result after := by
  obtain ⟨enough, ends⟩ := ends_of_evaluates derived
  exact ⟨enough, fun depth le => eval_deeper le ends⟩

theorem Applies.exists_enough {procedure : Value} {arguments : List Value}
    {result : Except Fault Value} (derived : Applies world procedure arguments result after) :
    ∃ enough, ∀ depth ≥ enough, (apply depth procedure arguments).EndsWith world result after := by
  obtain ⟨enough, ends⟩ := ends_of_applies derived
  exact ⟨enough, fun depth le => (apply_below le procedure arguments).endsWith ends⟩

end MiniLisp
