import MiniLisp.Proofs.Eval.Refinement
import MiniLisp.Proofs.Store.Growth
import MiniLisp.Proofs.Value.Subtree

/-!
# Where evaluation binds names

Evaluating a value in a scope takes no name from any scope, changes no parent, and gives new names
to that scope only: the names that the value defines in its own text. A call gives no name to any
scope that was there before it, since the body of a closure is evaluated in a scope made for the
call. The argument follows the rules, so it covers runs that end with a fault as well, with all
that they did before.
-/
namespace MiniLisp

namespace Eval

/-- While a value is evaluated in a scope, that scope may gain the names that the value defines. -/
def Gains (scope : ScopeId) (v : Value) (id : ScopeId) (name : String) : Prop :=
  id = scope ∧ v.Defines name

/-- While values are evaluated in a scope, that scope may gain the names that one of them
defines. -/
def GainsAny (scope : ScopeId) (vs : List Value) (id : ScopeId) (name : String) : Prop :=
  id = scope ∧ ∃ v ∈ vs, v.Defines name

variable {before after : Store} {scope : ScopeId}

theorem grows_of_item {item : Value} {items : List Value}
    (grows : Store.Grows (Gains scope item) before after) (member : item ∈ items) :
    Store.Grows (Gains scope (.list items)) before after :=
  grows.weaken fun _ _ _ ⟨here, defines⟩ => ⟨here, defines.item member⟩

theorem grows_of_items {items others : List Value}
    (grows : Store.Grows (GainsAny scope items) before after) (subset : items ⊆ others) :
    Store.Grows (Gains scope (.list others)) before after :=
  grows.weaken fun _ _ _ ⟨here, _, member, defines⟩ => ⟨here, defines.item (subset member)⟩

theorem growsAny_of_head {item : Value} {rest : List Value}
    (grows : Store.Grows (Gains scope item) before after) :
    Store.Grows (GainsAny scope (item :: rest)) before after :=
  grows.weaken fun _ _ _ ⟨here, defines⟩ => ⟨here, item, by simp, defines⟩

theorem growsAny_of_tail {item : Value} {rest : List Value}
    (grows : Store.Grows (GainsAny scope rest) before after) :
    Store.Grows (GainsAny scope (item :: rest)) before after :=
  grows.weaken fun _ _ _ ⟨here, v, member, defines⟩ =>
    ⟨here, v, List.mem_cons_of_mem item member, defines⟩

end Eval

mutual

theorem Evaluates.grows {world after : World} {scope : ScopeId} {v : Value}
    {result : Except Fault Value} (derived : Evaluates world scope v result after) :
    Store.Grows (Eval.Gains scope v) world.store after.store := by
  match derived with
  -- Nothing is written.
  | .symbol _ _ | .unknown _ | .literal _ | .quote _ | .quoteList _ _ | .conditionalCount _ _
  | .writeCount _ _ _ | .writeTarget _ _ _ | .lambda _ | .lambdaCount _ _ | .lambdaList _ _
  | .lambdaSymbol _ _ _ => exact .refl _
  | .consequent _ _ tested _ chosen =>
    exact (Eval.grows_of_item tested.grows (by simp)).trans
      (Eval.grows_of_item chosen.grows (by simp))
  | .alternative _ tested _ chosen =>
    exact (Eval.grows_of_item tested.grows (by simp)).trans
      (Eval.grows_of_item chosen.grows (by simp))
  | .noAlternative _ tested _ => exact Eval.grows_of_item tested.grows (by simp)
  | .testFault _ _ tested => exact Eval.grows_of_item tested.grows (by simp)
  | .define spelled evaluated =>
    -- The name that is written is the one that stands in the text of the definition itself.
    obtain rfl : _ = "define" := Keyword.eq_name_of_ofName? spelled (by decide)
    refine (Eval.grows_of_item evaluated.grows (by simp)).trans ((Store.Grows.define ..).weaken ?_)
    rintro id _ name ⟨rfl, rfl⟩
    exact ⟨rfl, _, .refl _⟩
  | .assign _ evaluated owned =>
    -- The owner binds the name already.
    exact (Eval.grows_of_item evaluated.grows (by simp)).trans (.assign owned.bound _)
  | .assignUnknown _ evaluated _ => exact Eval.grows_of_item evaluated.grows (by simp)
  | .writeFault _ _ evaluated => exact Eval.grows_of_item evaluated.grows (by simp)
  | .sequence _ evaluated => exact Eval.grows_of_items evaluated.grows (by simp)
  | .sequenceFault _ evaluated => exact Eval.grows_of_items evaluated.grows (by simp)
  | .call _ first evaluated applied =>
    -- The application gives no scope that was there a name, so only the operands count.
    exact ((Eval.grows_of_item first.grows (by simp)).trans
      (Eval.grows_of_items evaluated.grows (by simp))).trans
        (applied.grows.weaken fun _ _ _ => False.elim)
  | .headFault _ first => exact Eval.grows_of_item first.grows (by simp)
  | .operandFault _ first evaluated =>
    exact (Eval.grows_of_item first.grows (by simp)).trans
      (Eval.grows_of_items evaluated.grows (by simp))

theorem EvaluatesAll.grows {world after : World} {scope : ScopeId} {vs : List Value}
    {result : Except Fault (List Value)} (derived : EvaluatesAll world scope vs result after) :
    Store.Grows (Eval.GainsAny scope vs) world.store after.store := by
  match derived with
  | .nil => exact .refl _
  | .cons first others =>
    exact (Eval.growsAny_of_head first.grows).trans (Eval.growsAny_of_tail others.grows)
  | .fault first => exact Eval.growsAny_of_head first.grows
  | .later first others =>
    exact (Eval.growsAny_of_head first.grows).trans (Eval.growsAny_of_tail others.grows)

theorem Applies.grows {world after : World} {procedure : Value} {arguments : List Value}
    {result : Except Fault Value} (derived : Applies world procedure arguments result after) :
    Store.Grows (fun _ _ => False) world.store after.store := by
  match derived with
  | .primitive _ | .primitiveCount _ | .closureCount _ | .notCallable _ => exact .refl _
  | .closure _ entered =>
    -- The scope that gains names is the one that the call made, which is none of the old ones.
    refine ((Store.Grows.add world.store _).trans (entered.grows)).weaken ?_
    rintro id old name ⟨rfl, _⟩
    exact absurd old (Nat.lt_irrefl _)

end

end MiniLisp
