import MiniLisp.Eval
import MiniLisp.Proofs.Form.Tree
import MiniLisp.Proofs.Primitive.Parts

/-!
# What holds of every given part

Symbols and procedures are the parts of a value that evaluation does not make up: a symbol comes
from a text, a primitive from a binding and a closure from the evaluation of a `lambda`. A property
of such parts that holds throughout some values holds throughout everything that lists and
primitives make of them, so a property of the values in a store has to be looked at only where a
closure is made.
-/
namespace MiniLisp

/-! ### Trees -/

theorem Value.IsTree.of_subtree {part tree : Value} (is : tree.IsTree)
    (inside : part.Subtree tree) : part.IsTree := by
  induction inside with
  | refl => exact is
  | item member _ ih =>
    cases is with
    | list trees => exact ih (trees _ member)

theorem Value.IsTree.of_item {item : Value} {items : List Value} (is : (Value.list items).IsTree)
    (member : item ∈ items) : item.IsTree :=
  is.of_subtree (.item member (.refl item))

theorem Value.IsTree.quoted {operands : List Value} (trees : ∀ v ∈ operands, v.IsTree) :
    (Eval.quoted operands).IsTree := by
  unfold Eval.quoted
  split
  · exact trees _ (by simp)
  · exact .list trees

/-! ### Given parts -/

/-- The property holds of every symbol and every procedure that stands in the value. -/
def Value.Every (good : Value → Prop) (v : Value) : Prop :=
  ∀ part : Value, part.Subtree v → part.IsGiven → good part

namespace Value.Every

variable {good better : Value → Prop} {v : Value}

theorem mono (every : v.Every good) (implies : ∀ part, good part → better part) :
    v.Every better :=
  fun part inside given => implies part (every part inside given)

/-- A symbol or a procedure has no other part than itself. -/
theorem of_given (holds : good v) (whole : ∀ items, v ≠ .list items) : v.Every good := by
  rintro part inside -
  cases inside with
  | refl => exact holds
  | item => exact absurd rfl (whole _)

theorem item {items : List Value} (every : (list items).Every good) (member : v ∈ items) :
    v.Every good :=
  fun part inside given => every part (.item member inside) given

theorem list {items : List Value} (every : ∀ v ∈ items, v.Every good) :
    (Value.list items).Every good := by
  rintro part (_ | ⟨member, inside⟩) given
  · exact given.elim
  · exact every _ member part inside given

theorem of_isBare (bare : v.IsBare) : v.Every good :=
  fun part inside given => absurd given (bare part inside)

/-- Of the parts of a tree only the symbols are given. -/
theorem of_isTree (is : v.IsTree) (symbols : ∀ name, good (.symbol name)) : v.Every good := by
  intro part inside given
  cases is.of_subtree inside with
  | symbol _ => exact symbols _
  | _ => exact given.elim

/-- What primitives answer is put together from their arguments. -/
theorem answer {p : Primitive} {arguments : List Value} (given : ∀ w ∈ arguments, w.Every good)
    (answered : p.result arguments = .ok v) : v.Every good := by
  have made := p.made_result arguments
  rw [answered] at made
  intro part inside is
  obtain ⟨w, argument, whole⟩ := made part inside is
  exact given w argument part whole is

/-- A global scope begins with primitives and three constants. -/
theorem standard (primitives : ∀ p, good (.primitive p)) {pair : String × Value}
    (member : pair ∈ Bindings.standard) : pair.2.Every good := by
  simp only [Bindings.standard, List.mem_append, List.mem_map, List.mem_cons, List.not_mem_nil,
    or_false] at member
  rcases member with ⟨p, _, rfl⟩ | rfl | rfl | rfl
  · exact of_given (primitives p) nofun
  · exact of_isBare Primitive.isBare_nil
  · exact of_isBare (Primitive.isBare_boolean true)
  · exact of_isBare (Primitive.isBare_boolean false)

end Value.Every

end MiniLisp
