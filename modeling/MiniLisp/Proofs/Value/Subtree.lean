import MiniLisp.Value.Basic

/-!
# Subtrees

The subtrees of a tree are the tree itself and the subtrees of the items of a list. They are what
stands written in a text; the body of a closure is not written in the text of anything that holds
the closure, and is no subtree.
-/
namespace MiniLisp.Value

/-- A value stands somewhere in a tree. -/
inductive Subtree : Value → Value → Prop where
  | refl (v : Value) : Subtree v v
  | item {v item : Value} {items : List Value} (member : item ∈ items) (inside : Subtree v item) :
    Subtree v (.list items)

theorem Subtree.trans {u v w : Value} (inner : u.Subtree v) (outer : v.Subtree w) :
    u.Subtree w := by
  induction outer with
  | refl => exact inner
  | item member _ ih => exact .item member ih

/-- A definition of the name stands somewhere in the tree. -/
def Defines (tree : Value) (name : String) : Prop :=
  ∃ expression, Subtree (.list [.symbol "define", .symbol name, expression]) tree

theorem Defines.item {item : Value} {items : List Value} {name : String}
    (defines : item.Defines name) (member : item ∈ items) : (Value.list items).Defines name := by
  obtain ⟨expression, inside⟩ := defines
  exact ⟨expression, .item member inside⟩

end MiniLisp.Value
