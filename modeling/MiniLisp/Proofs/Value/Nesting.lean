import MiniLisp.Proofs.Value.Subtree

/-!
# Nesting of closures in a text

The text of a closure is the list `(lambda (p1 ... pn) body)`. How deep a place of a tree is nested
is the number of such bodies on the way down to it from the whole tree. The greatest of these
numbers is the nesting of the tree.
-/
namespace MiniLisp.Value

/-- The text of a closure with the given parameters and body. -/
def lambda (parameters : List String) (body : Value) : Value :=
  .list [.symbol "lambda", .list (parameters.map .symbol), body]

/-- The part stands in the tree at a place with the given number of closure bodies around it. -/
inductive Within (part : Value) : Nat → Value → Prop where
  | whole : Within part 0 part
  -- The body in the text of a closure is reached by the next rule only.
  | item {count index : Nat} {item : Value} {items : List Value}
    (found : items[index]? = some item)
    (outside : index = 2 → ∀ parameters body, .list items ≠ lambda parameters body)
    (inside : Within part count item) : Within part count (.list items)
  | body {count : Nat} {parameters : List String} {body : Value}
    (inside : Within part count body) : Within part (count + 1) (lambda parameters body)

theorem Within.trans {part middle tree : Value} {inner outer : Nat}
    (inside : part.Within inner middle) (stands : middle.Within outer tree) :
    part.Within (inner + outer) tree := by
  induction stands with
  | whole => exact inside
  | item found outside _ ih => exact .item found outside ih
  | body _ ih => exact .body ih

theorem Within.subtree {part tree : Value} {count : Nat} (stands : part.Within count tree) :
    part.Subtree tree := by
  induction stands with
  | whole => exact .refl part
  | item found _ _ ih => exact .item (List.mem_of_getElem? found) ih
  | body _ ih => exact .item (by simp) ih

/-- An item of a list that is no text of a closure stands where the list does. -/
theorem Within.of_item {item tree : Value} {items : List Value} {count : Nat}
    (stands : (Value.list items).Within count tree)
    (other : ∀ parameters body, .list items ≠ lambda parameters body) (member : item ∈ items) :
    item.Within count tree := by
  obtain ⟨index, found⟩ := List.getElem?_of_mem member
  have inside : item.Within 0 (.list items) := .item found (fun _ => other) .whole
  simpa using inside.trans stands

theorem Within.of_body {body tree : Value} {parameters : List String} {count : Nat}
    (stands : (lambda parameters body).Within count tree) : body.Within (count + 1) tree := by
  have inside : body.Within 1 (lambda parameters body) := .body .whole
  simpa [Nat.add_comm] using inside.trans stands

/-! ### The greatest number of bodies -/

/-- Whether the items are those of the text of a closure. -/
def isLambda : List Value → Bool
  | [.symbol word, .list parameters, _] => word = "lambda" && parameters.all isSymbol
  | _ => false

mutual

/-- The greatest number of closure bodies around a place of the tree. -/
def nesting : Value → Nat
  | .list items => (nestings items).foldr max 0 + if isLambda items then 1 else 0
  | _ => 0

def nestings : List Value → List Nat
  | [] => []
  | item :: rest => nesting item :: nestings rest

end

theorem nesting_le_foldr {item : Value} {items : List Value} (member : item ∈ items) :
    item.nesting ≤ (nestings items).foldr max 0 := by
  induction items with
  | nil => cases member
  | cons first rest ih =>
    simp only [nestings, List.foldr_cons]
    rcases List.mem_cons.mp member with rfl | member
    · exact Nat.le_max_left _ _
    · exact Nat.le_trans (ih member) (Nat.le_max_right _ _)

theorem nesting_le_of_mem {item : Value} {items : List Value} (member : item ∈ items) :
    item.nesting ≤ (Value.list items).nesting := by
  rw [nesting]
  exact Nat.le_trans (nesting_le_foldr member) (Nat.le_add_right _ _)

/-- The text of a closure is nested deeper than its body. -/
theorem nesting_lt_lambda (parameters : List String) (body : Value) :
    body.nesting < (lambda parameters body).nesting := by
  have text : isLambda [.symbol "lambda", .list (parameters.map .symbol), body] = true := by
    simp [isLambda, isSymbol]
  have inside := nesting_le_foldr
    (show body ∈ [.symbol "lambda", .list (parameters.map .symbol), body] by simp)
  rw [lambda, nesting, text]
  exact Nat.lt_succ_of_le inside

theorem Within.le_nesting {part tree : Value} {count : Nat} (stands : part.Within count tree) :
    count ≤ tree.nesting := by
  induction stands with
  | whole => exact Nat.zero_le _
  | item found _ _ ih => exact Nat.le_trans ih (nesting_le_of_mem (List.mem_of_getElem? found))
  | body _ ih => exact Nat.lt_of_le_of_lt ih (nesting_lt_lambda _ _)

end MiniLisp.Value
