import MiniLisp.Arity

/-!
# Primitive procedures

The primitive procedures of the language, with the name each is bound to at first and its arity.
Two primitives may do the same thing under two names and are still two objects: `=` and `==` are.
What a primitive answers is defined in `MiniLisp.Primitive.Result`.
-/
namespace MiniLisp

/-- The procedures that the language is given. -/
inductive Primitive where
  | sum | difference | product | quotient
  | greater | greaterOrEqual | less | lessOrEqual | equal | doubleEqual
  | length | cons | car | cdr | append | list
  | isList | isNull | isSymbol | isNumber | isProcedure | not
  | display | quit
  deriving DecidableEq

namespace Primitive

def all : List Primitive :=
  [.sum, .difference, .product, .quotient, .greater, .greaterOrEqual, .less, .lessOrEqual,
   .equal, .doubleEqual, .length, .cons, .car, .cdr, .append, .list, .isList, .isNull, .isSymbol,
   .isNumber, .isProcedure, .not, .display, .quit]

/-- The name that the global scope binds the primitive to. -/
def name : Primitive → String
  | .sum => "+"
  | .difference => "-"
  | .product => "*"
  | .quotient => "/"
  | .greater => ">"
  | .greaterOrEqual => ">="
  | .less => "<"
  | .lessOrEqual => "<="
  | .equal => "="
  | .doubleEqual => "=="
  | .length => "length"
  | .cons => "cons"
  | .car => "car"
  | .cdr => "cdr"
  | .append => "append"
  | .list => "list"
  | .isList => "list?"
  | .isNull => "null?"
  | .isSymbol => "symbol?"
  | .isNumber => "number?"
  | .isProcedure => "procedure?"
  | .not => "not"
  | .display => "display"
  | .quit => "quit"

def arity : Primitive → Arity
  | .sum | .product | .append | .list => .atLeast 0
  | .difference | .quotient | .greater | .greaterOrEqual | .less | .lessOrEqual | .equal
  | .doubleEqual | .cons => .exactly 2
  | .length | .car | .cdr | .isList | .isNull | .isSymbol | .isNumber | .isProcedure | .not
  | .display => .exactly 1
  | .quit => .between 0 1

/-- The text that tells the primitive from the values that are no primitives. -/
def description (p : Primitive) : String :=
  "primitive function #<" ++ p.name ++ ">"

theorem mem_all (p : Primitive) : p ∈ all := by
  cases p <;> decide

end Primitive

end MiniLisp
