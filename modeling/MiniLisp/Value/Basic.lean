import MiniLisp.Binary64.Basic
import MiniLisp.Primitive.Basic

/-!
# Values

One type serves for data and for programs: what the reader makes of a line is a value, and a
program is evaluated by walking it. Only procedures are never read. A closure remembers the scope
in which its `lambda` was evaluated, and it carries a serial number that no other evaluation of a
`lambda` has been given, so that it can be told from closures with the same text.
-/
namespace MiniLisp

/-- The number of a scope in the store. -/
abbrev ScopeId := Nat

/-- What programs are made of and what they compute. -/
inductive Value where
  | nil
  | boolean (b : Bool)
  | integer (n : Int64)
  | float (x : Binary64)
  | symbol (name : String)
  | list (items : List Value)
  | primitive (p : Primitive)
  | closure (serial : Nat) (parameters : List String) (body : Value) (scope : ScopeId)

namespace Value

instance : Inhabited Value := ⟨.nil⟩

/-- Only `nil` and `false` count as false in a test. -/
def isTruthy : Value → Bool
  | .nil => false
  | .boolean b => b
  | _ => true

def isProcedure : Value → Bool
  | .primitive _ | .closure _ _ _ _ => true
  | _ => false

def isList : Value → Bool
  | .list _ => true
  | _ => false

def isSymbol : Value → Bool
  | .symbol _ => true
  | _ => false

/-- Both the empty list and `nil` are null. -/
def isNull : Value → Bool
  | .nil | .list [] => true
  | _ => false

def isNumber : Value → Bool
  | .integer _ | .float _ => true
  | _ => false

def items? : Value → Option (List Value)
  | .list items => some items
  | _ => none

def name? : Value → Option String
  | .symbol name => some name
  | _ => none

end Value

end MiniLisp
