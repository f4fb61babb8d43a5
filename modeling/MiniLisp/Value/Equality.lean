import MiniLisp.Number

/-!
# Equality of values

Two numbers are equal when they compare as equal, whatever their kinds. Everything else is equal
when it has the same structure. Inside a list the kinds of numbers count, and floats are equal as
floats are, so that one that is not a number differs from itself and the two zeros do not differ.
Procedures are equal only to themselves: a primitive by what it is, a closure by its serial number.
-/
namespace MiniLisp.Value

def sameFloat (x y : Binary64) : Bool :=
  x.compare? y = some .eq

mutual

/-- Whether two values have the same structure. -/
def sameStructure : Value → Value → Bool
  | .nil, .nil => true
  | .boolean a, .boolean b => a = b
  | .integer m, .integer n => m = n
  | .float x, .float y => sameFloat x y
  | .symbol a, .symbol b => a = b
  | .list items, .list others => sameStructures items others
  | .primitive p, .primitive q => p = q
  | .closure serial _ _ _, .closure other _ _ _ => serial = other
  | _, _ => false

/-- Whether two lists have the same length and elements of the same structure. -/
def sameStructures : List Value → List Value → Bool
  | [], [] => true
  | a :: items, b :: others => sameStructure a b && sameStructures items others
  | _, _ => false

end

/-- The equality that programs see. -/
def equal (a b : Value) : Bool :=
  match a.number?, b.number? with
  | some x, some y => x.compare? y = some .eq
  | _, _ => sameStructure a b

end MiniLisp.Value
