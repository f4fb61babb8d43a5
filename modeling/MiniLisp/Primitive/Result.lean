import MiniLisp.Fault
import MiniLisp.Value.Equality

/-!
# What primitives answer

The answer of a primitive depends on its arguments alone. The only other thing that a primitive
does is `display`'s, which shows a text. Arguments are examined from left to right, and the
arithmetic primitives examine all of them before they compute anything.

Each definition has a case for the numbers of arguments that the primitive's arity allows. The
remaining case is not reached, because arguments are counted before every call.
-/
namespace MiniLisp.Primitive

/-- The numbers that the arguments are, provided that all of them are numbers. -/
def numbers : List Value → Except Fault (List Number)
  | [] => .ok []
  | v :: rest =>
    match v.number? with
    | none => .error (.typeMismatch .number)
    | some x =>
      match numbers rest with
      | .ok others => .ok (x :: others)
      | .error fault => .error fault

/-- The elements of an argument that has to be a list. -/
def items (v : Value) : Except Fault (List Value) :=
  match v.items? with
  | some items => .ok items
  | none => .error (.typeMismatch .list)

/-- The elements of all arguments, in order, provided that all of them are lists. -/
def appended : List Value → Except Fault (List Value)
  | [] => .ok []
  | v :: rest => do
    let items ← items v
    let others ← appended rest
    return items ++ others

/-- Answers with a combination of all the arguments, which have to be numbers. -/
def fold (combination : List Number → Number) (arguments : List Value) : Except Fault Value := do
  return (combination (← numbers arguments)).toValue

/-- Answers with what an operation makes of two arguments, which have to be numbers. -/
def onTwo (p : Primitive) (operation : Number → Number → Except Fault Value)
    (arguments : List Value) : Except Fault Value := do
  match ← numbers arguments with
  | [x, y] => operation x y
  | _ => .error (.noCase p)

def differenceOf (x y : Number) : Except Fault Value :=
  .ok (x.sub y).toValue

def quotientOf (x y : Number) : Except Fault Value :=
  match x.div? y with
  | some z => .ok z.toValue
  | none => .error .divisionByZero

/-- Whether two numbers compare in one of the given ways. -/
def compareOf (ways : List Ordering) (x y : Number) : Except Fault Value :=
  .ok (.boolean (match x.compare? y with
    | some way => ways.contains way
    | none => false))

/-- The code that a program may leave with: an integer of 32 bits, and the greatest of them in
place of any other integer. -/
def exitCode (n : Int64) : Int32 :=
  if Int32.minValue.toInt ≤ n.toInt ∧ n.toInt ≤ Int32.maxValue.toInt then n.toInt32
  else Int32.maxValue

def result (p : Primitive) (arguments : List Value) : Except Fault Value :=
  match p with
  | .sum => fold Number.sum arguments
  | .product => fold Number.product arguments
  | .difference => onTwo p differenceOf arguments
  | .quotient => onTwo p quotientOf arguments
  | .greater => onTwo p (compareOf [.gt]) arguments
  | .greaterOrEqual => onTwo p (compareOf [.gt, .eq]) arguments
  | .less => onTwo p (compareOf [.lt]) arguments
  | .lessOrEqual => onTwo p (compareOf [.lt, .eq]) arguments
  | .equal | .doubleEqual =>
    match arguments with
    | [a, b] => .ok (.boolean (a.equal b))
    | _ => .error (.noCase p)
  | .length =>
    match arguments with
    | [v] => return .integer (Int64.ofNat (← items v).length)
    | _ => .error (.noCase p)
  | .cons =>
    match arguments with
    | [v, tail] => return .list (v :: (← items tail))
    | _ => .error (.noCase p)
  -- The empty list has a head all the same, `nil`.
  | .car =>
    match arguments with
    | [v] => return (← items v).headD .nil
    | _ => .error (.noCase p)
  | .cdr =>
    match arguments with
    | [v] => return .list (← items v).tail
    | _ => .error (.noCase p)
  | .append => return .list (← appended arguments)
  | .list => .ok (.list arguments)
  | .isList =>
    match arguments with
    | [v] => .ok (.boolean v.isList)
    | _ => .error (.noCase p)
  | .isNull =>
    match arguments with
    | [v] => .ok (.boolean v.isNull)
    | _ => .error (.noCase p)
  | .isSymbol =>
    match arguments with
    | [v] => .ok (.boolean v.isSymbol)
    | _ => .error (.noCase p)
  | .isNumber =>
    match arguments with
    | [v] => .ok (.boolean v.isNumber)
    | _ => .error (.noCase p)
  | .isProcedure =>
    match arguments with
    | [v] => .ok (.boolean v.isProcedure)
    | _ => .error (.noCase p)
  | .not =>
    match arguments with
    | [v] => .ok (.boolean !v.isTruthy)
    | _ => .error (.noCase p)
  | .display =>
    match arguments with
    | [_] => .ok .nil
    | _ => .error (.noCase p)
  -- Leaving is asked for by a fault of its own; a code that is no integer is a mismatch.
  | .quit =>
    match arguments with
    | [] => .error (.exit 0)
    | [.integer n] => .error (.exit (exitCode n))
    | [_] => .error (.typeMismatch .integer)
    | _ => .error (.noCase p)

/-- The text that a primitive shows when it is called. -/
def displayed (p : Primitive) (arguments : List Value) : String :=
  match p, arguments with
  | .display, [v] => v.readable ++ "\n"
  | _, _ => ""

end MiniLisp.Primitive
