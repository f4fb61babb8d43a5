import MiniLisp.Decimal.Basic

/-!
# Numerals

Two kinds of numeral are read here, both over ASCII digits. An integer numeral is an optional sign
and at least one digit. A decimal numeral has an optional sign, digits with at most one point
among, before or behind them, and then, if it likes, an `e` or `E` followed by an integer numeral.
Leading zeros are allowed everywhere. A reader takes the whole text or refuses it.
-/
namespace MiniLisp.Numeral

/-- Splits off a leading sign; `true` says that it is a minus. -/
def splitSign : List Char → Bool × List Char
  | '-' :: rest => (true, rest)
  | '+' :: rest => (false, rest)
  | rest => (false, rest)

/-- The number that a row of digits denotes. -/
def magnitude (digits : List Char) : Nat :=
  Nat.ofDigitChars 10 digits 0

def signed (negative : Bool) (n : Nat) : Int :=
  if negative then -n else n

def readInteger? (text : List Char) : Option Int :=
  let (negative, digits) := splitSign text
  if digits ≠ [] ∧ digits.all Char.isDigit then some (signed negative (magnitude digits)) else none

/-- Reads what may follow the digits of a decimal numeral: nothing, or an exponent. -/
def readExponent? : List Char → Option Int
  | [] => some 0
  | c :: rest => if c = 'e' ∨ c = 'E' then readInteger? rest else none

/-- Splits off a point and the digits behind it, if a point comes first. -/
def splitFraction : List Char → List Char × List Char
  | '.' :: rest => (rest.takeWhile Char.isDigit, rest.dropWhile Char.isDigit)
  | rest => ([], rest)

/-- Reads a decimal numeral. The digits behind the point lower the exponent by their number. -/
def readDecimal? (text : List Char) : Option Decimal :=
  let (negative, unsigned) := splitSign text
  let whole := unsigned.takeWhile Char.isDigit
  let (fraction, rest) := splitFraction (unsigned.dropWhile Char.isDigit)
  -- Digits on one side of the point are enough.
  if whole = [] ∧ fraction = [] then none
  else (readExponent? rest).map fun exponent =>
    ⟨negative, magnitude (whole ++ fraction), exponent - fraction.length⟩

end MiniLisp.Numeral
