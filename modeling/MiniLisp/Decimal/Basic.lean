/-!
# Decimal numbers

A decimal is a signed coefficient times a power of ten. It is what a numeral denotes before it is
rounded to a binary format, and what a binary number becomes before it is written. The sign is
kept apart from the coefficient because a zero has one too.
-/
namespace MiniLisp

/-- The number `± coefficient * 10 ^ exponent`. -/
structure Decimal where
  negative : Bool
  coefficient : Nat
  exponent : Int
  deriving DecidableEq

namespace Decimal

/-- The digits of the coefficient, without leading zeros; zero has the one digit `0`. -/
def digits (d : Decimal) : List Char :=
  Nat.toDigits 10 d.coefficient

/-- The power of ten at which the leading digit stands. -/
def place (d : Decimal) : Int :=
  d.exponent + d.digits.length - 1

theorem digits_ne_nil (d : Decimal) : d.digits ≠ [] :=
  Nat.toDigits_ne_nil

end Decimal

end MiniLisp
