import MiniLisp.Decimal.Basic

/-!
# Writing decimals

A decimal is written positionally, with a point and at least one digit on each side of it, or with
an exponent, as one digit, the others behind a point, and the power of ten of the leading digit
behind an `e`. Which of the two is chosen depends only on the place of the leading digit. Trailing
zeros of the coefficient are never shown for their own sake.
-/
namespace MiniLisp.Decimal

/-- The places of the leading digit that are written positionally, from least to greatest. -/
structure Layout where
  least : Int
  greatest : Int

/-- The digits up to the last one that is not zero. -/
def significant (digits : List Char) : List Char :=
  (digits.reverse.dropWhile (· = '0')).reverse

/-- The digits before the point and those behind it, when the leading one stands at `place`. -/
def splitAtPoint (place : Int) (digits : List Char) : List Char × List Char :=
  match place with
  | .ofNat above =>
    ((digits ++ List.replicate (above + 1 - digits.length) '0').take (above + 1),
      digits.drop (above + 1))
  | .negSucc below => (['0'], List.replicate below '0' ++ digits)

/-- Writes the digits with a point; an empty fraction is written as one zero. -/
def positional (place : Int) (digits : List Char) : List Char :=
  let (whole, fraction) := splitAtPoint place digits
  whole ++ '.' :: (if fraction = [] then ['0'] else fraction)

/-- Writes an integer in decimal, with a minus if it is below zero. -/
def integerText (n : Int) : List Char :=
  match n with
  | .ofNat m => Nat.toDigits 10 m
  | .negSucc m => '-' :: Nat.toDigits 10 (m + 1)

/-- Writes the digits with an exponent; no point is written behind a digit that is alone. -/
def scientific (place : Int) (digits : List Char) : List Char :=
  match digits with
  | [] => '0' :: 'e' :: integerText place
  | [digit] => digit :: 'e' :: integerText place
  | digit :: others => digit :: '.' :: others ++ 'e' :: integerText place

def render (layout : Layout) (d : Decimal) : List Char :=
  let digits := significant d.digits
  let unsigned :=
    if layout.least ≤ d.place ∧ d.place ≤ layout.greatest then positional d.place digits
    else scientific d.place digits
  if d.negative then '-' :: unsigned else unsigned

end MiniLisp.Decimal
