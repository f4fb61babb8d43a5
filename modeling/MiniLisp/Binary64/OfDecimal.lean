import MiniLisp.Binary64.Basic
import MiniLisp.Decimal.Basic

/-!
# From decimal to binary

A decimal is rounded once, from its exact value, to the nearest number of the format. Before the
power of ten is computed the place of the leading digit is looked at. From the place 309 upwards
every value overflows, and a value whose leading digit stands below the place -324 is under half
the least positive number. The power is therefore never larger than the format calls for, however
large the exponent of a numeral is.
-/
namespace MiniLisp.Binary64

/-- The place of the leading digit from which every value rounds to an infinity. -/
def overflowPlace : Int := 309

/-- The place of the leading digit below which every value rounds to zero. -/
def underflowPlace : Int := -324

def ofDecimal (d : Decimal) : Binary64 :=
  if d.coefficient = 0 then zero d.negative
  else if overflowPlace ≤ d.place then .infinite d.negative
  else if d.place < underflowPlace then zero d.negative
  else match d.exponent with
    | .ofNat up => ofUnits d.negative (d.coefficient * Nat.pow 10 up * unitsPerOne) 1
    | .negSucc down => ofUnits d.negative (d.coefficient * unitsPerOne) (Nat.pow 10 (down + 1))

end MiniLisp.Binary64
