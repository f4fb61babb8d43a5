import MiniLisp.Binary64.OfDecimal

/-!
# The shortest decimal of a binary number

Several decimals round to one binary number. The one chosen here has the fewest digits, and among
those of equal length it is the nearest to the number itself; of two equally near ones it is the
greater.

A magnitude of `n` units is exactly `n * 5 ^ 1074` times `10 ^ -1074`. Cut to its first digits,
that coefficient has two neighbours on the grid of decimals with so many digits: the cut itself
and the cut plus one. Seventeen digits always suffice; should no shorter decimal round back, the
exact one is taken, so that the choice rounds back to the number in every case.
-/
namespace MiniLisp.Binary64

def exactDecimal (rank : Nat) : Decimal :=
  ⟨false, units rank * Nat.pow 5 1074, -1074⟩

/-- The neighbours of an exact coefficient on the grid that is left when its last `dropped` digits
are cut off, the nearer one first. -/
def neighbours (exact dropped : Nat) : List Decimal :=
  let scale := Nat.pow 10 dropped
  let cut := exact / scale
  let exponent : Int := (dropped : Int) - 1074
  let lower : Decimal := ⟨false, cut, exponent⟩
  let upper : Decimal := ⟨false, cut + 1, exponent⟩
  if scale ≤ 2 * (exact % scale) then [upper, lower] else [lower, upper]

/-- Whether the decimal rounds to the magnitude of the given rank. -/
def roundsTo (rank : Fin rankCount) (d : Decimal) : Bool :=
  ofDecimal d = .finite false rank

def shortest (rank : Fin rankCount) : Decimal :=
  let exact := exactDecimal rank
  let length := exact.digits.length
  -- The fewest digits are tried first.
  let short? := (List.range' 1 17).findSome? fun count =>
    (neighbours exact.coefficient (length - count)).find? (roundsTo rank)
  if rank.val = 0 then ⟨false, 0, 0⟩ else short?.getD exact

end MiniLisp.Binary64
