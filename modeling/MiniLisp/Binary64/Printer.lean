import MiniLisp.Binary64.Shortest
import MiniLisp.Decimal.Printer

/-!
# Writing binary floating-point numbers

A finite number is written as its shortest decimal. A leading digit between the place of
ten-thousandths and the sixteenth place before the point is written positionally and every other
one with an exponent. The sign of a zero is shown, and a not-a-number has none.
-/
namespace MiniLisp.Binary64

/-- Numbers from `0.0001` up to below `10 ^ 16` are written positionally. -/
def layout : Decimal.Layout := ⟨-4, 15⟩

def render : Binary64 → List Char
  | .nan => ['N', 'a', 'N']
  | .infinite negative => (if negative then ['-'] else []) ++ ['i', 'n', 'f']
  | .finite negative rank =>
    (⟨negative, (shortest rank).coefficient, (shortest rank).exponent⟩ : Decimal).render layout

end MiniLisp.Binary64
