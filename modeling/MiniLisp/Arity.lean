/-!
# Arities

An arity says how many arguments a procedure takes: some number between two bounds, both included,
or any number from a least one upwards.
-/
namespace MiniLisp

inductive Arity where
  | between (least greatest : Nat)
  | atLeast (least : Nat)
  deriving DecidableEq

namespace Arity

def exactly (n : Nat) : Arity := .between n n

/-- Whether a procedure of this arity takes `n` arguments. -/
def accepts : Arity → Nat → Bool
  | .between least greatest, n => least ≤ n && n ≤ greatest
  | .atLeast least, n => least ≤ n

def render : Arity → String
  | .between least greatest =>
    if least = greatest then "exactly " ++ toString least
    else "from " ++ toString least ++ " to " ++ toString greatest
  | .atLeast least => "at least " ++ toString least

theorem accepts_exactly {m n : Nat} : (exactly m).accepts n = true ↔ n = m := by
  simp only [exactly, accepts, Bool.and_eq_true, decide_eq_true_eq]
  omega

end Arity

end MiniLisp
