/-!
# Binary floating-point numbers of 64 bits

The finite magnitudes of the format, from zero up, are counted by their *rank*. Rank 0 is zero,
rank 1 the least positive number `2 ^ -1074`, and the last rank the greatest finite number. Every
finite magnitude is a whole number of units `2 ^ -1074`: the ranks below `2 ^ 53` are their own
number of units, and every further `2 ^ 52` ranks the distance between neighbours doubles. A rank
is therefore exactly a canonical pair of significand and exponent, so equal numbers of one sign
have equal ranks and the order of ranks is the order of magnitudes.

Exact results are quotients of natural numbers of units. `nearestRank` rounds such a quotient to
the nearest rank, and half way between two ranks to the even one. Rounding up past the last rank
of a binade gives the first rank of the next one, and past the last rank of all an infinity.
-/
namespace MiniLisp

/-- The number of magnitudes in a binade, `2 ^ 52`: that many neighbours stand at equal distances
before the distance doubles. -/
def Binary64.binade : Nat := Nat.pow 2 52

def Binary64.rankCount : Nat := 2047 * binade

/-- A number of the format. All not-a-numbers are one, and zero has two signs. -/
inductive Binary64 where
  | nan
  | infinite (negative : Bool)
  | finite (negative : Bool) (rank : Fin Binary64.rankCount)
  deriving DecidableEq

namespace Binary64

def unitsPerOne : Nat := Nat.pow 2 1074

/-- The magnitude of the given rank in units. -/
def units (rank : Nat) : Nat :=
  if rank < binade then rank else (binade + rank % binade) * Nat.pow 2 (rank / binade - 1)

/-- How often the distance between neighbouring magnitudes has doubled at `n` units. -/
def doublings (n : Nat) : Nat :=
  n.log2 - 52

/-- The rank nearest to the quotient `num / den` of units; a tie goes to the even rank. -/
def nearestRank (num den : Nat) : Nat :=
  let scale := doublings (num / den)
  let step := den * Nat.pow 2 scale
  let below := scale * binade + num / step
  let rest := num % step
  -- Ranks are consecutive over binades, so one more is always the next magnitude.
  if 2 * rest > step ∨ (2 * rest = step ∧ below % 2 = 1) then below + 1 else below

def zero (negative : Bool) : Binary64 :=
  .finite negative ⟨0, by decide⟩

/-- The number nearest to `num / den` units, with the given sign. -/
def ofUnits (negative : Bool) (num den : Nat) : Binary64 :=
  let rank := nearestRank num den
  if finite : rank < rankCount then .finite negative ⟨rank, finite⟩ else .infinite negative

def ofInt (n : Int) : Binary64 :=
  ofUnits (n < 0) (n.natAbs * unitsPerOne) 1

/-- Whether the number is neither infinite nor a not-a-number. -/
def isFinite : Binary64 → Bool
  | .finite _ _ => true
  | _ => false

/-! ### Order -/

/-- The place of a number in the order of the format, which has the two zeros in one place and
no place for a not-a-number. -/
def position? : Binary64 → Option Int
  | .nan => none
  | .infinite negative => some (if negative then -rankCount else rankCount)
  | .finite negative rank => some (if negative then -rank.val else rank.val)

/-- Compares two numbers; a not-a-number is not comparable. -/
def compare? (x y : Binary64) : Option Ordering := do
  let left ← x.position?
  let right ← y.position?
  return compare left right

end Binary64

end MiniLisp
