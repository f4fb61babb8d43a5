import MiniLisp.Binary64.OfDecimal
import Mathlib.Tactic.Ring

/-!
# Rounding a quotient of units

The nearest rank of a quotient depends on the quotient alone, not on the two numbers it is
written with, and a quotient that is itself a magnitude has the rank of that magnitude. Both are
needed when a number is written in one way and read in another: the two sides then round
quotients that are equal but look different.
-/
namespace MiniLisp.Binary64

/-- A common factor of both numbers of a quotient does not matter. -/
theorem nearestRank_scale (num den factor : Nat) (positive : 0 < factor) :
    nearestRank (num * factor) (den * factor) = nearestRank num den := by
  unfold nearestRank
  -- The scale is taken from the quotient, so the factor goes into the step and the rest alone.
  simp only [Nat.mul_div_mul_right _ _ positive]
  generalize doublings (num / den) = scale
  have step : den * factor * Nat.pow 2 scale = den * Nat.pow 2 scale * factor := by ring
  have twice : 2 * (num % (den * Nat.pow 2 scale) * factor) =
      2 * (num % (den * Nat.pow 2 scale)) * factor := by ring
  rw [step, Nat.mul_div_mul_right _ _ positive, Nat.mul_mod_mul_right, twice]
  simp only [gt_iff_lt, Nat.mul_lt_mul_right positive,
    Nat.mul_left_inj (Nat.pos_iff_ne_zero.mp positive)]

theorem nearestRank_eq_of_mul_eq {num den num' den' : Nat} (positive : 0 < den)
    (positive' : 0 < den') (equal : num * den' = num' * den) :
    nearestRank num den = nearestRank num' den' := by
  -- Both quotients are written over the product of the denominators.
  rw [← nearestRank_scale num den den' positive', ← nearestRank_scale num' den' den positive,
    equal, Nat.mul_comm den]

theorem log2_units (rank : Nat) (large : binade ≤ rank) :
    (units rank).log2 = 51 + rank / binade := by
  have below := Nat.mod_lt rank (show 0 < binade by decide)
  have doubled : 1 ≤ rank / binade := (Nat.one_le_div_iff (by decide)).mpr large
  have exact : units rank = (binade + rank % binade) * 2 ^ (rank / binade - 1) :=
    if_neg (by omega)
  -- The significand lies between `2 ^ 52` and `2 ^ 53`.
  have power : (2 : Nat) ^ (51 + rank / binade) = binade * 2 ^ (rank / binade - 1) := by
    rw [show 51 + rank / binade = 52 + (rank / binade - 1) by omega, pow_add]
    rfl
  have next : (2 : Nat) ^ (51 + rank / binade + 1) = 2 * binade * 2 ^ (rank / binade - 1) := by
    rw [pow_succ, power]
    ring
  have nonzero : units rank ≠ 0 := by
    rw [exact]
    exact Nat.mul_ne_zero (by omega) (Nat.pos_iff_ne_zero.mp (Nat.two_pow_pos _))
  refine (Nat.log2_eq_iff nonzero).mpr ⟨?_, ?_⟩
  · rw [power, exact]
    exact Nat.mul_le_mul_right _ (by omega)
  · rw [next, exact]
    exact Nat.mul_lt_mul_of_pos_right (by omega) (Nat.two_pow_pos _)

/-- A magnitude rounds to its own rank. -/
theorem nearestRank_units (rank : Nat) : nearestRank (units rank) 1 = rank := by
  by_cases small : rank < binade
  · -- Below the first binade a rank is its own number of units, and the step is one unit.
    have exact : units rank = rank := if_pos small
    have logarithm : rank.log2 ≤ 51 := by
      by_cases none : rank = 0
      · simp [none]
      · have : rank.log2 < 52 := (Nat.log2_lt none).mpr small
        omega
    have scale : doublings rank = 0 := by
      unfold doublings
      omega
    unfold nearestRank
    simp [scale, exact, Nat.mod_one]
  · -- Above it the step divides the units of the rank, so nothing is rounded.
    have large : binade ≤ rank := Nat.le_of_not_lt small
    have doubled : 1 ≤ rank / binade := (Nat.one_le_div_iff (by decide)).mpr large
    have exact : units rank = (binade + rank % binade) * Nat.pow 2 (rank / binade - 1) :=
      if_neg small
    have scale : doublings (units rank / 1) = rank / binade - 1 := by
      rw [Nat.div_one]
      unfold doublings
      rw [log2_units rank large]
      omega
    have positive : 0 < Nat.pow 2 (rank / binade - 1) := Nat.pow_pos (by decide)
    have rebuilt : (rank / binade - 1) * binade + (binade + rank % binade) = rank := by
      calc (rank / binade - 1) * binade + (binade + rank % binade)
          = (rank / binade - 1 + 1) * binade + rank % binade := by ring
        _ = rank / binade * binade + rank % binade := by rw [Nat.sub_add_cancel doubled]
        _ = rank := Nat.div_add_mod' rank binade
    unfold nearestRank
    simp only [scale, Nat.one_mul]
    rw [exact, Nat.mul_div_cancel _ positive, Nat.mul_mod_left, rebuilt, if_neg]
    omega

/-- A quotient that is a magnitude is that magnitude. -/
theorem ofUnits_units (negative : Bool) (rank : Fin rankCount) {num den : Nat}
    (positive : 0 < den) (equal : num = units rank * den) :
    ofUnits negative num den = .finite negative rank := by
  have quotients : num * 1 = units rank * den := by rw [equal, Nat.mul_one]
  have nearest : nearestRank num den = rank := by
    rw [nearestRank_eq_of_mul_eq positive Nat.one_pos quotients, nearestRank_units]
  unfold ofUnits
  simp only [nearest, rank.isLt, dif_pos]

theorem ofUnits_congr (negative : Bool) {num den num' den' : Nat} (positive : 0 < den)
    (positive' : 0 < den') (equal : num * den' = num' * den) :
    ofUnits negative num den = ofUnits negative num' den' := by
  unfold ofUnits
  simp only [nearestRank_eq_of_mul_eq positive positive' equal]

end MiniLisp.Binary64
