import MiniLisp.Proofs.Binary64.Nearest

/-!
# Decimals as quotients

A decimal is a quotient of natural numbers, and it is rounded as that quotient, however large its
coefficient and its exponent are. That is not how it is computed. Whether a decimal overflows or
vanishes is guessed from the place of its leading digit, so that no needless power of ten is
formed; but the guesses are cases in which the quotient is rounded with the same outcome. So
exactly the decimals below the middle after the greatest finite number are read as finite, and
each of them as the nearest number.
-/
namespace MiniLisp

namespace Decimal

variable (d : Decimal)

/-- The magnitude of the number that a decimal denotes. -/
def absolute : ℚ :=
  d.coefficient * 10 ^ d.exponent

def numerator : Nat :=
  d.coefficient * 10 ^ d.exponent.toNat

def denominator : Nat :=
  10 ^ (-d.exponent).toNat

theorem denominator_pos : 0 < d.denominator :=
  Nat.pow_pos (by decide)

theorem absolute_eq : d.absolute = d.numerator / d.denominator := by
  have ten : (10 : ℚ) ≠ 0 := by norm_num
  have split : d.exponent = d.exponent.toNat - (-d.exponent).toNat := by omega
  unfold absolute numerator denominator
  push_cast
  rw [mul_div_assoc, ← zpow_natCast, ← zpow_natCast, ← zpow_sub₀ ten, ← split]

/-- The place of the leading digit bounds the coefficient on both sides. -/
theorem coefficient_bounds (nonzero : d.coefficient ≠ 0) :
    10 ^ (d.digits.length - 1) ≤ d.coefficient ∧ d.coefficient < 10 ^ d.digits.length := by
  have some : 0 < d.digits.length := List.length_pos_iff.mpr d.digits_ne_nil
  constructor
  · rcases Nat.eq_zero_or_pos (d.digits.length - 1) with one | more
    · rw [one]
      exact Nat.pos_of_ne_zero nonzero
    · refine Nat.le_of_not_lt fun small => ?_
      have fewer := Binary64.length_toDigits_le more small
      unfold digits at *
      omega
  · exact (Nat.length_toDigits_le_iff (by decide) some).mp (Nat.le_refl _)

end Decimal

namespace Binary64

variable {num den : Nat}

theorem ofUnits_of_rankCount_le (negative : Bool) (beyond : rankCount ≤ nearestRank num den) :
    ofUnits negative num den = .infinite negative := by
  simp only [ofUnits]
  exact dif_neg (Nat.not_lt.mpr beyond)

theorem ofUnits_of_nearestRank_eq_zero (negative : Bool) (none : nearestRank num den = 0) :
    ofUnits negative num den = zero negative := by
  simp only [ofUnits, none]
  exact dif_pos (by decide)

/-- A quotient of at most half a unit vanishes. -/
theorem nearestRank_eq_zero (positive : 0 < den) (small : 2 * num ≤ den) :
    nearestRank num den = 0 := by
  have first : middle 0 * den = den := Nat.one_mul den
  refine Nat.le_zero.mp ((nearestRank_le_iff positive).mpr ?_)
  rw [first]
  omega

variable (d : Decimal)

theorem rankCount_le_of_overflow (nonzero : d.coefficient ≠ 0) (large : overflowPlace ≤ d.place) :
    rankCount ≤ nearestRank (d.numerator * unitsPerOne) d.denominator := by
  have least := (d.coefficient_bounds nonzero).1
  obtain ⟨places, equal⟩ : ∃ places, places = 1074 := ⟨_, rfl⟩
  have exponents : 54 + (970 + places) = 1024 + places := by omega
  have powers : 309 + (-d.exponent).toNat ≤ d.digits.length - 1 + d.exponent.toNat := by
    unfold overflowPlace Decimal.place at large
    omega
  rw [← Nat.not_lt, nearestRank_lt_rankCount_iff d.denominator_pos (970 + places) (by omega),
    Nat.not_lt]
  unfold Decimal.numerator Decimal.denominator
  calc (4 * binade - 1) * 2 ^ (970 + places) * 10 ^ (-d.exponent).toNat
      ≤ 2 ^ 54 * 2 ^ (970 + places) * 10 ^ (-d.exponent).toNat := by
        gcongr
        decide
    _ = 2 ^ 1024 * (10 ^ (-d.exponent).toNat * 2 ^ places) := by
        rw [← pow_add, exponents, pow_add, Nat.mul_assoc, Nat.mul_comm (2 ^ places)]
    _ ≤ 10 ^ 309 * (10 ^ (-d.exponent).toNat * 2 ^ places) :=
        Nat.mul_le_mul_right _ (by decide +kernel)
    _ = 10 ^ (309 + (-d.exponent).toNat) * 2 ^ places := by rw [pow_add, Nat.mul_assoc]
    _ ≤ 10 ^ (d.digits.length - 1 + d.exponent.toNat) * 2 ^ places :=
        Nat.mul_le_mul_right _ (Nat.pow_le_pow_right (by decide) powers)
    _ ≤ d.coefficient * 10 ^ d.exponent.toNat * unitsPerOne := by
        rw [pow_add, unitsPerOne_eq equal]
        gcongr

theorem nearestRank_eq_zero_of_underflow (nonzero : d.coefficient ≠ 0)
    (tiny : d.place < underflowPlace) :
    nearestRank (d.numerator * unitsPerOne) d.denominator = 0 := by
  have greatest := (d.coefficient_bounds nonzero).2
  obtain ⟨places, equal⟩ : ∃ places, places = 1074 := ⟨_, rfl⟩
  have half : 2 ^ (places + 1) ≤ 10 ^ 324 := by
    rw [equal]
    decide +kernel
  have powers : d.digits.length + d.exponent.toNat + 324 ≤ (-d.exponent).toNat := by
    unfold underflowPlace Decimal.place at tiny
    omega
  refine nearestRank_eq_zero d.denominator_pos ?_
  unfold Decimal.numerator Decimal.denominator
  calc 2 * (d.coefficient * 10 ^ d.exponent.toNat * unitsPerOne)
      ≤ 2 * (10 ^ d.digits.length * 10 ^ d.exponent.toNat * 2 ^ places) := by
        rw [unitsPerOne_eq equal]
        gcongr
    _ = 10 ^ (d.digits.length + d.exponent.toNat) * 2 ^ (places + 1) := by ring
    _ ≤ 10 ^ (d.digits.length + d.exponent.toNat) * 10 ^ 324 := Nat.mul_le_mul_left _ half
    _ = 10 ^ (d.digits.length + d.exponent.toNat + 324) := (pow_add ..).symm
    _ ≤ 10 ^ (-d.exponent).toNat := Nat.pow_le_pow_right (by decide) powers

/-- A decimal is rounded as the quotient that it is, wherever its leading digit stands. -/
theorem ofDecimal_rounds :
    ofDecimal d = ofUnits d.negative (d.numerator * unitsPerOne) d.denominator := by
  by_cases none : d.coefficient = 0
  · have zero : d.numerator * unitsPerOne = 0 := by simp [Decimal.numerator, none]
    rw [zero, ofUnits_of_nearestRank_eq_zero _ (nearestRank_eq_zero d.denominator_pos (by simp))]
    simp [ofDecimal, none]
  by_cases large : overflowPlace ≤ d.place
  · rw [ofUnits_of_rankCount_le _ (rankCount_le_of_overflow d none large)]
    simp [ofDecimal, none, large]
  by_cases tiny : d.place < underflowPlace
  · rw [ofUnits_of_nearestRank_eq_zero _ (nearestRank_eq_zero_of_underflow d none tiny)]
    simp [ofDecimal, none, large, tiny]
  · exact ofDecimal_eq_ofUnits d none (Int.not_le.mp large) (Int.not_lt.mp tiny)

theorem absolute_eq_units :
    d.absolute = ((d.numerator * unitsPerOne : ℕ) : ℚ) / (d.denominator * unitsPerOne) := by
  have one : (unitsPerOne : ℚ) ≠ 0 := Nat.cast_ne_zero.mpr unitsPerOne_pos.ne'
  rw [d.absolute_eq, Nat.cast_mul, mul_div_mul_right _ _ one]

/-- Exactly the decimals below the middle after the greatest finite number are read as finite. -/
theorem isFinite_ofDecimal_iff :
    (ofDecimal d).isFinite = true ↔ d.absolute < 2 ^ 1024 - 2 ^ 970 := by
  rw [ofDecimal_rounds, isFinite_ofUnits_iff_lt _ d.denominator_pos, absolute_eq_units]

/-- A decimal that is read as finite is read as the nearest number with its sign. -/
theorem exists_isNearest (finite : (ofDecimal d).isFinite = true) :
    ∃ rank, ofDecimal d = .finite d.negative rank ∧ IsNearest d.absolute rank := by
  rw [ofDecimal_rounds] at finite ⊢
  rw [absolute_eq_units]
  exact exists_isNearest_ofUnits _ d.denominator_pos finite

end Binary64

end MiniLisp
