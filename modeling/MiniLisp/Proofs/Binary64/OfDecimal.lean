import MiniLisp.Binary64.Shortest
import MiniLisp.Proofs.Binary64.Rounding
import Mathlib.Tactic.Positivity

/-!
# Decimals of one value

One number has many decimals, since zeros can be moved between the coefficient and the power of
ten. Rounding to a binary number does not tell them apart, neither in the quotient that is rounded
nor in the place of the leading digit, by which overflow and underflow are recognised. The sign
goes through rounding untouched. The exact decimal of a magnitude rounds to that magnitude, so
the search for the shortest decimal always ends with one that rounds back.
-/
namespace MiniLisp

namespace Decimal

/-- Two decimals denote the same number: with enough zeros at the end of either coefficient they
become one decimal. -/
def Same (a b : Decimal) : Prop :=
  a.negative = b.negative ∧ ∃ j k : Nat,
    a.coefficient * 10 ^ j = b.coefficient * 10 ^ k ∧ a.exponent - j = b.exponent - k

theorem length_toDigits_mul_pow (c k : Nat) (nonzero : c ≠ 0) :
    (Nat.toDigits 10 (c * 10 ^ k)).length = (Nat.toDigits 10 c).length + k := by
  induction k with
  | zero => simp
  | succ k ih =>
    have positive : 0 < c * 10 ^ k := Nat.mul_pos (Nat.pos_iff_ne_zero.mpr nonzero) (by positivity)
    have longer : Nat.toDigits 10 (c * 10 ^ (k + 1)) =
        Nat.toDigits 10 (c * 10 ^ k) ++ Nat.toDigits 10 0 := by
      rw [Nat.toDigits_append_toDigits (by decide) positive (by decide)]
      congr 1
      ring
    rw [longer, List.length_append, ih]
    rfl

theorem place_shift (negative : Bool) (c k : Nat) (e : Int) (nonzero : c ≠ 0) :
    place ⟨negative, c * 10 ^ k, e⟩ = place ⟨negative, c, e + k⟩ := by
  simp only [place, digits, length_toDigits_mul_pow c k nonzero, Nat.cast_add]
  ring

end Decimal

namespace Binary64

/-- The number of units of a decimal as one quotient, whichever sign its exponent has. -/
theorem ofDecimal_eq_ofUnits (d : Decimal) (nonzero : d.coefficient ≠ 0)
    (fits : d.place < overflowPlace) (visible : underflowPlace ≤ d.place) :
    ofDecimal d = ofUnits d.negative (d.coefficient * 10 ^ d.exponent.toNat * unitsPerOne)
      (10 ^ (-d.exponent).toNat) := by
  unfold ofDecimal
  rw [if_neg nonzero, if_neg (Int.not_le.mpr fits), if_neg (Int.not_lt.mpr visible)]
  -- One of the two powers is the power of zero.
  obtain ⟨negative, coefficient, exponent⟩ := d
  cases exponent with
  | ofNat up => simp
  | negSucc down => simp [Int.neg_negSucc]

/-- Zeros at the end of a coefficient count as much as the exponent does. -/
theorem ofDecimal_shift (negative : Bool) (c k : Nat) (e : Int) :
    ofDecimal ⟨negative, c * 10 ^ k, e⟩ = ofDecimal ⟨negative, c, e + k⟩ := by
  by_cases zero : c = 0
  · simp [ofDecimal, zero]
  have nonzero : c * 10 ^ k ≠ 0 := Nat.mul_ne_zero zero (by positivity)
  -- The place of the leading digit is the same, so both overflow, or both underflow, or neither.
  have place := Decimal.place_shift negative c k e zero
  by_cases large : overflowPlace ≤ Decimal.place ⟨negative, c, e + k⟩
  · simp [ofDecimal, zero, place, large]
  by_cases tiny : Decimal.place ⟨negative, c, e + k⟩ < underflowPlace
  · simp [ofDecimal, zero, place, large, tiny]
  rw [ofDecimal_eq_ofUnits _ nonzero (by omega) (by omega),
    ofDecimal_eq_ofUnits _ zero (by omega) (by omega)]
  refine ofUnits_congr _ (by positivity) (by positivity) ?_
  -- Whatever signs the exponents have, the powers of ten on both sides multiply to the same.
  have exponents : k + e.toNat + (-(e + k)).toNat = (e + k).toNat + (-e).toNat := by omega
  calc c * 10 ^ k * 10 ^ e.toNat * unitsPerOne * 10 ^ (-(e + k)).toNat
      = c * unitsPerOne * 10 ^ (k + e.toNat + (-(e + k)).toNat) := by ring
    _ = c * unitsPerOne * 10 ^ ((e + k).toNat + (-e).toNat) := by rw [exponents]
    _ = c * 10 ^ (e + k).toNat * unitsPerOne * 10 ^ (-e).toNat := by ring

/-- Rounding looks only at the number that a decimal denotes. -/
theorem ofDecimal_congr {a b : Decimal} (same : a.Same b) : ofDecimal a = ofDecimal b := by
  obtain ⟨sign, j, k, coefficients, exponents⟩ := same
  obtain ⟨negative, c, e⟩ := a
  obtain ⟨negative', c', e'⟩ := b
  simp only at sign coefficients exponents
  subst sign
  -- Through the one decimal that both become with enough zeros.
  calc ofDecimal ⟨negative, c, e⟩
      = ofDecimal ⟨negative, c, e - j + j⟩ := by rw [Int.sub_add_cancel]
    _ = ofDecimal ⟨negative, c * 10 ^ j, e - j⟩ := (ofDecimal_shift negative c j (e - j)).symm
    _ = ofDecimal ⟨negative, c' * 10 ^ k, e' - k⟩ := by rw [coefficients, exponents]
    _ = ofDecimal ⟨negative, c', e' - k + k⟩ := ofDecimal_shift negative c' k (e' - k)
    _ = ofDecimal ⟨negative, c', e'⟩ := by rw [Int.sub_add_cancel]

theorem ofUnits_eq_finite_false {num den : Nat} {rank : Fin rankCount}
    (rounds : ofUnits false num den = .finite false rank) (negative : Bool) :
    ofUnits negative num den = .finite negative rank := by
  simp only [ofUnits] at rounds ⊢
  split at rounds
  next below =>
    simp only [finite.injEq, true_and] at rounds
    simp only [dif_pos below, rounds]
  next => simp at rounds

theorem ofDecimal_sign {c : Nat} {e : Int} {rank : Fin rankCount}
    (rounds : ofDecimal ⟨false, c, e⟩ = .finite false rank) (negative : Bool) :
    ofDecimal ⟨negative, c, e⟩ = .finite negative rank := by
  have place : Decimal.place ⟨negative, c, e⟩ = Decimal.place ⟨false, c, e⟩ := rfl
  -- The sign decides no case.
  unfold ofDecimal at rounds ⊢
  rw [place]
  split at rounds
  next =>
    simp only [zero, finite.injEq, true_and] at rounds
    rw [if_pos (by assumption), zero, rounds]
  next nonzero =>
    rw [if_neg nonzero]
    split at rounds
    next => simp at rounds
    next fits =>
      rw [if_neg fits]
      split at rounds
      next =>
        simp only [zero, finite.injEq, true_and] at rounds
        rw [if_pos (by assumption), zero, rounds]
      next visible =>
        rw [if_neg visible]
        cases e with
        | ofNat up => exact ofUnits_eq_finite_false rounds negative
        | negSucc down => exact ofUnits_eq_finite_false rounds negative

end Binary64

end MiniLisp
