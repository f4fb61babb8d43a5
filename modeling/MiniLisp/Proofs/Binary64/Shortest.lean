import MiniLisp.Proofs.Binary64.OfDecimal

/-!
# The shortest decimal rounds back

Whatever the search for a short decimal finds has been tried and rounds to the magnitude. If it
found nothing the exact decimal would be taken, and that one rounds back because its quotient is
the magnitude itself. Its leading digit stands where neither overflow nor underflow is suspected:
every magnitude is below `2 ^ 1024` and, unless it is zero, at least one unit.
-/
namespace MiniLisp.Binary64

theorem units_pos (rank : Nat) (nonzero : rank ≠ 0) : 0 < units rank := by
  unfold units
  split
  · exact Nat.pos_of_ne_zero nonzero
  · exact Nat.mul_pos (Nat.add_pos_left (by decide) _) (Nat.two_pow_pos _)

theorem units_lt (rank : Fin rankCount) {bits : Nat} (enough : 2098 ≤ bits) :
    units rank < 2 ^ bits := by
  have doubled : rank.val / binade < 2047 :=
    (Nat.div_lt_iff_lt_mul (by decide)).mpr rank.isLt
  have below := Nat.mod_lt rank.val (show 0 < binade by decide)
  have half : binade = 2 ^ 52 := rfl
  unfold units
  -- At most 53 bits, shifted at most 2045 times.
  split
  next small =>
    calc rank.val < 2 ^ 52 := by rw [← half]; exact small
      _ ≤ 2 ^ bits := Nat.pow_le_pow_right (by decide) (by omega)
  next =>
    calc (binade + rank.val % binade) * Nat.pow 2 (rank.val / binade - 1)
        < 2 ^ 53 * 2 ^ (rank.val / binade - 1) :=
          Nat.mul_lt_mul_of_pos_right (by omega) (Nat.two_pow_pos _)
      _ = 2 ^ (53 + (rank.val / binade - 1)) := (pow_add 2 53 _).symm
      _ ≤ 2 ^ bits := Nat.pow_le_pow_right (by decide) (by omega)

/-! ### The exact decimal

The powers here are too large to be computed while a proof is elaborated. Their exponents are
therefore variables in the lemmas, and only two comparisons are left to the kernel. -/

theorem natPow_eq_pow (base exponent : Nat) : Nat.pow base exponent = base ^ exponent := rfl

theorem unitsPerOne_eq {places : Nat} (equal : places = 1074) : unitsPerOne = 2 ^ places := by
  delta unitsPerOne
  rw [← equal, natPow_eq_pow]

theorem exactDecimal_coefficient {places : Nat} (equal : places = 1074) (rank : Nat) :
    (exactDecimal rank).coefficient = units rank * 5 ^ places := by
  delta exactDecimal
  dsimp only
  rw [← equal, natPow_eq_pow]

/-- What is below `2 ^ 1024` is below `10 ^ 309`, also when both are counted in units. -/
theorem mul_pow_five_lt {n places : Nat} (below : n < 2 ^ (1024 + places)) :
    n * 5 ^ places < 10 ^ (309 + places) :=
  calc n * 5 ^ places
      < 2 ^ (1024 + places) * 5 ^ places :=
        Nat.mul_lt_mul_of_pos_right below (Nat.pow_pos (by decide))
    _ = 2 ^ 1024 * (2 * 5) ^ places := by rw [pow_add, Nat.mul_pow, Nat.mul_assoc]
    _ ≤ 10 ^ 309 * 10 ^ places := Nat.mul_le_mul_right _ (by decide +kernel)
    _ = 10 ^ (309 + places) := (pow_add 10 309 places).symm

theorem length_toDigits_le {n k : Nat} (positive : 0 < k) (below : n < 10 ^ k) :
    (Nat.toDigits 10 n).length ≤ k :=
  (Nat.length_toDigits_le_iff (by decide) positive).mpr below

theorem lt_length_toDigits {n k : Nat} (positive : 0 < k) (large : 10 ^ k ≤ n) :
    k < (Nat.toDigits 10 n).length := by
  refine Nat.lt_of_not_le fun few => ?_
  have small := (Nat.length_toDigits_le_iff (by decide) positive).mp few
  exact Nat.not_lt.mpr large small

/-- Unless the magnitude is zero its exact coefficient has between 751 and 1383 digits. -/
theorem length_digits_exactDecimal (rank : Fin rankCount) (nonzero : rank.val ≠ 0) :
    750 < (exactDecimal rank).digits.length ∧
      (exactDecimal rank).digits.length ≤ 309 + 1074 := by
  unfold Decimal.digits
  rw [exactDecimal_coefficient rfl]
  constructor
  · refine lt_length_toDigits (by decide) ?_
    calc 10 ^ 750 ≤ 5 ^ 1074 := by decide +kernel
      _ ≤ units rank * 5 ^ 1074 := Nat.le_mul_of_pos_left _ (units_pos rank nonzero)
  · exact length_toDigits_le (by decide) (mul_pow_five_lt (units_lt rank (by decide)))

theorem ofUnits_tens (rank : Fin rankCount) (places : Nat) :
    ofUnits false (units rank * 5 ^ places * 10 ^ 0 * 2 ^ places) (10 ^ places) =
      .finite false rank := by
  refine ofUnits_units false rank (by positivity) ?_
  rw [Nat.pow_zero, Nat.mul_one, Nat.mul_assoc, ← Nat.mul_pow]

theorem ofDecimal_exactDecimal (rank : Fin rankCount) (nonzero : rank.val ≠ 0) :
    ofDecimal (exactDecimal rank) = .finite false rank := by
  -- From the number of digits, neither overflow nor underflow is suspected.
  obtain ⟨lower, upper⟩ := length_digits_exactDecimal rank nonzero
  have place : (exactDecimal rank).place = -1074 + (exactDecimal rank).digits.length - 1 := rfl
  -- The exponent is hidden from here on, or `10 ^ 1074` would be computed.
  obtain ⟨places, equal⟩ : ∃ places, places = 1074 := ⟨_, rfl⟩
  have coefficient := exactDecimal_coefficient equal rank
  have down : (-(exactDecimal rank).exponent).toNat = places := equal.symm
  have nonzero_coefficient : (exactDecimal rank).coefficient ≠ 0 := by
    rw [coefficient]
    exact Nat.mul_ne_zero (Nat.pos_iff_ne_zero.mp (units_pos rank nonzero)) (by positivity)
  rw [ofDecimal_eq_ofUnits _ nonzero_coefficient (by unfold overflowPlace; omega)
    (by unfold underflowPlace; omega), coefficient, down, unitsPerOne_eq equal]
  exact ofUnits_tens rank places

/-- Whatever property the candidates of the search and the exact decimal have, the shortest
decimal of a magnitude other than zero has. -/
theorem shortest_induction (rank : Fin rankCount) (nonzero : rank.val ≠ 0) {P : Decimal → Prop}
    (exact : P (exactDecimal rank))
    (tried : ∀ dropped, ∀ d ∈ neighbours (exactDecimal rank).coefficient dropped,
      roundsTo rank d = true → P d) :
    P (shortest rank) := by
  unfold shortest
  simp only [if_neg nonzero]
  cases found : (List.range' 1 17).findSome? fun count =>
      (neighbours (exactDecimal rank).coefficient
        ((exactDecimal rank).digits.length - count)).find? (roundsTo rank) with
  | none => exact exact
  | some d =>
    obtain ⟨count, _, hit⟩ := List.exists_of_findSome?_eq_some found
    exact tried _ d (List.mem_of_find?_eq_some hit) (List.find?_some hit)

theorem ofDecimal_shortest (rank : Fin rankCount) :
    ofDecimal (shortest rank) = .finite false rank := by
  by_cases zero : rank.val = 0
  · have equal : rank = ⟨0, by decide⟩ := Fin.ext zero
    subst equal
    rfl
  · refine shortest_induction rank zero (P := fun d => ofDecimal d = .finite false rank)
      (ofDecimal_exactDecimal rank zero) ?_
    intro dropped d _ rounds
    simpa [roundsTo] using rounds

theorem shortest_negative (rank : Fin rankCount) : (shortest rank).negative = false := by
  by_cases zero : rank.val = 0
  · simp [shortest, zero]
  · refine shortest_induction rank zero (P := fun d => d.negative = false) rfl ?_
    intro dropped d member _
    unfold neighbours at member
    simp only at member
    split at member <;> simp only [List.mem_cons, List.not_mem_nil, or_false] at member <;>
      rcases member with rfl | rfl <;> rfl

/-- The digits of a magnitude, written with either sign, give the number back. -/
theorem ofDecimal_signed_shortest (negative : Bool) (rank : Fin rankCount) :
    ofDecimal ⟨negative, (shortest rank).coefficient, (shortest rank).exponent⟩ =
      .finite negative rank := by
  refine ofDecimal_sign ?_ negative
  have rounds := ofDecimal_shortest rank
  cases digits : shortest rank with
  | mk sign coefficient exponent =>
    have unsigned : sign = false := by simpa [digits] using shortest_negative rank
    rw [digits, unsigned] at rounds
    exact rounds

end MiniLisp.Binary64
