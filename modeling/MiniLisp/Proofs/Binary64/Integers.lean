import MiniLisp.Proofs.Binary64.Nearest

/-!
# Integers as floats

An integer is compared with a float as the float nearest to it. Rounding keeps the order of
integers but not their difference: the integers up to `2 ^ 53` have floats of their own, and only
from there on may two of them share one.
-/
namespace MiniLisp.Binary64

/-- The rank of the magnitude nearest to a natural number. -/
def rankOf (n : Nat) : Nat :=
  nearestRank (n * unitsPerOne) 1

theorem rankOf_mono : Monotone rankOf := fun m n atMost => by
  refine nearestRank_mono Nat.one_pos Nat.one_pos ?_
  rw [Nat.mul_one, Nat.mul_one]
  exact Nat.mul_le_mul_right _ atMost

/-! ### Exact integers -/

/-- A significand times a power of two is a magnitude. -/
theorem exists_units_eq (significand scale : Nat) (fits : significand < 2 * binade) :
    ∃ rank, units rank = significand * 2 ^ scale := by
  induction scale generalizing significand with
  | zero => exact ⟨_, (units_of_significand 0 significand fits (.inl rfl)).1⟩
  | succ scale ih =>
    by_cases normal : binade ≤ significand
    · exact ⟨_, (units_of_significand (scale + 1) significand fits (.inr normal)).1⟩
    · -- A small significand can take over one of the factors.
      obtain ⟨rank, equal⟩ := ih (2 * significand) (by omega)
      exact ⟨rank, by rw [equal, pow_succ]; ring⟩

theorem exists_units_eq_mul (n : Nat) (exact : n ≤ 2 * binade) :
    ∃ rank, units rank = n * unitsPerOne := by
  obtain ⟨places, equal⟩ : ∃ places, places = 1074 := ⟨_, rfl⟩
  rw [unitsPerOne_eq equal]
  rcases Nat.lt_or_eq_of_le exact with below | rfl
  · exact exists_units_eq n places below
  · obtain ⟨rank, power⟩ := exists_units_eq binade (places + 1) (by decide)
    exact ⟨rank, by rw [power, pow_succ]; ring⟩

theorem units_rankOf {n : Nat} (exact : n ≤ 2 * binade) : units (rankOf n) = n * unitsPerOne := by
  obtain ⟨rank, equal⟩ := exists_units_eq_mul n exact
  rw [rankOf, ← equal, nearestRank_units]

/-- A natural number below `2 ^ 53` shares its float with no other one. -/
theorem rankOf_lt {m n : Nat} (small : m < 2 ^ 53) (less : m < n) : rankOf m < rankOf n := by
  have half : 2 * binade = 2 ^ 53 := rfl
  refine Nat.lt_of_lt_of_le ?_ (rankOf_mono less)
  rw [← units_strictMono.lt_iff_lt, units_rankOf (by omega), units_rankOf (by omega)]
  exact Nat.mul_lt_mul_of_pos_right (Nat.lt_succ_self m) unitsPerOne_pos

theorem mul_two_pow_lt {n : Nat} (small : n ≤ 2 ^ 64) (places : Nat) :
    n * 2 ^ places < (4 * binade - 1) * 2 ^ (970 + places) * 1 :=
  calc n * 2 ^ places ≤ 2 ^ 64 * 2 ^ places := Nat.mul_le_mul_right _ small
    _ = 2 ^ (64 + places) := (pow_add ..).symm
    _ < 2 ^ (970 + places) := Nat.pow_lt_pow_right (by decide) (by omega)
    _ ≤ (4 * binade - 1) * 2 ^ (970 + places) := Nat.le_mul_of_pos_left _ (by decide)
    _ = (4 * binade - 1) * 2 ^ (970 + places) * 1 := (Nat.mul_one _).symm

theorem rankOf_lt_rankCount {n : Nat} (small : n ≤ 2 ^ 64) : rankOf n < rankCount := by
  obtain ⟨places, equal⟩ : ∃ places, places = 1074 := ⟨_, rfl⟩
  rw [rankOf, nearestRank_lt_rankCount_iff Nat.one_pos (970 + places) (by omega),
    unitsPerOne_eq equal]
  exact mul_two_pow_lt small places

/-! ### Places of integers -/

/-- The place of an integer's float in the order. -/
def position (n : ℤ) : ℤ :=
  if n < 0 then -rankOf n.natAbs else rankOf n.natAbs

theorem position?_ofUnits {num den : Nat} (negative : Bool)
    (finite : nearestRank num den < rankCount) :
    (ofUnits negative num den).position? =
      some (if negative then -(nearestRank num den : ℤ) else nearestRank num den) := by
  simp only [ofUnits, dif_pos finite, position?]

theorem position?_ofInt {n : ℤ} (small : n.natAbs ≤ 2 ^ 64) :
    (ofInt n).position? = some (position n) := by
  rw [ofInt, position?_ofUnits _ (rankOf_lt_rankCount small), position]
  simp only [decide_eq_true_eq, rankOf]

theorem position_mono {m n : ℤ} (atMost : m ≤ n) : position m ≤ position n := by
  -- Below zero the greater integer has the smaller magnitude.
  have downwards := @rankOf_mono n.natAbs m.natAbs
  have upwards := @rankOf_mono m.natAbs n.natAbs
  unfold position
  split <;> split <;> omega

theorem rankOf_pos {n : Nat} (positive : 0 < n) : 0 < rankOf n :=
  Nat.lt_of_le_of_lt (Nat.zero_le _) (rankOf_lt (by decide) positive)

/-- Integers in one place have one sign and one rank. -/
theorem position_eq {m n : ℤ} (same : position m = position n) :
    (m < 0 ↔ n < 0) ∧ rankOf m.natAbs = rankOf n.natAbs := by
  have left := @rankOf_pos m.natAbs
  have right := @rankOf_pos n.natAbs
  unfold position at same
  split at same <;> split at same <;> omega

/-- Different integers in one place are both at least `2 ^ 53` in magnitude. -/
theorem large_of_position_eq {m n : ℤ} (different : m ≠ n) (same : position m = position n) :
    2 ^ 53 ≤ m.natAbs ∧ 2 ^ 53 ≤ n.natAbs := by
  obtain ⟨sign, rank⟩ := position_eq same
  have below := @rankOf_lt m.natAbs n.natAbs
  have above := @rankOf_lt n.natAbs m.natAbs
  omega

theorem ofUnits_congr_rank {num den num' den' : Nat} (negative : Bool)
    (same : nearestRank num den = nearestRank num' den') :
    ofUnits negative num den = ofUnits negative num' den' := by
  simp only [ofUnits, same]

/-- Integers are in one place exactly if they have one float. -/
theorem position_eq_iff {m n : ℤ} (small : m.natAbs ≤ 2 ^ 64) (small' : n.natAbs ≤ 2 ^ 64) :
    position m = position n ↔ ofInt m = ofInt n := by
  constructor
  · intro same
    obtain ⟨sign, rank⟩ := position_eq same
    unfold ofInt
    simp only [sign]
    exact ofUnits_congr_rank _ rank
  · intro same
    have places := congrArg position? same
    rw [position?_ofInt small, position?_ofInt small'] at places
    exact Option.some.inj places

end MiniLisp.Binary64
