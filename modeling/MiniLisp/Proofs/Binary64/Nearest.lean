import MiniLisp.Proofs.Binary64.Shortest
import Mathlib.Algebra.Order.Field.Basic
import Mathlib.Algebra.Order.Field.Rat
import Mathlib.Tactic.FieldSimp

/-!
# The nearest magnitude

Magnitudes grow with their ranks, and the next one is always further by the step of its binade. A
quotient lies between the magnitude of the rank below it and the next one, and is rounded to one
of these two, by the side of the middle on which it lies and, in the middle, to the even rank. So
the rank of a quotient is at most a given one if and only if the quotient is below the middle
between that rank and the next, or in it and the rank is even. Everything else that is used of
rounding follows from that: it respects the order, it is rounding to the nearest, and it passes
the last rank from a certain quotient on.
-/
namespace MiniLisp.Binary64

/-! ### Magnitudes in order -/

/-- A significand below `2 ^ 53`, at least `2 ^ 52` unless the distances are still single units,
has its rank in the binade of its distances. -/
theorem units_of_significand (scale significand : Nat) (fits : significand < 2 * binade)
    (normal : scale = 0 ∨ binade ≤ significand) :
    units (scale * binade + significand) = significand * 2 ^ scale ∧
      (scale * binade + significand) / binade - 1 = scale := by
  have positive : 0 < binade := by decide
  by_cases small : significand < binade
  · -- Below the first binade a rank is its own number of units.
    obtain rfl : scale = 0 := by omega
    rw [Nat.zero_mul, Nat.zero_add, Nat.div_eq_of_lt small]
    simp [units, small]
  · obtain ⟨rest, rfl⟩ : ∃ rest, significand = binade + rest := ⟨significand - binade, by omega⟩
    have below : rest < binade := by omega
    have rebuilt : scale * binade + (binade + rest) = rest + binade * (scale + 1) := by ring
    have high : ¬ rest + binade * (scale + 1) < binade := by
      rw [Nat.mul_succ]
      omega
    have quotient : (rest + binade * (scale + 1)) / binade = scale + 1 := by
      rw [Nat.add_mul_div_left _ _ positive, Nat.div_eq_of_lt below, Nat.zero_add]
    have remainder : (rest + binade * (scale + 1)) % binade = rest := by
      rw [Nat.add_mul_mod_self_left, Nat.mod_eq_of_lt below]
    rw [rebuilt, units, if_neg high, quotient, remainder]
    exact ⟨rfl, rfl⟩

/-- Every rank is that of a significand. -/
theorem exists_significand (rank : Nat) :
    ∃ scale significand, rank = scale * binade + significand ∧ significand < 2 * binade ∧
      (scale = 0 ∨ binade ≤ significand) := by
  by_cases small : rank < 2 * binade
  · exact ⟨0, rank, by omega, small, .inl rfl⟩
  · have positive : 0 < binade := by decide
    have below := Nat.mod_lt rank positive
    have doubled : 1 ≤ rank / binade := (Nat.one_le_div_iff positive).mpr (by omega)
    refine ⟨rank / binade - 1, binade + rank % binade, ?_, by omega, .inr (by omega)⟩
    calc rank = rank / binade * binade + rank % binade := (Nat.div_add_mod' rank binade).symm
      _ = (rank / binade - 1 + 1) * binade + rank % binade := by rw [Nat.sub_add_cancel doubled]
      _ = (rank / binade - 1) * binade + (binade + rank % binade) := by ring

/-- The next magnitude is one step of the binade further. -/
theorem units_succ (rank : Nat) :
    units (rank + 1) = units rank + 2 ^ (rank / binade - 1) := by
  obtain ⟨scale, significand, rfl, fits, normal⟩ := exists_significand rank
  obtain ⟨magnitude, distance⟩ := units_of_significand scale significand fits normal
  rw [magnitude, distance]
  by_cases last : significand + 1 = 2 * binade
  · -- After the last significand comes the first one of the next binade.
    have next := (units_of_significand (scale + 1) binade (by decide) (.inr (Nat.le_refl _))).1
    have first : scale * binade + significand + 1 = (scale + 1) * binade + binade := by
      have carried : (scale + 1) * binade = scale * binade + binade := Nat.succ_mul scale binade
      omega
    calc units (scale * binade + significand + 1)
        = 2 * binade * 2 ^ scale := by
          rw [first, next]
          ring
      _ = significand * 2 ^ scale + 2 ^ scale := by
          rw [← last]
          ring
  · have next := (units_of_significand scale (significand + 1) (by omega) (by omega)).1
    rw [Nat.add_assoc, next]
    ring

theorem units_strictMono : StrictMono units :=
  strictMono_nat_of_lt_succ fun rank => by
    rw [units_succ]
    exact Nat.lt_add_of_pos_right (Nat.two_pow_pos _)

/-! ### Quotients between magnitudes -/

/-- Twice the middle between the magnitude of a rank and the next one. -/
def middle (rank : Nat) : Nat :=
  units rank + units (rank + 1)

variable {num den : Nat}

/-- The digits of a quotient that are kept are those of a significand. -/
theorem significand_of_quotient (n : Nat) :
    n / 2 ^ doublings n < 2 * binade ∧ (doublings n = 0 ∨ binade ≤ n / 2 ^ doublings n) := by
  have half : binade = 2 ^ 52 := rfl
  by_cases zero : n = 0
  · subst zero
    exact ⟨by decide, .inl (by decide)⟩
  · have least : 2 ^ n.log2 ≤ n := Nat.log2_self_le zero
    have greatest : n < 2 ^ (n.log2 + 1) := Nat.lt_log2_self
    have positive := Nat.two_pow_pos (doublings n)
    constructor
    · rw [Nat.div_lt_iff_lt_mul positive]
      calc n < 2 ^ (n.log2 + 1) := greatest
        _ ≤ 2 ^ (53 + doublings n) := Nat.pow_le_pow_right (by decide) (by unfold doublings; omega)
        _ = 2 * binade * 2 ^ doublings n := by rw [half]; ring
    · by_cases small : doublings n = 0
      · exact .inl small
      · right
        rw [Nat.le_div_iff_mul_le positive]
        calc binade * 2 ^ doublings n = 2 ^ (52 + doublings n) := by rw [half]; ring
          _ ≤ 2 ^ n.log2 := Nat.pow_le_pow_right (by decide) (by unfold doublings at *; omega)
          _ ≤ n := least

/-- A quotient lies between a magnitude and the next one, and its rank is that of one of them: of
the upper one beyond the middle, and in the middle if the rank of the lower one is odd. -/
theorem nearestRank_cases (positive : 0 < den) :
    ∃ below, units below * den ≤ num ∧ num < units (below + 1) * den ∧
      nearestRank num den =
        if middle below * den < 2 * num ∨ middle below * den = 2 * num ∧ below % 2 = 1
        then below + 1 else below := by
  let scale := doublings (num / den)
  let step := den * 2 ^ scale
  have whole : num / step = num / den / 2 ^ scale := by rw [Nat.div_div_eq_div_mul]
  obtain ⟨fits, normal⟩ := significand_of_quotient (num / den)
  obtain ⟨magnitude, distance⟩ := units_of_significand scale (num / step) (by rwa [whole])
    (by rwa [whole])
  let below := scale * binade + num / step
  have lower : units below * den = step * (num / step) := by
    rw [magnitude]
    ring
  have upper : units (below + 1) * den = step * (num / step) + step := by
    rw [units_succ, distance, Nat.add_mul, lower]
    ring
  have split : step * (num / step) + num % step = num := Nat.div_add_mod num step
  have rest : num % step < step := Nat.mod_lt num (Nat.mul_pos positive (Nat.two_pow_pos scale))
  have twice : middle below * den = 2 * (step * (num / step)) + step := by
    rw [middle, Nat.add_mul, lower, upper]
    ring
  refine ⟨below, by omega, by omega, ?_⟩
  have rounded : nearestRank num den =
      if 2 * (num % step) > step ∨ 2 * (num % step) = step ∧ below % 2 = 1
      then below + 1 else below := rfl
  rw [rounded, twice]
  have beyond : 2 * (num % step) > step ↔ 2 * (step * (num / step)) + step < 2 * num := by omega
  have inside : 2 * (num % step) = step ↔ 2 * (step * (num / step)) + step = 2 * num := by omega
  simp only [beyond, inside]

/-- Which quotients have at most a given rank. -/
theorem nearestRank_le_iff (positive : 0 < den) {rank : Nat} :
    nearestRank num den ≤ rank ↔
      2 * num < middle rank * den ∨ 2 * num = middle rank * den ∧ rank % 2 = 0 := by
  obtain ⟨below, lower, upper, rounded⟩ := @nearestRank_cases num den positive
  rw [rounded]
  rcases lt_trichotomy rank below with less | same | greater
  · -- The middle after the rank is not beyond the lower magnitude.
    have middles : middle rank * den < 2 * (units below * den) := by
      rw [← Nat.mul_assoc]
      refine Nat.mul_lt_mul_of_pos_right ?_ positive
      have lowest : units rank < units below := units_strictMono less
      have next : units (rank + 1) ≤ units below := units_strictMono.monotone less
      unfold middle
      omega
    split <;> omega
  · subst same
    split <;> omega
  · -- The middle after the rank is beyond the upper magnitude.
    have middles : 2 * (units (below + 1) * den) < middle rank * den := by
      rw [← Nat.mul_assoc]
      refine Nat.mul_lt_mul_of_pos_right ?_ positive
      have next : units (below + 1) ≤ units rank := units_strictMono.monotone greater
      have highest : units rank < units (rank + 1) := units_strictMono (Nat.lt_succ_self rank)
      unfold middle
      omega
    split <;> omega

/-- Rounding respects the order of quotients. -/
theorem nearestRank_mono {num' den' : Nat} (positive : 0 < den) (positive' : 0 < den')
    (atMost : num * den' ≤ num' * den) : nearestRank num den ≤ nearestRank num' den' := by
  have upper := (nearestRank_le_iff positive').mp (Nat.le_refl (nearestRank num' den'))
  generalize nearestRank num' den' = rank at upper
  rw [nearestRank_le_iff positive]
  -- The common denominator cancels again after the comparison.
  have scaled : 2 * num * den' ≤ 2 * num' * den := by
    rw [Nat.mul_assoc, Nat.mul_assoc]
    exact Nat.mul_le_mul_left 2 atMost
  have swap : middle rank * den' * den = middle rank * den * den' := Nat.mul_right_comm ..
  rcases upper with below | ⟨inside, even⟩
  · left
    refine Nat.lt_of_mul_lt_mul_right (a := den') ?_
    calc 2 * num * den' ≤ 2 * num' * den := scaled
      _ < middle rank * den' * den := Nat.mul_lt_mul_of_pos_right below positive
      _ = middle rank * den * den' := swap
  · rw [inside, swap] at scaled
    have atMiddle := Nat.le_of_mul_le_mul_right scaled positive'
    omega

/-! ### The nearest rank -/

/-- The magnitude of the rank of a quotient is at least as near to it as any other one, and nearer
than any other one if the rank is odd. -/
theorem distance_nearestRank (positive : 0 < den) {other : Nat}
    (different : other ≠ nearestRank num den) :
    |(num : ℤ) - units (nearestRank num den) * den| ≤ |(num : ℤ) - units other * den| ∧
      (|(num : ℤ) - units (nearestRank num den) * den| = |(num : ℤ) - units other * den| →
        nearestRank num den % 2 = 0) := by
  obtain ⟨below, lower, upper, rounded⟩ := @nearestRank_cases num den positive
  have twice : middle below * den = units below * den + units (below + 1) * den := Nat.add_mul ..
  -- Any other magnitude lies beyond one of the two that enclose the quotient.
  have outside : other ≤ below ∧ units other * den ≤ units below * den ∨
      below + 1 ≤ other ∧ units (below + 1) * den ≤ units other * den := by
    rcases Nat.lt_or_ge below other with greater | atMost
    · exact .inr ⟨greater, Nat.mul_le_mul_right _ (units_strictMono.monotone greater)⟩
    · exact .inl ⟨atMost, Nat.mul_le_mul_right _ (units_strictMono.monotone atMost)⟩
  have strict : other < below → units other * den < units below * den := fun less =>
    Nat.mul_lt_mul_of_pos_right (units_strictMono less) positive
  have strict' : below + 1 < other → units (below + 1) * den < units other * den := fun less =>
    Nat.mul_lt_mul_of_pos_right (units_strictMono less) positive
  have least : |(num : ℤ) - units below * den| = num - units below * den :=
    abs_of_nonneg (by omega)
  have greatest : |(num : ℤ) - units (below + 1) * den| = units (below + 1) * den - num := by
    rw [abs_sub_comm]
    exact abs_of_nonneg (by omega)
  have distance : |(num : ℤ) - units other * den| =
      if other ≤ below then (num : ℤ) - units other * den else units other * den - num := by
    split
    · exact abs_of_nonneg (by omega)
    · rw [abs_sub_comm]
      exact abs_of_nonneg (by omega)
  rw [rounded, twice] at different ⊢
  split at different
  next up =>
    rw [if_pos up, greatest, distance]
    split <;> omega
  next down =>
    rw [if_neg down, least, distance]
    split <;> omega

/-- The magnitude of a rank as a number. -/
def magnitude (rank : Nat) : ℚ :=
  units rank / unitsPerOne

/-- A rank is the nearest to a value: no other magnitude is nearer to it, and if another one is
just as near the rank is even. -/
def IsNearest (value : ℚ) (rank : Nat) : Prop :=
  ∀ other, other ≠ rank → |value - magnitude rank| ≤ |value - magnitude other| ∧
    (|value - magnitude rank| = |value - magnitude other| → rank % 2 = 0)

theorem unitsPerOne_pos : 0 < unitsPerOne := by
  obtain ⟨places, equal⟩ : ∃ places, places = 1074 := ⟨_, rfl⟩
  rw [unitsPerOne_eq equal]
  exact Nat.two_pow_pos places

theorem magnitude_strictMono : StrictMono magnitude := fun rank other less => by
  have one : (0 : ℚ) < unitsPerOne := Nat.cast_pos.mpr unitsPerOne_pos
  exact div_lt_div_of_pos_right (Nat.cast_lt.mpr (units_strictMono less)) one

theorem IsNearest.not_lt {value : ℚ} {rank other : Nat} (nearest : IsNearest value rank)
    (nearest' : IsNearest value other) : ¬ rank < other := by
  intro less
  obtain ⟨atMost, tie⟩ := nearest other less.ne'
  obtain ⟨atLeast, tie'⟩ := nearest' rank less.ne
  have same := le_antisymm atMost atLeast
  have even := tie same
  have even' := tie' same.symm
  -- The odd rank after the lower one would be nearer than both.
  have between := (nearest (rank + 1) (by omega)).1
  have low : magnitude rank < magnitude (rank + 1) := magnitude_strictMono (by omega)
  have high : magnitude (rank + 1) < magnitude other := magnitude_strictMono (by omega)
  grind

/-- At most one rank is the nearest to a value. -/
theorem IsNearest.unique {value : ℚ} {rank other : Nat} (nearest : IsNearest value rank)
    (nearest' : IsNearest value other) : rank = other :=
  Nat.le_antisymm (Nat.not_lt.mp (nearest'.not_lt nearest))
    (Nat.not_lt.mp (nearest.not_lt nearest'))

theorem isNearest_nearestRank (positive : 0 < den) :
    IsNearest (num / (den * unitsPerOne)) (nearestRank num den) := by
  have one : (0 : ℚ) < unitsPerOne := Nat.cast_pos.mpr unitsPerOne_pos
  have bottom : (0 : ℚ) < den := Nat.cast_pos.mpr positive
  unfold IsNearest magnitude
  generalize (unitsPerOne : ℚ) = unit at one
  have whole : 0 < den * unit := mul_pos bottom one
  have counted : ∀ rank, |(num : ℚ) / (den * unit) - units rank / unit| =
      |((num - units rank * den : ℤ) : ℚ)| / (den * unit) := fun rank => by
    have apart : (num : ℚ) / (den * unit) - units rank / unit =
        ((num - units rank * den : ℤ) : ℚ) / (den * unit) := by
      push_cast
      field_simp
    rw [apart, abs_div, abs_of_pos whole]
  intro other different
  rw [counted, counted, div_le_div_iff_of_pos_right whole, div_left_inj' whole.ne']
  simp only [← Int.cast_abs, Int.cast_le, Int.cast_inj]
  exact distance_nearestRank positive different

/-! ### The last rank -/

/-- Twice the middle between the last magnitude and the one that would follow it. -/
theorem middle_last (top : Nat) (equal : top = 2045) :
    middle (rankCount - 1) = (4 * binade - 1) * 2 ^ top := by
  have positive : 0 < binade := by decide
  have count : rankCount = 2047 * binade := rfl
  have last : rankCount - 1 = top * binade + (2 * binade - 1) := by
    subst equal
    omega
  have next : rankCount - 1 + 1 = (top + 1) * binade + binade := by
    subst equal
    omega
  have exact := (units_of_significand top (2 * binade - 1) (by omega) (by omega)).1
  have power := (units_of_significand (top + 1) binade (by omega) (by omega)).1
  have split : 4 * binade - 1 = 2 * binade - 1 + 2 * binade := by omega
  calc middle (rankCount - 1)
      = (2 * binade - 1) * 2 ^ top + binade * 2 ^ (top + 1) := by
        rw [middle, next, power, last, exact]
    _ = (4 * binade - 1) * 2 ^ top := by
        rw [split]
        ring

theorem nearestRank_lt_rankCount_iff (positive : 0 < den) (half : Nat) (equal : half = 2044) :
    nearestRank num den < rankCount ↔ num < (4 * binade - 1) * 2 ^ half * den := by
  have count : rankCount - 1 + 1 = rankCount := rfl
  have odd : (rankCount - 1) % 2 = 1 := by decide
  have twice : (4 * binade - 1) * 2 ^ (half + 1) * den =
      2 * ((4 * binade - 1) * 2 ^ half * den) := by ring
  rw [← count, Nat.lt_succ_iff, nearestRank_le_iff positive,
    middle_last (half + 1) (by omega), twice]
  omega

theorem isFinite_ofUnits_iff (negative : Bool) :
    (ofUnits negative num den).isFinite = true ↔ nearestRank num den < rankCount := by
  simp only [ofUnits]
  split <;> simp [isFinite, *]

/-- Exactly the values below the middle after the greatest finite number are rounded to a finite
one. -/
theorem isFinite_ofUnits_iff_lt (negative : Bool) (positive : 0 < den) :
    (ofUnits negative num den).isFinite = true ↔
      (num : ℚ) / (den * unitsPerOne) < 2 ^ 1024 - 2 ^ 970 := by
  obtain ⟨places, equal⟩ : ∃ places, places = 1074 := ⟨_, rfl⟩
  obtain ⟨high, exponent⟩ : ∃ high, high = 970 := ⟨_, rfl⟩
  have bottom : (0 : ℚ) < den * 2 ^ places := by positivity
  have quarter : 4 * binade - 1 = 2 ^ 54 - 1 := rfl
  have bound : (2 ^ 1024 - 2 ^ 970 : ℚ) = (2 ^ 54 - 1) * 2 ^ high := by
    rw [sub_one_mul, ← pow_add, exponent]
  have same : (2 ^ 54 - 1 : ℚ) * 2 ^ high * (den * 2 ^ places) =
      ((2 ^ 54 - 1) * 2 ^ (high + places) * den : ℕ) := by
    push_cast
    rw [pow_add]
    ring
  rw [isFinite_ofUnits_iff, nearestRank_lt_rankCount_iff positive (high + places) (by omega),
    unitsPerOne_eq equal, bound, Nat.cast_pow, Nat.cast_ofNat, div_lt_iff₀ bottom, quarter, same,
    Nat.cast_lt]

/-- A quotient that is rounded to a finite number is rounded to the nearest one. -/
theorem exists_isNearest_ofUnits (negative : Bool) (positive : 0 < den)
    (finite : (ofUnits negative num den).isFinite = true) :
    ∃ rank, ofUnits negative num den = .finite negative rank ∧
      IsNearest (num / (den * unitsPerOne)) rank :=
  ⟨⟨nearestRank num den, (isFinite_ofUnits_iff negative).mp finite⟩, dif_pos _,
    isNearest_nearestRank positive⟩

end MiniLisp.Binary64
