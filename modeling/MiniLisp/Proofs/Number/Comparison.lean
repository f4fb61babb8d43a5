import MiniLisp.Proofs.Binary64.Integers
import MiniLisp.Proofs.Primitive.Arithmetic

/-!
# Comparison of numbers

Two integers are compared exactly, and a float with anything else by the places of floats, for
which an integer is rounded. Either way a comparison looks at the sign of one difference, the
gap. Between any two numbers exactly one of the three orders holds, and less-than is transitive
across all mixtures of kinds, because rounding keeps the order of integers. Equality is not:
different integers may round to one float and are then both equal to it. Those pairs are the only
exceptions to its transitivity, to that of less-or-equal and to its agreement with less-than, and
both integers of such a pair are at least `2 ^ 53` in magnitude.
-/
namespace MiniLisp

namespace Number

/-- All numbers but the floats that are not a number. -/
def IsOrdered : Number → Prop
  | .integer _ => True
  | .float x => x ≠ .nan

/-- The place of a number among the floats, for an integer that of the nearest one. -/
def place : Number → ℤ
  | .integer n => Binary64.position n.toInt
  | .float x => x.position?.getD 0

/-- How far the second number lies above the first one, in the way in which they are compared. -/
def gap : Number → Number → ℤ
  | .integer m, .integer n => n.toInt - m.toInt
  | x, y => y.place - x.place

variable {x y z : Number}

theorem natAbs_toInt_le (n : Int64) : n.toInt.natAbs ≤ 2 ^ 64 := by
  have least := n.le_toInt
  have greatest := n.toInt_lt
  omega

theorem position?_toFloat (ordered : x.IsOrdered) : x.toFloat.position? = some x.place := by
  cases x with
  | integer n => exact Binary64.position?_ofInt (natAbs_toInt_le n)
  | float x =>
    cases x with
    | nan => exact absurd rfl ordered
    | infinite _ => rfl
    | finite _ _ => rfl

theorem compare_eq_sub (m n : ℤ) : compare m n = compare 0 (n - m) := by
  rcases lt_trichotomy m n with less | same | greater
  · rw [compare_lt_iff_lt.mpr less, compare_lt_iff_lt.mpr (by omega)]
  · rw [compare_eq_iff_eq.mpr same, compare_eq_iff_eq.mpr (by omega)]
  · rw [compare_gt_iff_gt.mpr greater, compare_gt_iff_gt.mpr (by omega)]

/-- Numbers are compared by the sign of the gap between them. -/
theorem compare?_eq (left : x.IsOrdered) (right : y.IsOrdered) :
    x.compare? y = some (compare 0 (x.gap y)) := by
  have floats : x.toFloat.compare? y.toFloat = some (compare 0 (y.place - x.place)) := by
    rw [← compare_eq_sub]
    simp [Binary64.compare?, position?_toFloat left, position?_toFloat right]
  cases x <;> cases y
  case integer.integer m n => exact congrArg some (compare_eq_sub m.toInt n.toInt)
  all_goals simpa only [compare?, gap] using floats

/-! ### Gaps -/

theorem gap_swap (x y : Number) : y.gap x = -x.gap y := by
  cases x <;> cases y <;> simp [gap]

/-- What lies above is not placed below. -/
theorem place_le (above : 0 ≤ x.gap y) : x.place ≤ y.place := by
  cases x <;> cases y <;> simp only [gap, place] at above ⊢
  case integer.integer => exact Binary64.position_mono (by omega)
  all_goals omega

theorem place_eq (level : x.gap y = 0) : x.place = y.place := by
  have swapped := gap_swap x y
  exact Int.le_antisymm (place_le (by omega)) (place_le (by omega))

theorem gap_pos (less : x.place < y.place) : 0 < x.gap y := by
  refine Int.not_le.mp fun atMost => ?_
  have swapped := gap_swap x y
  have backwards : y.place ≤ x.place := place_le (by omega)
  omega

/-- Gaps upwards add up to a gap upwards, whatever the kinds of the three numbers. -/
theorem gap_trans (first : 0 < x.gap y) (second : 0 < y.gap z) : 0 < x.gap z := by
  have before := place_le (Int.le_of_lt first)
  have behind := place_le (Int.le_of_lt second)
  by_cases apart : x.place < z.place
  · exact gap_pos apart
  · -- All three are in one place, so that neither gap is one of floats.
    cases x <;> cases y <;> cases z <;> simp only [gap] at * <;> omega

end Number

/-! ### Integers that share a float -/

namespace Value

/-- A number of either kind that is comparable: an integer, or a float other than the one that is
not a number. -/
def IsOrdered (v : Value) : Prop :=
  v.isNumber = true ∧ v ≠ .float .nan

/-- Two different integers are rounded to the same float. -/
def Collide (a b : Value) : Prop :=
  ∃ m n : Int64, a = .integer m ∧ b = .integer n ∧ m ≠ n ∧
    Binary64.ofInt m.toInt = Binary64.ofInt n.toInt

theorem IsOrdered.exists_number {v : Value} (ordered : v.IsOrdered) :
    ∃ x : Number, x.toValue = v ∧ x.IsOrdered := by
  obtain ⟨number, other⟩ := ordered
  cases v with
  | integer n => exact ⟨.integer n, rfl, trivial⟩
  | float x => exact ⟨.float x, rfl, fun nan => other (congrArg Value.float nan)⟩
  | _ => cases number

/-- Numbers in one place that are not equal are integers that share a float. -/
theorem collide_iff (x y : Number) :
    Collide x.toValue y.toValue ↔ x.gap y ≠ 0 ∧ x.place = y.place := by
  cases x <;> cases y
  case integer.integer m n =>
    have same := Binary64.position_eq_iff (Number.natAbs_toInt_le m) (Number.natAbs_toInt_le n)
    simp only [Collide, Number.toValue, Number.gap, Number.place, same, Value.integer.injEq]
    constructor
    · rintro ⟨_, _, rfl, rfl, different, equal⟩
      exact ⟨fun none => different (Int64.toInt_inj.mp (by omega)), equal⟩
    · rintro ⟨apart, equal⟩
      exact ⟨m, n, rfl, rfl, fun same => apart (by rw [same, sub_self]), equal⟩
  all_goals
    simp only [Collide, Number.toValue, Number.gap, reduceCtorEq, false_and, and_false,
      exists_false, false_iff]
    omega

/-- Integers that share a float are large. -/
theorem Collide.large {a b : Value} (collide : Collide a b) :
    ∃ m n : Int64, a = .integer m ∧ b = .integer n ∧
      2 ^ 53 ≤ m.toInt.natAbs ∧ 2 ^ 53 ≤ n.toInt.natAbs := by
  obtain ⟨m, n, rfl, rfl, different, same⟩ := collide
  rw [← Binary64.position_eq_iff (Number.natAbs_toInt_le m) (Number.natAbs_toInt_le n)] at same
  exact ⟨m, n, rfl, rfl,
    Binary64.large_of_position_eq (fun equal => different (Int64.toInt_inj.mp equal)) same⟩

end Value

namespace Primitive

open Value

/-- The primitive answers `true` to the two arguments. -/
def Holds (p : Primitive) (a b : Value) : Prop :=
  p.result [a, b] = .ok (.boolean true)

/-- The primitives that compare two numbers, each with the orders of its arguments for which it
answers `true`. -/
def comparisons : List (Primitive × List Ordering) :=
  [(.less, [.lt]), (.equal, [.eq]), (.doubleEqual, [.eq]), (.greater, [.gt]),
    (.lessOrEqual, [.lt, .eq]), (.greaterOrEqual, [.gt, .eq])]

variable {p : Primitive} {ways : List Ordering}

/-- What a comparison of two numbers answers. -/
theorem result_comparison (comparison : (p, ways) ∈ comparisons) {x y : Number}
    (left : x.IsOrdered) (right : y.IsOrdered) :
    p.result [x.toValue, y.toValue] =
      .ok (.boolean (ways.contains (compare 0 (x.gap y)))) := by
  have compared := Number.compare?_eq left right
  have byNumbers : ∀ q, onTwo q (compareOf ways) [x.toValue, y.toValue] =
      .ok (.boolean (ways.contains (compare 0 (x.gap y)))) := fun q => by
    simp only [onTwo_toValue, compareOf, compared]
  have byValues : x.toValue.equal y.toValue = [Ordering.eq].contains (compare 0 (x.gap y)) := by
    simp [Value.equal, Value.number?_toValue, compared]
  simp only [comparisons, List.mem_cons, Prod.mk.injEq, List.not_mem_nil, or_false] at comparison
  rcases comparison with ⟨rfl, rfl⟩ | ⟨rfl, rfl⟩ | ⟨rfl, rfl⟩ | ⟨rfl, rfl⟩ | ⟨rfl, rfl⟩ | ⟨rfl, rfl⟩
  case inr.inl | inr.inr.inl => simp only [result, byValues]
  all_goals exact byNumbers _

theorem holds_iff (comparison : (p, ways) ∈ comparisons) {x y : Number}
    (left : x.IsOrdered) (right : y.IsOrdered) :
    p.Holds x.toValue y.toValue ↔ compare 0 (x.gap y) ∈ ways := by
  rw [Holds, result_comparison comparison left right]
  simp

/-- The laws of comparison of three numbers, with the exceptions that rounding makes. -/
structure ComparisonLaws (a b c : Value) : Prop where
  answers : ∀ p ∈ comparisons.map Prod.fst,
    p.Holds a b ∨ p.result [a, b] = .ok (.boolean false)
  one_of_three : less.Holds a b ∧ ¬ equal.Holds a b ∧ ¬ greater.Holds a b ∨
    ¬ less.Holds a b ∧ equal.Holds a b ∧ ¬ greater.Holds a b ∨
    ¬ less.Holds a b ∧ ¬ equal.Holds a b ∧ greater.Holds a b
  less_or_equal : lessOrEqual.Holds a b ↔ less.Holds a b ∨ equal.Holds a b
  greater_or_equal : greaterOrEqual.Holds a b ↔ lessOrEqual.Holds b a
  less_trans : less.Holds a b → less.Holds b c → less.Holds a c
  /-- Two numbers equal to a third one are equal unless they are integers that share a float. -/
  equal_trans : equal.Holds a b → equal.Holds b c → (equal.Holds a c ↔ ¬ Collide a c)
  less_or_equal_trans : lessOrEqual.Holds a b → lessOrEqual.Holds b c →
    lessOrEqual.Holds a c ∨ Collide a c
  less_congr : equal.Holds a b →
    (less.Holds a c ↔ less.Holds b c) ∨ Collide a c ∨ Collide b c
  /-- The exceptions concern large integers only. -/
  collide_large : Collide a c → ∃ m n : Int64, a = .integer m ∧ c = .integer n ∧
    2 ^ 53 ≤ m.toInt.natAbs ∧ 2 ^ 53 ≤ n.toInt.natAbs

section Gap

variable {x y : Number} (left : x.IsOrdered) (right : y.IsOrdered)

include left right

theorem less_holds_iff : less.Holds x.toValue y.toValue ↔ 0 < x.gap y := by
  rw [holds_iff (show (less, [.lt]) ∈ comparisons by decide) left right, List.mem_singleton]
  exact compare_lt_iff_lt

theorem equal_holds_iff : equal.Holds x.toValue y.toValue ↔ x.gap y = 0 := by
  rw [holds_iff (show (equal, [.eq]) ∈ comparisons by decide) left right, List.mem_singleton]
  exact compare_eq_iff_eq.trans eq_comm

theorem greater_holds_iff : greater.Holds x.toValue y.toValue ↔ x.gap y < 0 := by
  rw [holds_iff (show (greater, [.gt]) ∈ comparisons by decide) left right, List.mem_singleton]
  exact compare_gt_iff_gt

theorem lessOrEqual_holds_iff : lessOrEqual.Holds x.toValue y.toValue ↔ 0 ≤ x.gap y := by
  rw [holds_iff (show (lessOrEqual, [.lt, .eq]) ∈ comparisons by decide) left right]
  simp only [List.mem_cons, List.not_mem_nil, or_false, compare_lt_iff_lt, compare_eq_iff_eq]
  omega

theorem greaterOrEqual_holds_iff : greaterOrEqual.Holds x.toValue y.toValue ↔ x.gap y ≤ 0 := by
  rw [holds_iff (show (greaterOrEqual, [.gt, .eq]) ∈ comparisons by decide) left right]
  simp only [List.mem_cons, List.not_mem_nil, or_false, compare_gt_iff_gt, compare_eq_iff_eq]
  omega

end Gap

theorem comparisonLaws_toValue {x y z : Number} (left : x.IsOrdered) (middle : y.IsOrdered)
    (right : z.IsOrdered) : ComparisonLaws x.toValue y.toValue z.toValue where
  answers p member := by
    obtain ⟨⟨_, ways⟩, comparison, rfl⟩ := List.mem_map.mp member
    rw [Holds, result_comparison comparison left middle]
    cases ways.contains (compare 0 (x.gap y)) <;> simp
  one_of_three := by
    rw [less_holds_iff left middle, equal_holds_iff left middle, greater_holds_iff left middle]
    omega
  less_or_equal := by
    rw [less_holds_iff left middle, equal_holds_iff left middle, lessOrEqual_holds_iff left middle]
    omega
  greater_or_equal := by
    rw [greaterOrEqual_holds_iff left middle, lessOrEqual_holds_iff middle left,
      Number.gap_swap x y]
    omega
  less_trans := by
    rw [less_holds_iff left middle, less_holds_iff middle right, less_holds_iff left right]
    exact Number.gap_trans
  equal_trans := by
    rw [equal_holds_iff left middle, equal_holds_iff middle right, equal_holds_iff left right,
      collide_iff]
    intro first second
    have together := (Number.place_eq first).trans (Number.place_eq second)
    omega
  less_or_equal_trans := by
    rw [lessOrEqual_holds_iff left middle, lessOrEqual_holds_iff middle right,
      lessOrEqual_holds_iff left right, collide_iff]
    intro first second
    have upwards := (Number.place_le first).trans (Number.place_le second)
    have apart := @Number.gap_pos x z
    omega
  less_congr := by
    rw [equal_holds_iff left middle, less_holds_iff left right, less_holds_iff middle right,
      collide_iff, collide_iff]
    intro level
    have together := Number.place_eq level
    -- Unless one of the two shares its place with the third, both lie on the same side of it.
    have above := @Number.place_le x z
    have above' := @Number.place_le y z
    have apart := @Number.gap_pos x z
    have apart' := @Number.gap_pos y z
    omega
  collide_large := Collide.large

/-- Comparison of numbers of both kinds, integers and floats, obeys the laws of an order but for
integers that share a float. -/
theorem comparison_laws {a b c : Value} (left : a.IsOrdered) (middle : b.IsOrdered)
    (right : c.IsOrdered) : ComparisonLaws a b c := by
  obtain ⟨x, rfl, first⟩ := left.exists_number
  obtain ⟨y, rfl, second⟩ := middle.exists_number
  obtain ⟨z, rfl, third⟩ := right.exists_number
  exact comparisonLaws_toValue first second third

/-- Over a float between two integers the order of the integers is found again. -/
theorem comparison_laws_over_float :
    (IsOrdered (.integer 1) ∧ IsOrdered (.float (.ofInt 2)) ∧ IsOrdered (.integer 3)) ∧
      less.Holds (.integer 1) (.float (.ofInt 2)) ∧ less.Holds (.float (.ofInt 2)) (.integer 3) ∧
      less.Holds (.integer 1) (.integer 3) := by
  have two : (Number.float (.ofInt 2)).IsOrdered := by
    show Binary64.ofInt 2 ≠ .nan
    decide +kernel
  have first : less.Holds (.integer 1) (.float (.ofInt 2)) :=
    (@less_holds_iff (.integer 1) (.float (.ofInt 2)) trivial two).mpr (by decide +kernel)
  have second : less.Holds (.float (.ofInt 2)) (.integer 3) :=
    (@less_holds_iff (.float (.ofInt 2)) (.integer 3) two trivial).mpr (by decide +kernel)
  have one : IsOrdered (.integer 1) := ⟨rfl, nofun⟩
  have middle : IsOrdered (.float (.ofInt 2)) := ⟨rfl, fun nan => two (Value.float.inj nan)⟩
  have three : IsOrdered (.integer 3) := ⟨rfl, nofun⟩
  exact ⟨⟨one, middle, three⟩, first, second,
    (comparison_laws one middle three).less_trans first second⟩

/-- Without the exceptions the laws fail. Two integers that differ by one are equal to the float
that they share but not to each other, one is not less than or equal to the other although each is
so to the float, and one is less than the other although the float is not. -/
theorem comparison_laws_broken_by_shared_float :
    (IsOrdered (.integer 9007199254740993) ∧ IsOrdered (.float (.ofInt 9007199254740992)) ∧
      IsOrdered (.integer 9007199254740992)) ∧
    (equal.Holds (.integer 9007199254740993) (.float (.ofInt 9007199254740992)) ∧
      equal.Holds (.float (.ofInt 9007199254740992)) (.integer 9007199254740992) ∧
      ¬ equal.Holds (.integer 9007199254740993) (.integer 9007199254740992)) ∧
    (lessOrEqual.Holds (.integer 9007199254740993) (.float (.ofInt 9007199254740992)) ∧
      lessOrEqual.Holds (.float (.ofInt 9007199254740992)) (.integer 9007199254740992) ∧
      ¬ lessOrEqual.Holds (.integer 9007199254740993) (.integer 9007199254740992)) ∧
    equal.Holds (.integer 9007199254740992) (.float (.ofInt 9007199254740992)) ∧
      less.Holds (.integer 9007199254740992) (.integer 9007199254740993) ∧
      ¬ less.Holds (.float (.ofInt 9007199254740992)) (.integer 9007199254740993) := by
  let even : Number := .integer 9007199254740992
  let odd : Number := .integer 9007199254740993
  let shared : Number := .float (.ofInt 9007199254740992)
  have ordered : shared.IsOrdered := by
    show Binary64.ofInt 9007199254740992 ≠ .nan
    decide +kernel
  have above : odd.gap shared = 0 := by decide +kernel
  have below : shared.gap even = 0 := by decide +kernel
  have between : odd.gap even = -1 := by decide +kernel
  have swapped := Number.gap_swap
  refine ⟨⟨⟨rfl, nofun⟩, ⟨rfl, fun nan => ordered (Value.float.inj nan)⟩, ⟨rfl, nofun⟩⟩,
    ⟨(@equal_holds_iff odd shared trivial ordered).mpr above,
    (@equal_holds_iff shared even ordered trivial).mpr below,
    (@equal_holds_iff odd even trivial trivial).not.mpr (by omega)⟩,
    ⟨(@lessOrEqual_holds_iff odd shared trivial ordered).mpr (by omega),
    (@lessOrEqual_holds_iff shared even ordered trivial).mpr (by omega),
    (@lessOrEqual_holds_iff odd even trivial trivial).not.mpr (by omega)⟩,
    (@equal_holds_iff even shared trivial ordered).mpr (by rw [swapped, below, neg_zero]),
    (@less_holds_iff even odd trivial trivial).mpr (by rw [swapped, between]; decide),
    (@less_holds_iff shared odd ordered trivial).not.mpr (by rw [swapped, above]; decide)⟩

end Primitive

end MiniLisp
