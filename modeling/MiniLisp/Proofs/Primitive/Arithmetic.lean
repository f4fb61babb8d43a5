import Mathlib.Algebra.BigOperators.Group.List.Basic
import Mathlib.Data.Int.ModEq
import Mathlib.Data.Set.List
import MiniLisp.Primitive.Result

/-!
# Exact sums and wrapped ones

Integers are added and multiplied in 64 bits, one after another, and every step may wrap. Nothing
is lost by that: cutting an integer down to 64 bits goes well with both operations, so the last
result is the exact sum or product of all arguments cut down once. It depends on neither the order
of the arguments nor on how they are grouped. Floats and arguments that are no numbers count
wherever they stand, since all arguments are examined before the first two are combined, and a
float, once met, stays a float to the end.
-/
namespace MiniLisp

/-! ### Wrapping -/

theorem toInt_ofInt_modEq (z : ℤ) : (Int64.ofInt z).toInt ≡ z [ZMOD 2 ^ 64] := by
  rw [Int64.toInt_ofInt]
  exact Int.bmod_emod

theorem ofInt_eq_of_modEq {a b : ℤ} (same : a ≡ b [ZMOD 2 ^ 64]) :
    Int64.ofInt a = Int64.ofInt b := by
  have rest : a % (Int64.size : ℕ) = b % (Int64.size : ℕ) := same
  apply Int64.toInt_inj.mp
  rw [Int64.toInt_ofInt, Int64.toInt_ofInt, Int.bmod_def, Int.bmod_def, rest]

namespace Value

def IsInteger (v : Value) : Prop := ∃ n, v = .integer n

def IsFloat (v : Value) : Prop := ∃ x, v = .float x

theorem number?_eq_none_iff {v : Value} : v.number? = none ↔ v.isNumber = false := by
  cases v <;> simp [number?, isNumber]

theorem number?_toValue (x : Number) : x.toValue.number? = some x := by
  cases x <;> rfl

theorem exists_toValue {v : Value} (number : v.isNumber = true) :
    ∃ x : Number, x.toValue = v := by
  cases v with
  | integer n => exact ⟨.integer n, rfl⟩
  | float x => exact ⟨.float x, rfl⟩
  | _ => cases number

theorem isNumber_toValue (x : Number) : x.toValue.isNumber = true := by
  cases x <;> rfl

end Value

namespace Number

def IsInteger : Number → Prop
  | .integer _ => True
  | .float _ => False

theorem isInteger_toValue {x : Number} : x.toValue.IsInteger ↔ x.IsInteger := by
  cases x <;> simp [toValue, Value.IsInteger, IsInteger]

theorem toValue_eq_integer {x : Number} {n : Int64} : x.toValue = .integer n ↔ x = .integer n := by
  cases x <;> simp [toValue]

theorem isFloat_toValue {x : Number} : x.toValue.IsFloat ↔ ¬ x.IsInteger := by
  cases x <;> simp [toValue, Value.IsFloat, IsInteger]

variable {onIntegers : Int64 → Int64 → Int64} {onFloats : Binary64 → Binary64 → Binary64}

theorem isInteger_combine {x y : Number} :
    (combine onIntegers onFloats x y).IsInteger ↔ x.IsInteger ∧ y.IsInteger := by
  cases x <;> cases y <;> simp [combine, IsInteger]

/-- Combining numbers one after another gives an integer if all of them are integers. -/
theorem isInteger_foldl (xs : List Number) (first : Number) :
    (xs.foldl (combine onIntegers onFloats) first).IsInteger ↔
      first.IsInteger ∧ ∀ x ∈ xs, x.IsInteger := by
  induction xs generalizing first with
  | nil => simp
  | cons x rest ih => simp [ih, isInteger_combine, and_assoc]

/-- Combining integers in 64 bits is combining them exactly and cutting the result down. -/
theorem foldl_integers {exact : ℤ → ℤ → ℤ}
    (wraps : ∀ a b, Int64.ofInt (exact a b) = onIntegers (.ofInt a) (.ofInt b))
    (ns : List Int64) (first : ℤ) :
    (ns.map integer).foldl (combine onIntegers onFloats) (.integer (.ofInt first)) =
      .integer (.ofInt ((ns.map Int64.toInt).foldl exact first)) := by
  induction ns generalizing first with
  | nil => rfl
  | cons n rest ih =>
    have step : combine onIntegers onFloats (.integer (.ofInt first)) (.integer n) =
        .integer (.ofInt (exact first n.toInt)) := by
      rw [wraps, Int64.ofInt_toInt]
      rfl
    simp only [List.map_cons, List.foldl_cons, step, ih]

end Number

namespace Primitive

variable {p : Primitive} {arguments : List Value}

/-! ### Examining arguments -/

theorem numbers_map (xs : List Number) : numbers (xs.map Number.toValue) = .ok xs := by
  induction xs with
  | nil => rfl
  | cons x rest ih => simp [numbers, Value.number?_toValue, ih]

/-- One argument that is no number is enough, wherever it stands. -/
theorem numbers_of_mem {v : Value} (member : v ∈ arguments) (other : v.isNumber = false) :
    numbers arguments = .error (.typeMismatch .number) := by
  induction arguments with
  | nil => cases member
  | cons first rest ih =>
    rcases List.mem_cons.mp member with rfl | member
    · simp [numbers, Value.number?_eq_none_iff.mpr other]
    · cases examined : first.number? <;> simp [numbers, examined, ih member]

theorem exists_numbers (all : ∀ v ∈ arguments, v.isNumber = true) :
    ∃ xs : List Number, xs.map Number.toValue = arguments := by
  have inside : arguments ∈ Set.range (List.map Number.toValue) := by
    rw [Set.range_list_map]
    exact fun v member => Value.exists_toValue (all v member)
  exact inside

theorem fold_map (combination : List Number → Number) (xs : List Number) :
    fold combination (xs.map Number.toValue) = .ok (combination xs).toValue := by
  rw [fold, numbers_map]
  rfl

theorem fold_eq_error_iff {combination : List Number → Number} :
    fold combination arguments = .error (.typeMismatch .number) ↔
      ∃ v ∈ arguments, v.isNumber = false := by
  constructor
  · intro failed
    by_contra none
    have all : ∀ v ∈ arguments, v.isNumber = true := by simpa using none
    obtain ⟨xs, rfl⟩ := exists_numbers all
    rw [fold_map] at failed
    cases failed
  · rintro ⟨v, member, other⟩
    rw [fold, numbers_of_mem member other]
    rfl

/-! ### Sums and products -/

/-- The primitives that combine any number of arguments, each with what it computes exactly. -/
inductive Folds : Primitive → (List ℤ → ℤ) → Prop where
  | sum : Folds .sum List.sum
  | product : Folds .product List.prod

namespace Folds

variable {exact : List ℤ → ℤ}

/-- The arguments are combined from left to right, beginning with a unit, in 64 bits as they are
exactly. -/
theorem combines (folds : p.Folds exact) :
    ∃ onIntegers onFloats exactly unit,
      (∀ arguments, p.result arguments = fold (fun xs =>
        xs.foldl (Number.combine onIntegers onFloats) (.integer (.ofInt unit))) arguments) ∧
      (∀ a b, Int64.ofInt (exactly a b) = onIntegers (.ofInt a) (.ofInt b)) ∧
      ∀ zs, exact zs = zs.foldl exactly unit := by
  cases folds with
  | sum => exact ⟨_, _, _, 0, fun _ => rfl, Int64.ofInt_add, fun _ => List.sum_eq_foldl⟩
  | product => exact ⟨_, _, _, 1, fun _ => rfl, Int64.ofInt_mul, fun _ => List.prod_eq_foldl⟩

/-- On integers the answer is the exact result, cut down to 64 bits. -/
theorem result_integers (folds : p.Folds exact) (ns : List Int64) :
    p.result (ns.map .integer) = .ok (.integer (.ofInt (exact (ns.map Int64.toInt)))) := by
  obtain ⟨onIntegers, onFloats, exactly, unit, answers, wraps, exact_eq⟩ := folds.combines
  have values : ns.map Value.integer = (ns.map Number.integer).map Number.toValue := by
    simp [Function.comp_def, Number.toValue]
  rw [answers, values, fold_map, Number.foldl_integers wraps, exact_eq]
  rfl

theorem perm (folds : p.Folds exact) {ns ms : List ℤ} (same : ns.Perm ms) :
    exact ns = exact ms := by
  cases folds with
  | sum => exact same.sum_eq
  | product => exact same.prod_eq

/-- Neighbours may be combined first, also if their result has been cut down. -/
theorem group (folds : p.Folds exact) (before inside after : List ℤ) {n : ℤ}
    (wrapped : n ≡ exact inside [ZMOD 2 ^ 64]) :
    exact (before ++ n :: after) ≡ exact (before ++ inside ++ after) [ZMOD 2 ^ 64] := by
  cases folds with
  | sum =>
    simp only [List.sum_append, List.sum_cons, add_assoc]
    exact (wrapped.add_right _).add_left _
  | product =>
    simp only [List.prod_append, List.prod_cons, mul_assoc]
    exact (wrapped.mul_right _).mul_left _

end Folds

/-- The later arguments are the earlier ones in another order, or with neighbours replaced by what
the primitive answers for them, any number of times. -/
inductive Rearranges (p : Primitive) : List Value → List Value → Prop where
  | perm {arguments others : List Value} (same : arguments.Perm others) :
    Rearranges p arguments others
  | group (before inside after : List Value) {v : Value} (answer : p.result inside = .ok v) :
    Rearranges p (before ++ inside ++ after) (before ++ v :: after)
  | trans {arguments between others : List Value} (first : Rearranges p arguments between)
    (second : Rearranges p between others) : Rearranges p arguments others

theorem exists_integers_of_perm {ns : List Int64} {others : List Value}
    (same : (ns.map Value.integer).Perm others) :
    ∃ ms : List Int64, ms.map Value.integer = others := by
  have inside : others ∈ Set.range (List.map Value.integer) := by
    rw [Set.range_list_map]
    intro v member
    obtain ⟨n, _, integer⟩ := List.mem_map.mp (same.mem_iff.mpr member)
    exact ⟨n, integer⟩
  exact inside

theorem integer_injective : Function.Injective Value.integer := fun _ _ => Value.integer.inj

/-- Integers that are rearranged are integers with the same answer. -/
theorem Rearranges.result_eq {exact : List ℤ → ℤ} (folds : p.Folds exact) {others : List Value}
    (rearranges : p.Rearranges arguments others) {ns : List Int64}
    (integers : arguments = ns.map .integer) :
    (∃ ms : List Int64, others = ms.map .integer) ∧ p.result others = p.result arguments := by
  induction rearranges generalizing ns with
  | perm same =>
    subst integers
    obtain ⟨ms, rfl⟩ := exists_integers_of_perm same
    have places := (List.map_perm_map_iff integer_injective).mp same
    refine ⟨⟨ms, rfl⟩, ?_⟩
    rw [folds.result_integers, folds.result_integers, folds.perm (places.map Int64.toInt)]
  | group before inside after answer =>
    -- What is between the two ends has been replaced by its own answer.
    obtain ⟨front, last, rfl, front_eq, rfl⟩ := List.append_eq_map_iff.mp integers
    obtain ⟨first, middle, rfl, rfl, rfl⟩ := List.append_eq_map_iff.mp front_eq.symm
    rw [folds.result_integers] at answer
    cases answer
    let cut : Int64 := .ofInt (exact (middle.map Int64.toInt))
    have replaced : first.map Value.integer ++ .integer cut :: last.map .integer =
        (first ++ cut :: last).map .integer := by simp
    have joined : first.map Value.integer ++ middle.map .integer ++ last.map .integer =
        (first ++ middle ++ last).map .integer := by simp
    refine ⟨⟨_, replaced⟩, ?_⟩
    rw [replaced, joined, folds.result_integers, folds.result_integers]
    congr 2
    apply ofInt_eq_of_modEq
    simp only [List.map_append, List.map_cons]
    exact folds.group _ _ _ (toInt_ofInt_modEq _)
  | trans _ _ first second =>
    obtain ⟨⟨ms, middle⟩, equal⟩ := first integers
    obtain ⟨last, equal'⟩ := second middle
    exact ⟨last, equal'.trans equal⟩

/-! ### Differences and quotients -/

variable {a b : Value}

/-- Both arguments are numbers, or one of them is none. -/
theorem numbers_or (a b : Value) :
    (∃ x y : Number, x.toValue = a ∧ y.toValue = b) ∨ a.isNumber = false ∨ b.isNumber = false := by
  by_cases first : a.isNumber = true
  · by_cases second : b.isNumber = true
    · obtain ⟨x, rfl⟩ := Value.exists_toValue first
      obtain ⟨y, rfl⟩ := Value.exists_toValue second
      exact .inl ⟨x, y, rfl, rfl⟩
    · exact .inr (.inr (by simpa using second))
  · exact .inr (.inl (by simpa using first))

theorem onTwo_toValue (p : Primitive) (operation : Number → Number → Except Fault Value)
    (x y : Number) : onTwo p operation [x.toValue, y.toValue] = operation x y := by
  have examined : numbers [x.toValue, y.toValue] = .ok [x, y] := numbers_map [x, y]
  rw [onTwo, examined]
  rfl

theorem onTwo_of_not_number (p : Primitive) (operation : Number → Number → Except Fault Value)
    (other : a.isNumber = false ∨ b.isNumber = false) :
    onTwo p operation [a, b] = .error (.typeMismatch .number) := by
  have failed : numbers [a, b] = .error (.typeMismatch .number) := by
    rcases other with other | other
    · exact numbers_of_mem (by simp) other
    · exact numbers_of_mem (by simp) other
  rw [onTwo, failed]
  rfl

theorem quotientOf_integers (m : Int64) {n : Int64} (nonzero : n ≠ 0) :
    quotientOf (.integer m) (.integer n) = .ok (.integer (m / n)) := by
  simp [quotientOf, Number.div?, nonzero, Number.toValue]

/-- Two numbers have a quotient unless both are integers and the divisor is zero. -/
theorem quotientOf_eq (x y : Number) :
    quotientOf x y = .error .divisionByZero ∧ x.IsInteger ∧ y = .integer 0 ∨
      ∃ z : Number, quotientOf x y = .ok z.toValue ∧ (z.IsInteger ↔ x.IsInteger ∧ y.IsInteger) ∧
        ¬ (x.IsInteger ∧ y = .integer 0) := by
  cases x with
  | integer m =>
    cases y with
    | integer n =>
      by_cases zero : n = 0
      · simp [quotientOf, Number.div?, zero, Number.IsInteger]
      · exact .inr ⟨.integer (m / n), by simp [quotientOf, Number.div?, zero, Number.IsInteger]⟩
    | float y => exact .inr ⟨.float _, rfl, by simp [Number.IsInteger]⟩
  | float x => exact .inr ⟨.float _, rfl, by simp [Number.IsInteger]⟩

theorem pair_of_not_number (pairs : p = .difference ∨ p = .quotient)
    (other : a.isNumber = false ∨ b.isNumber = false) :
    p.result [a, b] = .error (.typeMismatch .number) := by
  rcases pairs with rfl | rfl <;> exact onTwo_of_not_number _ _ other

/-- What two numbers are answered with. -/
theorem pair_of_numbers (pairs : p = .difference ∨ p = .quotient) (x y : Number) :
    p.result [x.toValue, y.toValue] = .error .divisionByZero ∧
        (p = .quotient ∧ x.IsInteger ∧ y = .integer 0) ∨
      ∃ z : Number, p.result [x.toValue, y.toValue] = .ok z.toValue ∧
        (z.IsInteger ↔ x.IsInteger ∧ y.IsInteger) ∧
        ¬ (p = .quotient ∧ x.IsInteger ∧ y = .integer 0) := by
  rcases pairs with rfl | rfl
  · exact .inr ⟨x.sub y, onTwo_toValue .difference _ x y, Number.isInteger_combine, by simp⟩
  · have answer : Primitive.quotient.result [x.toValue, y.toValue] = quotientOf x y :=
      onTwo_toValue .quotient _ x y
    rw [answer]
    rcases quotientOf_eq x y with ⟨refused, integer, zero⟩ | ⟨z, divided, kind, divisor⟩
    · exact .inl ⟨refused, rfl, integer, zero⟩
    · exact .inr ⟨z, divided, kind, fun all => divisor all.2⟩

end Primitive

/-- Arithmetic on integers is exact modulo `2 ^ 64`. A sum or product is refused if and only if some
argument is no number. Of numbers it is a number, an integer if and only if no argument is a float;
and of integers it is congruent to the exact sum or product, and the same in every order and with
every grouping. A difference or quotient is refused in this way if and only if one of the two
arguments is no number, and a quotient, for its divisor, if and only if both are integers and the
divisor is zero. Otherwise it is a number, an integer if and only if neither argument is a float. Of
integers the difference is congruent to the exact one, and the quotient is the exact one truncated
toward zero, except that the least integer divided by minus one is itself again. -/
theorem arithmetic_exact_modulo :
    (∀ (p : Primitive) (exact : List ℤ → ℤ), p.Folds exact → ∀ arguments : List Value,
      (p.result arguments = .error (.typeMismatch .number) ↔
        ∃ v ∈ arguments, v.isNumber = false) ∧
      ((∀ v ∈ arguments, v.isNumber = true) →
        ∃ v, p.result arguments = .ok v ∧ v.isNumber = true ∧
          (v.IsInteger ↔ ∀ w ∈ arguments, ¬ w.IsFloat)) ∧
      ∀ ns : List Int64, arguments = ns.map .integer →
        (∃ n : Int64, p.result arguments = .ok (.integer n) ∧
          n.toInt ≡ exact (ns.map Int64.toInt) [ZMOD 2 ^ 64]) ∧
        ∀ others, p.Rearranges arguments others → p.result others = p.result arguments) ∧
    (∀ (p : Primitive), p = .difference ∨ p = .quotient → ∀ a b : Value,
      (p.result [a, b] = .error (.typeMismatch .number) ↔
        a.isNumber = false ∨ b.isNumber = false) ∧
      (p.result [a, b] = .error .divisionByZero ↔
        p = .quotient ∧ a.IsInteger ∧ b = .integer 0) ∧
      (a.isNumber = true ∧ b.isNumber = true ∧ ¬ (p = .quotient ∧ a.IsInteger ∧ b = .integer 0) →
        ∃ v, p.result [a, b] = .ok v ∧ v.isNumber = true ∧
          (v.IsInteger ↔ ¬ a.IsFloat ∧ ¬ b.IsFloat))) ∧
    ∀ m n : Int64,
      (∃ k : Int64, Primitive.difference.result [.integer m, .integer n] = .ok (.integer k) ∧
        k.toInt ≡ m.toInt - n.toInt [ZMOD 2 ^ 64]) ∧
      (n ≠ 0 →
        ∃ k : Int64, Primitive.quotient.result [.integer m, .integer n] = .ok (.integer k) ∧
          (¬ (m.toInt = -2 ^ 63 ∧ n.toInt = -1) → k.toInt = m.toInt.tdiv n.toInt) ∧
          (m.toInt = -2 ^ 63 ∧ n.toInt = -1 → k.toInt = -2 ^ 63)) := by
  refine ⟨?_, ?_, ?_⟩
  · intro p exact folds arguments
    obtain ⟨_, _, _, _, answers, _, _⟩ := folds.combines
    refine ⟨?_, ?_, ?_⟩
    · rw [answers]
      exact Primitive.fold_eq_error_iff
    · intro all
      obtain ⟨xs, rfl⟩ := Primitive.exists_numbers all
      refine ⟨_, (answers _).trans (Primitive.fold_map _ xs), Value.isNumber_toValue _, ?_⟩
      rw [Number.isInteger_toValue, Number.isInteger_foldl]
      simp [Number.IsInteger, Number.isFloat_toValue]
    · rintro ns integers
      refine ⟨?_, fun others rearranges => (rearranges.result_eq folds integers).2⟩
      rw [integers]
      exact ⟨_, folds.result_integers ns, toInt_ofInt_modEq _⟩
  · intro p pairs a b
    rcases Primitive.numbers_or a b with ⟨x, y, rfl, rfl⟩ | other
    · rw [Number.isInteger_toValue, Number.toValue_eq_integer, Number.isFloat_toValue,
        Number.isFloat_toValue]
      simp only [Value.isNumber_toValue]
      rcases Primitive.pair_of_numbers pairs x y with ⟨refused, zero⟩ | ⟨z, answer, kind, divisor⟩
      · exact ⟨by simp [refused], iff_of_true refused zero, fun all => absurd zero all.2.2⟩
      · refine ⟨by simp [answer], by simp [answer, divisor], fun _ => ?_⟩
        refine ⟨_, answer, Value.isNumber_toValue z, ?_⟩
        rw [Number.isInteger_toValue, kind, not_not, not_not]
    · rw [Primitive.pair_of_not_number pairs other]
      refine ⟨iff_of_true rfl other, ⟨nofun, ?_⟩, ?_⟩
      · rintro ⟨_, ⟨m, rfl⟩, rfl⟩
        simp [Value.isNumber] at other
      · rintro ⟨first, second, _⟩
        simp [first, second] at other
  · intro m n
    constructor
    · refine ⟨m - n, Primitive.onTwo_toValue .difference _ (.integer m) (.integer n), ?_⟩
      rw [Int64.toInt_sub]
      exact Int.bmod_emod
    · intro nonzero
      refine ⟨m / n, ?_, ?_, ?_⟩
      · exact (Primitive.onTwo_toValue .quotient _ (.integer m) (.integer n)).trans
          (Primitive.quotientOf_integers m nonzero)
      · intro fits
        by_cases least : m = Int64.minValue
        · subst least
          exact Int64.toInt_div_of_ne_right _ _ fun minus => fits ⟨rfl, by rw [minus]; rfl⟩
        · exact Int64.toInt_div_of_ne_left _ _ least
      · rintro ⟨least, minus⟩
        have least : m = Int64.minValue := Int64.toInt_inj.mp least
        have minus : n = -1 := Int64.toInt_inj.mp minus
        rw [least, minus, Int64.minValue_div_neg_one]
        rfl

/-- Adding two to the greatest integer wraps, also if the two ones are moved to the front and added
first. One argument in the middle that is no number is enough for a product to be refused, and so
is a dividend that is none, whatever the divisor. The least integer divided by minus one is the
least integer. -/
theorem arithmetic_exact_modulo_limits :
    let greatest : Value := .integer Int64.maxValue
    let least : Value := .integer Int64.minValue
    let one : Value := .integer 1
    Primitive.sum.Folds List.sum ∧
      (∃ n : Int64, Primitive.sum.result [greatest, one, one] = .ok (.integer n) ∧
        n.toInt ≡ 2 ^ 63 + 1 [ZMOD 2 ^ 64]) ∧
      Primitive.sum.Rearranges [greatest, one, one] [.integer 2, greatest] ∧
      Primitive.sum.result [.integer 2, greatest] = Primitive.sum.result [greatest, one, one] ∧
      Primitive.product.result [greatest, .nil, one] = .error (.typeMismatch .number) ∧
      Primitive.quotient.result [.nil, .integer 0] = .error (.typeMismatch .number) ∧
      Primitive.quotient.result [one, .integer 0] = .error .divisionByZero ∧
      ∃ k : Int64, Primitive.quotient.result [least, .integer (-1)] = .ok (.integer k) ∧
        k.toInt = -2 ^ 63 := by
  intro greatest least one
  obtain ⟨folded, paired, integers⟩ := arithmetic_exact_modulo
  obtain ⟨_, _, sums⟩ := folded .sum List.sum .sum [greatest, one, one]
  obtain ⟨sum, same⟩ := sums [Int64.maxValue, 1, 1] rfl
  have turned : [greatest, one, one].Perm [one, one, greatest] :=
    (List.Perm.swap one greatest [one]).trans (.cons one (.swap one greatest []))
  have grouped : Primitive.sum.Rearranges [greatest, one, one] [.integer 2, greatest] :=
    .trans (.perm turned) (.group [] [one, one] [greatest] rfl)
  obtain ⟨k, quotient, _, wraps⟩ := (integers Int64.minValue (-1)).2 (by decide)
  exact ⟨.sum, sum, grouped, same _ grouped,
    (folded .product List.prod .product _).1.mpr ⟨.nil, by simp, rfl⟩,
    (paired .quotient (.inr rfl) .nil _).1.mpr (.inl rfl),
    (paired .quotient (.inr rfl) one _).2.1.mpr ⟨rfl, ⟨1, rfl⟩, rfl⟩,
    k, quotient, wraps ⟨rfl, rfl⟩⟩

end MiniLisp
