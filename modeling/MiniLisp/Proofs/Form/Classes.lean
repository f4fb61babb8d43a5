import MiniLisp.Form
import MiniLisp.Proofs.Numeral.Grammar

/-!
# The classes of atoms

An atom is tried as an integer, then as a float, and is a symbol otherwise. Here the three classes
are told apart by the grammar of numerals and two bounds alone. An integer is an integer numeral
within 64 bits. A float is any other decimal numeral whose magnitude is below the middle between
the greatest finite number and the one that would follow it, and it is the finite number nearest
to the numeral's. Every other text is a symbol of itself, be it a sign alone, a numeral that is
too large, or one with digits of another script.
-/
namespace MiniLisp.Form

open Numeral Binary64

variable {text : List Char}

/-- The text is an integer numeral for `z`, which can be held in 64 bits. -/
def DenotesInteger (text : List Char) (z : ℤ) : Prop :=
  IntegerNumeral text z ∧ -2 ^ 63 ≤ z ∧ z ≤ 2 ^ 63 - 1

/-- The text is a decimal numeral with the given sign and magnitude, and the nearest number is
finite. -/
def DenotesFloat (text : List Char) (negative : Bool) (q : ℚ) : Prop :=
  DecimalNumeral text negative q ∧ q < 2 ^ 1024 - 2 ^ 970

/-! ### Integers -/

theorem fits_iff {z : ℤ} : fits z = true ↔ -2 ^ 63 ≤ z ∧ z ≤ 2 ^ 63 - 1 := by
  have least : Int64.minValue.toInt = -2 ^ 63 := rfl
  have greatest : Int64.maxValue.toInt = 2 ^ 63 - 1 := rfl
  simp only [fits, least, greatest, Bool.and_eq_true, decide_eq_true_eq]

theorem toInt_ofInt_of_fits {z : ℤ} (inside : fits z = true) : (Int64.ofInt z).toInt = z := by
  obtain ⟨least, greatest⟩ := fits_iff.mp inside
  exact Int64.toInt_ofInt_of_le least (by omega)

/-- An atom is read as the integer `z` exactly if it denotes it. -/
theorem integer?_iff {z : ℤ} :
    (∃ n : Int64, n.toInt = z ∧ integer? text = some n) ↔ DenotesInteger text z := by
  unfold integer? DenotesInteger
  simp only [← readInteger?_eq_some_iff, ← fits_iff]
  constructor
  · rintro ⟨n, rfl, read⟩
    split at read
    next z numeral =>
      obtain ⟨inside, equal⟩ := Option.ite_none_right_eq_some.mp read
      rw [← Option.some.inj equal, toInt_ofInt_of_fits inside]
      exact ⟨numeral, inside⟩
    next => cases read
  · rintro ⟨numeral, inside⟩
    exact ⟨.ofInt z, toInt_ofInt_of_fits inside, by simp only [numeral, if_pos inside]⟩

theorem integer?_eq_none_iff : integer? text = none ↔ ∀ z, ¬ DenotesInteger text z := by
  simp only [← integer?_iff, not_exists, not_and]
  constructor
  · intro none z n _ read
    rw [none] at read
    cases read
  · intro never
    cases read : integer? text with
    | none => rfl
    | some n => exact absurd read (never _ n rfl)

/-! ### Floats -/

/-- An atom that is a decimal numeral is read as the float `x` exactly if `x` is the nearest one to
its number. -/
theorem float?_iff {x : Binary64} :
    float? text = some x ↔ ∃ negative q, DenotesFloat text negative q ∧
      ∃ rank, x = .finite negative rank ∧ IsNearest q rank := by
  constructor
  · intro read
    unfold float? at read
    split at read
    next d numeral =>
      obtain ⟨finite, equal⟩ := Option.ite_none_right_eq_some.mp read
      obtain ⟨rank, rounds, nearest⟩ := exists_isNearest d finite
      have denotes := readDecimal?_iff.mp ⟨d, numeral, rfl, rfl⟩
      rw [← Option.some.inj equal]
      exact ⟨_, _, ⟨denotes, (isFinite_ofDecimal_iff d).mp finite⟩, rank, rounds, nearest⟩
    next => cases read
  · rintro ⟨negative, q, ⟨denotes, small⟩, rank, rfl, nearest⟩
    obtain ⟨d, numeral, rfl, rfl⟩ := readDecimal?_iff.mpr denotes
    have finite := (isFinite_ofDecimal_iff d).mpr small
    obtain ⟨rank', rounds, nearest'⟩ := exists_isNearest d finite
    obtain rfl : rank' = rank := Fin.ext (nearest'.unique nearest)
    simp only [float?, numeral, rounds, isFinite, if_true]

theorem exists_float?_iff :
    (∃ x, float? text = some x) ↔ ∃ negative q, DenotesFloat text negative q := by
  constructor
  · rintro ⟨x, read⟩
    obtain ⟨negative, q, denotes, -⟩ := float?_iff.mp read
    exact ⟨negative, q, denotes⟩
  · rintro ⟨negative, q, denotes, small⟩
    obtain ⟨d, numeral, rfl, rfl⟩ := readDecimal?_iff.mpr denotes
    have finite := (isFinite_ofDecimal_iff d).mpr small
    exact ⟨ofDecimal d, by simp only [float?, numeral, if_pos finite]⟩

theorem float?_eq_none_iff :
    float? text = none ↔ ¬ ∃ negative q, DenotesFloat text negative q := by
  rw [← exists_float?_iff, Option.eq_none_iff_forall_ne_some, not_exists]

/-! ### The classes -/

section Atom

variable {text : String}

theorem ofAtom_eq_integer_iff {n : Int64} :
    ofAtom text = .integer n ↔ integer? text.toList = some n := by
  unfold ofAtom
  cases integer? text.toList with
  | some m => simp
  | none => cases float? text.toList <;> simp

theorem ofAtom_eq_float_iff {x : Binary64} :
    ofAtom text = .float x ↔ integer? text.toList = none ∧ float? text.toList = some x := by
  unfold ofAtom
  cases integer? text.toList with
  | some m => simp
  | none => cases float? text.toList <;> simp

theorem ofAtom_eq_symbol_iff {name : String} :
    ofAtom text = .symbol name ↔
      name = text ∧ integer? text.toList = none ∧ float? text.toList = none := by
  unfold ofAtom
  cases integer? text.toList with
  | some m => simp
  | none => cases float? text.toList <;> simp [eq_comm]

end Atom

/-- A text is read as the integer that it denotes within 64 bits; else as the float nearest to the
number that it denotes, if that is finite; and else as the symbol of itself. -/
theorem ofAtom_classes (text : String) :
    (∀ z, (∃ n : Int64, n.toInt = z ∧ ofAtom text = .integer n) ↔
      DenotesInteger text.toList z) ∧
    ((∃ x, ofAtom text = .float x) ↔ (∀ z, ¬ DenotesInteger text.toList z) ∧
      ∃ negative q, DenotesFloat text.toList negative q) ∧
    (∀ x, ofAtom text = .float x ↔ (∀ z, ¬ DenotesInteger text.toList z) ∧
      ∃ negative q, DenotesFloat text.toList negative q ∧
        ∃ rank, x = .finite negative rank ∧ IsNearest q rank) ∧
    ∀ name, ofAtom text = .symbol name ↔ name = text ∧
      (∀ z, ¬ DenotesInteger text.toList z) ∧
        ¬ ∃ negative q, DenotesFloat text.toList negative q := by
  refine ⟨fun z => ?_, ?_, fun x => ?_, fun name => ?_⟩
  · simp only [ofAtom_eq_integer_iff, integer?_iff]
  · simp only [ofAtom_eq_float_iff, exists_and_left, integer?_eq_none_iff, exists_float?_iff]
  · rw [ofAtom_eq_float_iff, integer?_eq_none_iff, float?_iff]
  · rw [ofAtom_eq_symbol_iff, integer?_eq_none_iff, float?_eq_none_iff]

example : ofAtom "1e999" = .symbol "1e999" := rfl

example : ofAtom "0e999" = .float (.zero false) := rfl

end MiniLisp.Form
