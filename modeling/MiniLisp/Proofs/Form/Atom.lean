import MiniLisp.Form
import MiniLisp.Value.Printer
import MiniLisp.Proofs.Binary64.Shortest
import MiniLisp.Proofs.Decimal.Printer
import MiniLisp.Proofs.Token.Word

/-!
# Atoms

The texts of numbers are words, and each is read as the number it was written for: the text of an
integer is an integer numeral within 64 bits, and the text of a finite float is no integer numeral
but a decimal numeral whose nearest binary number is the float itself.
-/
namespace MiniLisp

open Decimal in
theorem Token.isPlain_of_isNumberChar {c : Char} (number : isNumberChar c = true) :
    Token.isPlain c = true := by
  simp only [isNumberChar, Bool.or_eq_true, decide_eq_true_eq] at number
  rcases number with ((digit | rfl) | rfl) | rfl
  · simp only [Char.isDigit, Bool.and_eq_true, decide_eq_true_eq] at digit
    -- No range of blanks has a code point between those of the digits.
    have low : 48 ≤ c.toNat := digit.1
    have high : c.toNat ≤ 57 := digit.2
    refine Token.isPlain_iff.mpr ⟨?_, ?_, ?_⟩
    · rintro rfl
      exact absurd low (by decide)
    · rintro rfl
      exact absurd low (by decide)
    · simp only [Text.isBlank, Text.blankRanges, List.any_cons, List.any_nil, Bool.or_eq_false_iff,
        Bool.and_eq_false_iff, decide_eq_false_iff_not, and_true]
      omega
  · decide
  · decide
  · decide

namespace Form

theorem fits_toInt (n : Int64) : fits n.toInt = true := by
  simp only [fits, Bool.and_eq_true, decide_eq_true_eq]
  exact ⟨n.minValue_le_toInt, n.toInt_le⟩

theorem ofAtom_integerText (n : Int64) : ofAtom (Value.integerText n) = .integer n := by
  simp [ofAtom, integer?, Value.integerText, Numeral.readInteger?_integerText, fits_toInt]

theorem ofAtom_floatText {x : Binary64} (finite : x.isFinite = true) :
    ofAtom (Value.floatText x) = .float x := by
  cases x with
  | nan => cases finite
  | infinite _ => cases finite
  | finite negative rank =>
    -- The decimal that is read need not be the one that was written, but it denotes its number.
    obtain ⟨read, reads, same⟩ := Decimal.readDecimal?_render Binary64.layout
      ⟨negative, (Binary64.shortest rank).coefficient, (Binary64.shortest rank).exponent⟩
    have rounds : Binary64.ofDecimal read = .finite negative rank := by
      rw [Binary64.ofDecimal_congr same, Binary64.ofDecimal_signed_shortest]
    simp [ofAtom, integer?, float?, Value.floatText, Binary64.render,
      Decimal.readInteger?_render, reads, rounds, Binary64.isFinite]

theorem isWord_integerText (n : Int64) : Token.IsWord (Value.integerText n) where
  ne_empty := by
    intro empty
    have none := congrArg String.toList empty
    simp only [Value.integerText, String.toList_ofList] at none
    -- The empty text is no numeral.
    have read := Numeral.readInteger?_integerText n.toInt
    rw [none] at read
    cases read
  plain := by
    intro c member
    simp only [Value.integerText, String.toList_ofList] at member
    exact Token.isPlain_of_isNumberChar (Decimal.integerText_chars _ c member)

theorem isWord_floatText {x : Binary64} (finite : x.isFinite = true) :
    Token.IsWord (Value.floatText x) := by
  cases x with
  | nan => cases finite
  | infinite _ => cases finite
  | finite negative rank =>
    constructor
    · intro empty
      have none := congrArg String.toList empty
      simp only [Value.floatText, Binary64.render, String.toList_ofList] at none
      exact Decimal.render_ne_nil _ _ none
    · intro c member
      simp only [Value.floatText, Binary64.render, String.toList_ofList] at member
      exact Token.isPlain_of_isNumberChar (Decimal.render_chars _ _ c member)

/-- An atom that is read as neither kind of number is read as a symbol of its own text. -/
theorem ofAtom_eq_symbol {text : String} (literal : (ofAtom text).isNumber = false) :
    ofAtom text = .symbol text := by
  unfold ofAtom at literal ⊢
  split at literal
  · cases literal
  · split at literal
    · cases literal
    · rfl

end Form

end MiniLisp
