import MiniLisp.Decimal.Printer
import MiniLisp.Numeral
import MiniLisp.Proofs.Binary64.OfDecimal
import Mathlib.Data.List.TakeWhile

/-!
# Decimals read back

The text of a decimal is a decimal numeral, and it denotes the decimal's number. The numeral
need not give the same coefficient and exponent: zeros at the end of the coefficient are dropped
and zeros around the point are put in. What is kept is the number, in the sense of
`Decimal.Same`. The text of an integer is an integer numeral for just that integer, and the text
of a decimal never is one, since it has a point or an exponent.
-/
namespace MiniLisp

namespace Numeral

abbrev Digits (text : List Char) : Prop := ∀ c ∈ text, c.isDigit = true

/-- The text with a minus before it if the number is negative. -/
def withSign (negative : Bool) (text : List Char) : List Char :=
  if negative then '-' :: text else text

theorem digits_nil : Digits [] := nofun

theorem digits_zero : Digits ['0'] :=
  List.forall_mem_singleton.mpr rfl

theorem digits_toDigits (n : Nat) : Digits (Nat.toDigits 10 n) :=
  fun _ member => Nat.isDigit_of_mem_toDigits (by decide) (by decide) member

theorem magnitude_toDigits (n : Nat) : magnitude (Nat.toDigits 10 n) = n :=
  Nat.ofDigitChars_ten_toDigits

theorem magnitude_append_zeros (text : List Char) (count : Nat) :
    magnitude (text ++ List.replicate count '0') = magnitude text * 10 ^ count := by
  unfold magnitude
  rw [Nat.ofDigitChars_append, Nat.ofDigitChars_replicate_zero, Nat.mul_comm]

theorem magnitude_zeros_append (count : Nat) (text : List Char) :
    magnitude (List.replicate count '0' ++ text) = magnitude text := by
  unfold magnitude
  rw [Nat.ofDigitChars_append, Nat.ofDigitChars_replicate_zero, Nat.mul_zero]

/-- A text that does not begin with a sign is all that is behind one. -/
theorem splitSign_of_unsigned {text : List Char}
    (unsigned : ∀ c ∈ text.head?, c ≠ '-' ∧ c ≠ '+') : splitSign text = (false, text) := by
  unfold splitSign
  split
  · exact absurd rfl (unsigned '-' rfl).1
  · exact absurd rfl (unsigned '+' rfl).2
  · rfl

theorem unsigned_of_digits {row : List Char} (digits : Digits row) :
    ∀ c ∈ row.head?, c ≠ '-' ∧ c ≠ '+' := by
  intro c first
  have digit := digits c (List.mem_of_head? first)
  constructor <;>
  · rintro rfl
    cases digit

theorem unsigned_append {row : List Char} (digits : Digits row) (nonempty : row ≠ [])
    (rest : List Char) : ∀ c ∈ (row ++ rest).head?, c ≠ '-' ∧ c ≠ '+' := by
  rw [List.head?_append_of_ne_nil _ nonempty]
  exact unsigned_of_digits digits

theorem splitSign_withSign (negative : Bool) {whole : List Char} (rest : List Char)
    (digits : Digits whole) (nonempty : whole ≠ []) :
    splitSign (withSign negative (whole ++ rest)) = (negative, whole ++ rest) := by
  cases negative with
  | true => rfl
  | false => exact splitSign_of_unsigned (unsigned_append digits nonempty rest)

theorem readInteger?_integerText (n : Int) : readInteger? (Decimal.integerText n) = some n := by
  cases n with
  | ofNat m =>
    have split := splitSign_withSign false [] (digits_toDigits m) Nat.toDigits_ne_nil
    simp only [withSign, Bool.false_eq_true, if_false, List.append_nil] at split
    have all : (Nat.toDigits 10 m).all Char.isDigit = true :=
      List.all_eq_true.mpr (digits_toDigits m)
    simp [readInteger?, Decimal.integerText, split, all, signed, magnitude_toDigits]
  | negSucc m =>
    have all : (Nat.toDigits 10 (m + 1)).all Char.isDigit = true :=
      List.all_eq_true.mpr (digits_toDigits (m + 1))
    simp [readInteger?, Decimal.integerText, splitSign, all, signed, magnitude_toDigits,
      Int.negSucc_eq]

/-- A text with a character that is neither a digit nor in front is no integer numeral. -/
theorem readInteger?_eq_none (negative : Bool) {whole rest : List Char} {c : Char}
    (digits : Digits whole) (nonempty : whole ≠ []) (member : c ∈ rest)
    (other : c.isDigit = false) :
    readInteger? (withSign negative (whole ++ rest)) = none := by
  have mixed : (whole ++ rest).all Char.isDigit = false := by
    refine List.all_eq_false.mpr ⟨c, List.mem_append_right _ member, ?_⟩
    simp [other]
  simp only [readInteger?, splitSign_withSign negative rest digits nonempty, mixed]
  simp

/-- What a numeral denotes whose digits before the point, if any, are followed by something
else. -/
theorem readDecimal?_of_split {text whole rest fraction last : List Char} {negative : Bool}
    {e : Int} (sign : splitSign text = (negative, whole ++ rest)) (digits : Digits whole)
    (stops : rest.takeWhile Char.isDigit = []) (split : splitFraction rest = (fraction, last))
    (nonempty : ¬ (whole = [] ∧ fraction = [])) (exponent : readExponent? last = some e) :
    readDecimal? text =
      some ⟨negative, magnitude (whole ++ fraction), e - fraction.length⟩ := by
  have first : (whole ++ rest).takeWhile Char.isDigit = whole := by
    rw [List.takeWhile_append_of_pos digits, stops, List.append_nil]
  have others : (whole ++ rest).dropWhile Char.isDigit = rest := by
    rw [List.dropWhile_append_of_pos digits]
    have whole_rest := List.takeWhile_append_dropWhile (p := Char.isDigit) (l := rest)
    rwa [stops, List.nil_append] at whole_rest
  simp only [readDecimal?, sign, first, others, split, exponent, Option.map_some,
    if_neg nonempty]

theorem readDecimal?_withSign (negative : Bool) {whole rest fraction last : List Char} {e : Int}
    (digits : Digits whole) (nonempty : whole ≠ [])
    (stops : rest.takeWhile Char.isDigit = []) (split : splitFraction rest = (fraction, last))
    (exponent : readExponent? last = some e) :
    readDecimal? (withSign negative (whole ++ rest)) =
      some ⟨negative, magnitude (whole ++ fraction), e - fraction.length⟩ :=
  readDecimal?_of_split (splitSign_withSign negative rest digits nonempty) digits stops split
    (fun none => nonempty none.1) exponent

end Numeral

namespace Decimal

open Numeral

theorem magnitude_digits (d : Decimal) : magnitude d.digits = d.coefficient :=
  magnitude_toDigits d.coefficient

/-- The digits are the significant ones followed by zeros. -/
theorem significant_append_zeros (digits : List Char) :
    ∃ count, digits = significant digits ++ List.replicate count '0' := by
  let zeros := digits.reverse.takeWhile (· = '0')
  have all_zeros : zeros = List.replicate zeros.length '0' :=
    List.eq_replicate_of_mem fun c member => by simpa using List.mem_takeWhile_imp member
  refine ⟨zeros.length, ?_⟩
  calc digits = (zeros ++ digits.reverse.dropWhile (· = '0')).reverse := by
        rw [List.takeWhile_append_dropWhile, List.reverse_reverse]
    _ = significant digits ++ zeros.reverse := by rw [List.reverse_append, significant]
    _ = significant digits ++ List.replicate zeros.length '0' := by
        rw [all_zeros, List.reverse_replicate, List.length_replicate]

theorem digits_significant {digits : List Char} (all : Digits digits) :
    Digits (significant digits) := by
  obtain ⟨count, equal⟩ := significant_append_zeros digits
  intro c member
  exact all c (equal ▸ List.mem_append_left _ member)

/-- What stands on the two sides of the point: digits on both, at least one before the point, and
together the given digits with the point at the given place. -/
theorem splitAtPoint_spec (place : Int) {digits whole fraction : List Char} (all : Digits digits)
    (split : splitAtPoint place digits = (whole, fraction)) :
    Digits whole ∧ Digits fraction ∧ whole ≠ [] ∧
      ∃ count : Nat, magnitude (whole ++ fraction) = magnitude digits * 10 ^ count ∧
        (count : Int) - fraction.length = place + 1 - digits.length := by
  cases place with
  | ofNat above =>
    -- Zeros are put in between the digits and the point if there are too few digits before it.
    simp only [splitAtPoint, Prod.mk.injEq] at split
    obtain ⟨rfl, rfl⟩ := split
    refine ⟨?_, fun c member => all c (List.mem_of_mem_drop member), ?_,
      above + 1 - digits.length, ?_, ?_⟩
    · intro c member
      have either := List.mem_append.mp (List.mem_of_mem_take member)
      rcases either with old | zero
      · exact all c old
      · rw [List.eq_of_mem_replicate zero]
        decide
    · intro empty
      have length := congrArg List.length empty
      simp only [List.length_take, List.length_append, List.length_replicate,
        List.length_nil] at length
      omega
    · rw [← magnitude_append_zeros]
      congr 1
      by_cases short : digits.length ≤ above + 1
      · rw [List.drop_eq_nil_of_le short, List.append_nil, List.take_of_length_le]
        simp only [List.length_append, List.length_replicate]
        omega
      · have none : above + 1 - digits.length = 0 := by omega
        simp [none]
    · rw [List.length_drop, Int.ofNat_eq_natCast]
      omega
  | negSucc below =>
    -- Zeros are put in between the point and the digits, and one before the point.
    simp only [splitAtPoint, Prod.mk.injEq] at split
    obtain ⟨rfl, rfl⟩ := split
    refine ⟨digits_zero, ?_, by decide, 0, ?_, ?_⟩
    · intro c member
      rcases List.mem_append.mp member with zero | old
      · rw [List.eq_of_mem_replicate zero]
        decide
      · exact all c old
    · rw [← List.append_assoc, show ['0'] ++ List.replicate below '0' =
        List.replicate (below + 1) '0' from rfl, magnitude_zeros_append]
      simp
    · simp only [List.length_append, List.length_replicate, Int.negSucc_eq]
      omega

/-- The three ways in which a decimal is written without its sign, each with the digits before
the point, those behind it and the exponent. -/
inductive Shape (whole : List Char) : List Char → Int → List Char → Prop where
  | point (fraction : List Char) : Shape whole fraction 0 (whole ++ '.' :: fraction)
  | exponent (e : Int) : Shape whole [] e (whole ++ 'e' :: integerText e)
  | both (fraction : List Char) (e : Int) :
    Shape whole fraction e (whole ++ ('.' :: fraction ++ 'e' :: integerText e))

/-- The characters of a written number: digits, the sign, the point and the exponent's letter. -/
def isNumberChar (c : Char) : Bool :=
  c.isDigit || c = '-' || c = '.' || c = 'e'

theorem integerText_chars (n : Int) : ∀ c ∈ integerText n, isNumberChar c = true := by
  intro c member
  cases n with
  | ofNat m => simp [isNumberChar, digits_toDigits m c member]
  | negSucc m =>
    rcases List.mem_cons.mp member with rfl | digit
    · rfl
    · simp [isNumberChar, digits_toDigits (m + 1) c digit]

namespace Shape

variable {whole fraction text : List Char} {e : Int}

/-- What a text of one of the shapes denotes. -/
theorem readDecimal? (shape : Shape whole fraction e text) (negative : Bool)
    (digits : Digits whole) (nonempty : whole ≠ []) (others : Digits fraction) :
    Numeral.readDecimal? (withSign negative text) =
      some ⟨negative, magnitude (whole ++ fraction), e - fraction.length⟩ := by
  have read : ∀ n, readExponent? ('e' :: integerText n) = some n := fun n => by
    simp [readExponent?, readInteger?_integerText]
  cases shape with
  | point =>
    have none : readExponent? [] = some 0 := rfl
    refine readDecimal?_withSign negative digits nonempty rfl ?_ none
    simp [splitFraction, List.takeWhile_eq_self_iff.mpr others,
      List.dropWhile_eq_nil_iff.mpr others]
  | exponent => exact readDecimal?_withSign negative digits nonempty rfl rfl (read e)
  | both =>
    refine readDecimal?_withSign negative digits nonempty rfl ?_ (read e)
    simp [splitFraction, List.takeWhile_append_of_pos others,
      List.dropWhile_append_of_pos others]

/-- No text of one of the shapes is an integer numeral. -/
theorem readInteger?_eq_none (shape : Shape whole fraction e text) (negative : Bool)
    (digits : Digits whole) (nonempty : whole ≠ []) :
    Numeral.readInteger? (withSign negative text) = none := by
  cases shape with
  | point =>
    exact Numeral.readInteger?_eq_none negative digits nonempty (List.mem_cons_self ..) (by decide)
  | exponent =>
    exact Numeral.readInteger?_eq_none negative digits nonempty (List.mem_cons_self ..) (by decide)
  | both =>
    exact Numeral.readInteger?_eq_none negative digits nonempty (List.mem_cons_self ..) (by decide)

theorem chars (shape : Shape whole fraction e text) (digits : Digits whole)
    (others : Digits fraction) : ∀ c ∈ text, isNumberChar c = true := by
  have digit : ∀ c : Char, c.isDigit = true → isNumberChar c = true := fun c is => by
    simp [isNumberChar, is]
  intro c member
  cases shape with
  | point =>
    rcases List.mem_append.mp member with old | new
    · exact digit c (digits c old)
    · rcases List.mem_cons.mp new with rfl | new
      · rfl
      · exact digit c (others c new)
  | exponent =>
    rcases List.mem_append.mp member with old | new
    · exact digit c (digits c old)
    · rcases List.mem_cons.mp new with rfl | new
      · rfl
      · exact integerText_chars e c new
  | both =>
    rcases List.mem_append.mp member with old | new
    · exact digit c (digits c old)
    · rcases List.mem_append.mp new with point | power
      · rcases List.mem_cons.mp point with rfl | new
        · rfl
        · exact digit c (others c new)
      · rcases List.mem_cons.mp power with rfl | new
        · rfl
        · exact integerText_chars e c new

end Shape

/-- A text of one of the shapes says what the digits say with the leading one at the place. -/
def Writes (place : Int) (digits text : List Char) : Prop :=
  ∃ whole fraction e, Shape whole fraction e text ∧ Digits whole ∧ Digits fraction ∧ whole ≠ [] ∧
    ∃ count : Nat, magnitude (whole ++ fraction) = magnitude digits * 10 ^ count ∧
      count + e - fraction.length = place + 1 - digits.length

theorem positional_writes (place : Int) {digits : List Char} (all : Digits digits) :
    Writes place digits (positional place digits) := by
  cases split : splitAtPoint place digits with
  | mk whole fraction =>
    obtain ⟨before, behind, nonempty, count, value, exponent⟩ := splitAtPoint_spec place all split
    simp only [positional, split]
    by_cases none : fraction = []
    · -- The zero that stands for an empty fraction counts as one more zero at the end.
      subst none
      refine ⟨whole, ['0'], 0, .point ['0'], before, digits_zero, nonempty, count + 1, ?_, ?_⟩
      · have zero := magnitude_append_zeros whole 1
        simp only [List.append_nil] at value
        calc magnitude (whole ++ ['0']) = magnitude whole * 10 ^ 1 := zero
          _ = magnitude digits * 10 ^ (count + 1) := by rw [value]; ring
      · simp only [List.length_nil, List.length_singleton] at exponent ⊢
        omega
    · rw [if_neg none]
      exact ⟨whole, fraction, 0, .point fraction, before, behind, nonempty, count, value,
        by omega⟩

theorem scientific_writes (place : Int) {digits : List Char} (all : Digits digits) :
    Writes place digits (scientific place digits) := by
  match digits with
  | [] =>
    -- Zero has no significant digit, and is written as if it had one.
    refine ⟨['0'], [], place, .exponent place, digits_zero, digits_nil, by simp, 1, by decide, ?_⟩
    simp
    omega
  | [digit] =>
    refine ⟨[digit], [], place, .exponent place, all, digits_nil, by simp, 0, by simp, ?_⟩
    simp
  | digit :: next :: others =>
    have first : Digits [digit] := fun c member =>
      all c (List.mem_cons.mpr (.inl (List.mem_singleton.mp member)))
    have behind : Digits (next :: others) := fun c member => all c (List.mem_cons_of_mem _ member)
    refine ⟨[digit], next :: others, place, .both (next :: others) place, first, behind, by simp,
      0, by simp, ?_⟩
    simp only [List.length_cons]
    omega

/-- The text of a decimal is its sign followed by a text of one of the shapes. -/
theorem render_writes (layout : Layout) (d : Decimal) :
    ∃ text, d.render layout = withSign d.negative text ∧
      Writes d.place (significant d.digits) text := by
  have all : Digits (significant d.digits) := digits_significant (digits_toDigits d.coefficient)
  by_cases inside : layout.least ≤ d.place ∧ d.place ≤ layout.greatest
  · refine ⟨positional d.place (significant d.digits), ?_, positional_writes d.place all⟩
    simp [render, withSign, inside]
  · refine ⟨scientific d.place (significant d.digits), ?_, scientific_writes d.place all⟩
    simp [render, withSign, inside]

/-- The text of a decimal is read as a decimal of the same number. -/
theorem readDecimal?_render (layout : Layout) (d : Decimal) :
    ∃ read, Numeral.readDecimal? (d.render layout) = some read ∧ read.Same d := by
  obtain ⟨text, equal, whole, fraction, e, shape, before, behind, nonempty, count, value,
    exponent⟩ := render_writes layout d
  have read := shape.readDecimal? d.negative before nonempty behind
  rw [← equal] at read
  refine ⟨_, read, rfl, ?_⟩
  -- The zeros that were dropped make up for those that the text has put in.
  obtain ⟨zeros, digits⟩ := significant_append_zeros d.digits
  have coefficient : d.coefficient = magnitude (significant d.digits) * 10 ^ zeros := by
    rw [← magnitude_digits, ← magnitude_append_zeros, ← digits]
  have length : d.digits.length = (significant d.digits).length + zeros := by
    have lengths := congrArg List.length digits
    simpa using lengths
  refine ⟨zeros, count, ?_, ?_⟩
  · calc magnitude (whole ++ fraction) * 10 ^ zeros
        = magnitude (significant d.digits) * 10 ^ zeros * 10 ^ count := by rw [value]; ring
      _ = d.coefficient * 10 ^ count := by rw [coefficient]
  · simp only [place, length] at exponent
    simp only
    omega

theorem readInteger?_render (layout : Layout) (d : Decimal) :
    Numeral.readInteger? (d.render layout) = none := by
  obtain ⟨text, equal, whole, fraction, e, shape, before, _, nonempty, _⟩ :=
    render_writes layout d
  rw [equal]
  exact shape.readInteger?_eq_none d.negative before nonempty

theorem render_chars (layout : Layout) (d : Decimal) :
    ∀ c ∈ d.render layout, isNumberChar c = true := by
  obtain ⟨text, equal, whole, fraction, e, shape, before, behind, _⟩ := render_writes layout d
  intro c member
  rw [equal, withSign] at member
  cases sign : d.negative with
  | false =>
    simp only [sign] at member
    exact shape.chars before behind c member
  | true =>
    simp only [sign, if_true] at member
    rcases List.mem_cons.mp member with rfl | member
    · rfl
    · exact shape.chars before behind c member

theorem render_ne_nil (layout : Layout) (d : Decimal) : d.render layout ≠ [] := by
  intro empty
  have read := readDecimal?_render layout d
  rw [empty] at read
  obtain ⟨_, none, _⟩ := read
  cases none

end Decimal

end MiniLisp
