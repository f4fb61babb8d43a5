import MiniLisp.Proofs.Decimal.Printer
import MiniLisp.Proofs.Decimal.Quotient

/-!
# The grammar of numerals

Numerals are described here without a reader: by what they are put together from, each part with
what it denotes. A row of digits denotes a natural number, an integer numeral an integer, and a
decimal numeral a sign and a rational magnitude, the sign apart because a zero has one too. The
readers take exactly these texts, and the number that they read is the one denoted. Nothing is
said of sizes: a numeral denotes its number however many digits it has and however large its
exponent is.
-/
namespace MiniLisp.Numeral

/-! ### What a numeral is -/

/-- One or more digits in base ten. -/
inductive Row : List Char → Nat → Prop where
  | digit {c : Char} (isDigit : c.isDigit = true) : Row [c] (c.toNat - '0'.toNat)
  | more {row : List Char} {n : Nat} {c : Char} (before : Row row n) (isDigit : c.isDigit = true) :
    Row (row ++ [c]) (10 * n + (c.toNat - '0'.toNat))

/-- A sign, which may be left out; `true` is the minus. -/
inductive Sign : List Char → Bool → Prop where
  | none : Sign [] false
  | plus : Sign ['+'] false
  | minus : Sign ['-'] true

/-- A sign and a row of digits. -/
inductive IntegerNumeral : List Char → ℤ → Prop where
  | mk {sign row : List Char} {negative : Bool} {n : Nat} (isSign : Sign sign negative)
    (isRow : Row row n) : IntegerNumeral (sign ++ row) (if negative then -n else n)

/-- Digits with at most one point, and a row of them on at least one side of it. -/
inductive Mantissa : List Char → ℚ → Prop where
  | whole {row : List Char} {n : Nat} (isRow : Row row n) : Mantissa row n
  | point {row : List Char} {n : Nat} (isRow : Row row n) : Mantissa (row ++ ['.']) n
  | both {row fraction : List Char} {n m : Nat} (isRow : Row row n) (isFraction : Row fraction m) :
    Mantissa (row ++ '.' :: fraction) (n + m / 10 ^ fraction.length)
  | fraction {fraction : List Char} {m : Nat} (isFraction : Row fraction m) :
    Mantissa ('.' :: fraction) (m / 10 ^ fraction.length)

/-- An exponent, which may be left out. -/
inductive Exponent : List Char → ℤ → Prop where
  | none : Exponent [] 0
  | power {letter : Char} {text : List Char} {e : ℤ} (isLetter : letter = 'e' ∨ letter = 'E')
    (isInteger : IntegerNumeral text e) : Exponent (letter :: text) e

/-- A sign, a mantissa and an exponent. -/
inductive DecimalNumeral : List Char → Bool → ℚ → Prop where
  | mk {sign digits power : List Char} {negative : Bool} {q : ℚ} {e : ℤ}
    (isSign : Sign sign negative) (isMantissa : Mantissa digits q) (isExponent : Exponent power e) :
    DecimalNumeral (sign ++ (digits ++ power)) negative (q * 10 ^ e)

variable {text : List Char}

/-! ### Rows and signs -/

theorem magnitude_concat (row : List Char) (c : Char) :
    magnitude (row ++ [c]) = 10 * magnitude row + (c.toNat - '0'.toNat) := by
  simp [magnitude, Nat.ofDigitChars_append, Nat.ofDigitChars_cons]

theorem magnitude_append (row others : List Char) :
    magnitude (row ++ others) = magnitude row * 10 ^ others.length + magnitude others := by
  unfold magnitude
  rw [Nat.ofDigitChars_append, Nat.ofDigitChars_eq_ofDigitChars_zero, Nat.mul_comm]

theorem row_iff {n : Nat} : Row text n ↔ Digits text ∧ text ≠ [] ∧ magnitude text = n := by
  constructor
  · intro row
    induction row with
    | digit isDigit =>
      exact ⟨List.forall_mem_singleton.mpr isDigit, by simp, by
        simp [magnitude, Nat.ofDigitChars_cons]⟩
    | more before isDigit ih =>
      obtain ⟨digits, -, rfl⟩ := ih
      refine ⟨?_, by simp, magnitude_concat ..⟩
      intro c member
      rcases List.mem_append.mp member with old | new
      · exact digits c old
      · rwa [List.mem_singleton.mp new]
  · rintro ⟨digits, nonempty, rfl⟩
    induction text using List.reverseRecOn with
    | nil => exact absurd rfl nonempty
    | append_singleton row c ih =>
      have last : c.isDigit = true := digits c (by simp)
      by_cases empty : row = []
      · subst empty
        simpa [magnitude, Nat.ofDigitChars_cons] using Row.digit last
      · have before := ih (fun d member => digits d (List.mem_append_left _ member)) empty
        rw [magnitude_concat]
        exact .more before last

theorem exists_sign (text : List Char) :
    ∃ sign negative rest, Sign sign negative ∧ splitSign text = (negative, rest) ∧
      text = sign ++ rest := by
  unfold splitSign
  split
  · exact ⟨_, _, _, .minus, rfl, rfl⟩
  · exact ⟨_, _, _, .plus, rfl, rfl⟩
  · exact ⟨_, _, _, .none, rfl, rfl⟩

theorem splitSign_append {sign rest : List Char} {negative : Bool} (isSign : Sign sign negative)
    (unsigned : ∀ c ∈ rest.head?, c ≠ '-' ∧ c ≠ '+') :
    splitSign (sign ++ rest) = (negative, rest) := by
  cases isSign with
  | plus => rfl
  | minus => rfl
  | none => exact splitSign_of_unsigned unsigned

/-! ### Integer numerals -/

/-- Exactly the integer numerals are read, each as the integer that it denotes. -/
theorem readInteger?_eq_some_iff {z : ℤ} :
    readInteger? text = some z ↔ IntegerNumeral text z := by
  constructor
  · intro read
    obtain ⟨sign, negative, row, isSign, split, rfl⟩ := exists_sign text
    simp only [readInteger?, split, Option.ite_none_right_eq_some, List.all_eq_true,
      Option.some.injEq] at read
    obtain ⟨⟨nonempty, digits⟩, rfl⟩ := read
    exact .mk isSign (row_iff.mpr ⟨digits, nonempty, rfl⟩)
  · rintro ⟨isSign, isRow⟩
    obtain ⟨digits, nonempty, rfl⟩ := row_iff.mp isRow
    simp only [readInteger?, splitSign_append isSign (unsigned_of_digits digits)]
    rw [if_pos ⟨nonempty, List.all_eq_true.mpr digits⟩, signed]

theorem readExponent?_eq_some_iff {e : ℤ} : readExponent? text = some e ↔ Exponent text e := by
  constructor
  · intro read
    unfold readExponent? at read
    split at read
    · cases read
      exact .none
    · next letter rest =>
      split at read
      · next isLetter => exact .power isLetter (readInteger?_eq_some_iff.mp read)
      · cases read
  · rintro (_ | ⟨isLetter, isInteger⟩)
    · rfl
    · simp only [readExponent?, if_pos isLetter]
      exact readInteger?_eq_some_iff.mpr isInteger

/-! ### Decimal numerals -/

/-- What follows a mantissa does not go on with its digits, and is not the point. -/
theorem Exponent.head {e : ℤ} (isExponent : Exponent text e) :
    ∀ c ∈ text.head?, c.isDigit = false ∧ c ≠ '.' := by
  intro c first
  cases isExponent with
  | none => cases first
  | power isLetter _ =>
    cases Option.some.inj first
    rcases isLetter with rfl | rfl <;> decide

theorem takeWhile_of_head {rest : List Char} (stops : ∀ c ∈ rest.head?, c.isDigit = false) :
    rest.takeWhile Char.isDigit = [] ∧ rest.dropWhile Char.isDigit = rest := by
  cases rest with
  | nil => exact ⟨rfl, rfl⟩
  | cons c others => simp [stops c rfl]

theorem splitFraction_point {fraction rest : List Char} (digits : Digits fraction)
    (stops : ∀ c ∈ rest.head?, c.isDigit = false) :
    splitFraction ('.' :: (fraction ++ rest)) = (fraction, rest) := by
  obtain ⟨none, all⟩ := takeWhile_of_head stops
  simp [splitFraction, List.takeWhile_append_of_pos digits, List.dropWhile_append_of_pos digits,
    none, all]

theorem splitFraction_of_head {rest : List Char} (other : ∀ c ∈ rest.head?, c ≠ '.') :
    splitFraction rest = ([], rest) := by
  unfold splitFraction
  split
  · exact absurd rfl (other '.' rfl)
  · rfl

/-- The number of a mantissa whose digits stand in the two given rows, either of them possibly
empty. -/
def fixed (whole fraction : List Char) : ℚ :=
  magnitude (whole ++ fraction) / 10 ^ fraction.length

theorem fixed_eq (whole fraction : List Char) :
    fixed whole fraction = magnitude whole + magnitude fraction / 10 ^ fraction.length := by
  unfold fixed
  rw [magnitude_append]
  push_cast
  field_simp

/-- The texts of a mantissa, by the digits before the point and those behind it. -/
theorem mantissa_iff {q : ℚ} :
    Mantissa text q ↔ ∃ whole fraction, Digits whole ∧ Digits fraction ∧
      ¬ (whole = [] ∧ fraction = []) ∧ q = fixed whole fraction ∧
      (text = whole ++ '.' :: fraction ∨ text = whole ∧ fraction = []) := by
  constructor
  · rintro (@⟨_, n, isRow⟩ | @⟨row, n, isRow⟩ | @⟨row, fraction, n, m, isRow, isFraction⟩ |
      @⟨fraction, m, isFraction⟩)
    · obtain ⟨digits, nonempty, rfl⟩ := row_iff.mp isRow
      exact ⟨text, [], digits, digits_nil, by simp [nonempty], by simp [fixed], .inr ⟨rfl, rfl⟩⟩
    · obtain ⟨digits, nonempty, rfl⟩ := row_iff.mp isRow
      exact ⟨row, [], digits, digits_nil, by simp [nonempty], by simp [fixed], .inl rfl⟩
    · obtain ⟨digits, nonempty, rfl⟩ := row_iff.mp isRow
      obtain ⟨others, -, rfl⟩ := row_iff.mp isFraction
      exact ⟨row, fraction, digits, others, by simp [nonempty], (fixed_eq ..).symm, .inl rfl⟩
    · obtain ⟨others, nonempty, rfl⟩ := row_iff.mp isFraction
      exact ⟨[], fraction, digits_nil, others, by simp [nonempty], rfl, .inl rfl⟩
  · rintro ⟨whole, fraction, digits, others, nonempty, rfl, shape⟩
    have before : whole ≠ [] → Row whole (magnitude whole) := fun some =>
      row_iff.mpr ⟨digits, some, rfl⟩
    have behind : fraction ≠ [] → Row fraction (magnitude fraction) := fun some =>
      row_iff.mpr ⟨others, some, rfl⟩
    rcases shape with rfl | ⟨rfl, rfl⟩
    · by_cases left : whole = []
      · subst left
        exact .fraction (behind fun none => nonempty ⟨rfl, none⟩)
      · by_cases right : fraction = []
        · subst right
          simpa [fixed] using Mantissa.point (before left)
        · rw [fixed_eq]
          exact .both (before left) (behind right)
    · simpa [fixed] using Mantissa.whole (before fun none => nonempty ⟨none, rfl⟩)

theorem absolute_mk (negative : Bool) (whole fraction : List Char) (e : ℤ) :
    Decimal.absolute ⟨negative, magnitude (whole ++ fraction), e - fraction.length⟩ =
      fixed whole fraction * 10 ^ e := by
  have ten : (10 : ℚ) ≠ 0 := by norm_num
  simp only [Decimal.absolute, fixed]
  rw [zpow_sub₀ ten, zpow_natCast]
  ring

/-- What the point splits a text into, and whether there is one. -/
theorem splitFraction_cases (rest : List Char) :
    Digits (splitFraction rest).1 ∧
      (rest = '.' :: ((splitFraction rest).1 ++ (splitFraction rest).2) ∨
        rest = (splitFraction rest).2 ∧ (splitFraction rest).1 = []) := by
  unfold splitFraction
  split
  next others =>
    refine ⟨fun c member => List.mem_takeWhile_imp member, .inl ?_⟩
    rw [List.takeWhile_append_dropWhile]
  next => exact ⟨digits_nil, .inr ⟨rfl, rfl⟩⟩

/-- What is read as a decimal is a numeral for it: the sign, the digits on both sides of the point
and the exponent are those that the reader has split off. -/
theorem decimalNumeral_of_read {d : Decimal} (read : readDecimal? text = some d) :
    DecimalNumeral text d.negative d.absolute := by
  obtain ⟨sign, negative, unsigned, isSign, split, rfl⟩ := exists_sign text
  have digits : Digits (unsigned.takeWhile Char.isDigit) := fun c member =>
    List.mem_takeWhile_imp member
  have rebuilt := List.takeWhile_append_dropWhile (p := Char.isDigit) (l := unsigned)
  obtain ⟨others, shape⟩ := splitFraction_cases (unsigned.dropWhile Char.isDigit)
  simp only [readDecimal?, split, Option.ite_none_left_eq_some, Option.map_eq_some_iff] at read
  obtain ⟨nonempty, e, exponent, rfl⟩ := read
  generalize unsigned.takeWhile Char.isDigit = whole at *
  generalize unsigned.dropWhile Char.isDigit = after at *
  generalize (splitFraction after).1 = fraction at *
  generalize (splitFraction after).2 = rest at *
  subst rebuilt
  have power := readExponent?_eq_some_iff.mp exponent
  rw [absolute_mk]
  rcases shape with rfl | ⟨rfl, rfl⟩
  · have isMantissa := mantissa_iff.mpr
      ⟨whole, fraction, digits, others, nonempty, rfl, .inl rfl⟩
    simpa using DecimalNumeral.mk isSign isMantissa power
  · have isMantissa := mantissa_iff.mpr
      ⟨whole, [], digits, others, nonempty, rfl, .inr ⟨rfl, rfl⟩⟩
    exact .mk isSign isMantissa power

/-- Every decimal numeral is read, with its sign and its magnitude. -/
theorem DecimalNumeral.read {negative : Bool} {q : ℚ} (numeral : DecimalNumeral text negative q) :
    ∃ d, readDecimal? text = some d ∧ d.negative = negative ∧ d.absolute = q := by
  obtain @⟨_, _, power, _, _, _, isSign, isMantissa, isExponent⟩ := numeral
  obtain ⟨whole, fraction, digits, others, nonempty, rfl, shape⟩ := mantissa_iff.mp isMantissa
  have exponent := readExponent?_eq_some_iff.mpr isExponent
  have head := isExponent.head
  rcases shape with rfl | ⟨rfl, rfl⟩
  · have unsigned : ∀ c ∈ (whole ++ '.' :: (fraction ++ power)).head?, c ≠ '-' ∧ c ≠ '+' := by
      by_cases none : whole = []
      · subst none
        rintro c ⟨⟩
        decide
      · exact unsigned_append digits none _
    have split := splitFraction_point others fun c first => (head c first).1
    rw [List.append_assoc, List.cons_append]
    exact ⟨_, readDecimal?_of_split (splitSign_append isSign unsigned) digits rfl split nonempty
      exponent, rfl, absolute_mk ..⟩
  · have unsigned := unsigned_append digits (fun none => nonempty ⟨none, rfl⟩) power
    have stops := (takeWhile_of_head fun c first => (head c first).1).1
    have split := splitFraction_of_head fun c first => (head c first).2
    exact ⟨_, readDecimal?_of_split (splitSign_append isSign unsigned) digits stops split
      nonempty exponent, rfl, absolute_mk ..⟩

/-- Exactly the decimal numerals are read, each as the number that it denotes. -/
theorem readDecimal?_iff {negative : Bool} {q : ℚ} :
    (∃ d, readDecimal? text = some d ∧ d.negative = negative ∧ d.absolute = q) ↔
      DecimalNumeral text negative q := by
  constructor
  · rintro ⟨d, read, rfl, rfl⟩
    exact decimalNumeral_of_read read
  · exact DecimalNumeral.read

end MiniLisp.Numeral
