/-!
# Blank characters

A character is blank when it has the Unicode property White_Space. The property holds twenty-five
characters in ten ranges; the ASCII blanks are six of them, and the no-break and ideographic
spaces count as well. Tokens are separated by blanks, and a line of blanks alone asks for nothing.
-/
namespace MiniLisp.Text

/-- The ranges of the property White_Space, first and last code point of each. -/
def blankRanges : List (Nat × Nat) :=
  [(0x09, 0x0D), (0x20, 0x20), (0x85, 0x85), (0xA0, 0xA0), (0x1680, 0x1680), (0x2000, 0x200A),
   (0x2028, 0x2029), (0x202F, 0x202F), (0x205F, 0x205F), (0x3000, 0x3000)]

/-- Whether the character separates tokens. -/
def isBlank (c : Char) : Bool :=
  blankRanges.any fun range => range.1 ≤ c.toNat && c.toNat ≤ range.2

def isBlankText (text : String) : Bool :=
  text.toList.all isBlank

theorem isBlank_opening : isBlank '(' = false := by decide

theorem isBlank_closing : isBlank ')' = false := by decide

end MiniLisp.Text
