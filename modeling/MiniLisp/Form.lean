import MiniLisp.Binary64.OfDecimal
import MiniLisp.Numeral
import MiniLisp.Token
import MiniLisp.Value.Basic

/-!
# Forms

A form is what one value is written as: an atom, or a list of forms in brackets. Reading takes
the first form of a token list and leaves the tokens behind it alone. It walks the tokens once and
keeps a stack of the lists that are still open, innermost first, each with its elements so far in
reverse; so it fails only on a closing bracket that opens nothing, which must then be the first
token, or at the end of the tokens.
-/
namespace MiniLisp

/-- Why a token list does not begin with a form. -/
inductive SyntaxFault where
  | unexpectedEnd
  | unexpectedClose
  deriving DecidableEq

namespace SyntaxFault

def message : SyntaxFault → String
  | .unexpectedEnd => "syntax error: unexpected EOF while reading"
  | .unexpectedClose => "syntax error: unexpected close-paren"

end SyntaxFault

namespace Form

/-- Whether an integer can be held in 64 bits. -/
def fits (n : Int) : Bool :=
  Int64.minValue.toInt ≤ n && n ≤ Int64.maxValue.toInt

/-- The integer that an atom denotes, if it is an integer numeral within 64 bits. -/
def integer? (text : List Char) : Option Int64 :=
  match Numeral.readInteger? text with
  | some n => if fits n then some (Int64.ofInt n) else none
  | none => none

/-- The float that an atom denotes, if it is a decimal numeral that rounds to a finite one. -/
def float? (text : List Char) : Option Binary64 :=
  match Numeral.readDecimal? text with
  | some d => if (Binary64.ofDecimal d).isFinite then some (Binary64.ofDecimal d) else none
  | none => none

/-- The value of an atom: an integer if it can be one, else a float, else a symbol. -/
def ofAtom (text : String) : Value :=
  match integer? text.toList with
  | some n => .integer n
  | none =>
    match float? text.toList with
    | some x => .float x
    | none => .symbol text

/-- Reads on with the given lists open, and returns the form and the tokens behind it. -/
def readFrom : List (List Value) → List Token → Except SyntaxFault (Value × List Token)
  | _, [] => .error .unexpectedEnd
  | stack, .opening :: rest => readFrom ([] :: stack) rest
  | [], .closing :: _ => .error .unexpectedClose
  -- The outermost list is closed, and with it the form ends.
  | [items], .closing :: rest => .ok (.list items.reverse, rest)
  | items :: outer :: stack, .closing :: rest =>
    readFrom ((.list items.reverse :: outer) :: stack) rest
  | [], .atom text :: rest => .ok (ofAtom text, rest)
  | items :: stack, .atom text :: rest => readFrom ((ofAtom text :: items) :: stack) rest

def ofTokens (tokens : List Token) : Except SyntaxFault (Value × List Token) :=
  readFrom [] tokens

/-- Reads the first form of a text, and counts the tokens behind it. -/
def read (text : String) : Except SyntaxFault (Value × Nat) :=
  match ofTokens (Token.scan text) with
  | .ok (form, rest) => .ok (form, rest.length)
  | .error fault => .error fault

end Form

end MiniLisp
