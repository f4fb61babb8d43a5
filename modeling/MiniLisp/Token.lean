import MiniLisp.Text.Blank

/-!
# Tokens

A line is cut into round brackets and atoms. An atom is a longest run of characters that are
neither blank nor brackets; there are no comments, and quotes are characters like any other.
-/
namespace MiniLisp

/-- A bracket or the text of an atom. -/
inductive Token where
  | opening
  | closing
  | atom (text : String)
  deriving DecidableEq

namespace Token

/-- Puts the atom whose characters have been collected, last one first, before the tokens. -/
def flush (pending : List Char) (tokens : List Token) : List Token :=
  if pending = [] then tokens else .atom (String.ofList pending.reverse) :: tokens

/-- The tokens of the characters that come after the characters of an unfinished atom. -/
def scanFrom (pending : List Char) : List Char → List Token
  | [] => flush pending []
  | c :: rest =>
    if c = '(' then flush pending (.opening :: scanFrom [] rest)
    else if c = ')' then flush pending (.closing :: scanFrom [] rest)
    else if Text.isBlank c then flush pending (scanFrom [] rest)
    else scanFrom (c :: pending) rest

def scan (text : String) : List Token :=
  scanFrom [] text.toList

end Token

end MiniLisp
