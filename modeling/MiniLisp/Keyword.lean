/-!
# Keywords

A list that begins with one of six words is not a call but a form with rules of its own. The words
cannot be taken away by binding them. Quotation has a second spelling, the apostrophe.
-/
namespace MiniLisp

inductive Keyword where
  | quote | conditional | assign | define | lambda | begin
  deriving DecidableEq

namespace Keyword

/-- The keyword that a word spells, if it spells one. -/
def ofName? (name : String) : Option Keyword :=
  if name = "quote" then some .quote
  else if name = "'" then some .quote
  else if name = "if" then some .conditional
  else if name = "set!" then some .assign
  else if name = "define" then some .define
  else if name = "lambda" then some .lambda
  else if name = "begin" then some .begin
  else none

/-- The word by which messages call the form. -/
def name : Keyword → String
  | .quote => "quote"
  | .conditional => "if"
  | .assign => "set!"
  | .define => "define"
  | .lambda => "lambda"
  | .begin => "begin"

theorem ofName?_name (keyword : Keyword) : ofName? keyword.name = some keyword := by
  cases keyword <;> decide

end Keyword

end MiniLisp
