import MiniLisp.Form
import MiniLisp.Keyword
import MiniLisp.Value.Printer

/-!
# Faults

What can keep a line from having a value. A fault names its cause; the wording of every cause is
in `Fault.message`. The request to leave, raised by the primitive `quit`, travels like a fault, so
that nothing in the language can hold it up.
-/
namespace MiniLisp

/-- What an argument was expected to be. -/
inductive Expectation where
  | number
  | integer
  | list
  deriving DecidableEq

/-- The causes for which a line has no value. -/
inductive Fault where
  | syntaxFault (cause : SyntaxFault)
  | unknownSymbol (name : String)
  | notCallable (v : Value)
  | argumentCount (procedure : String) (expected : Arity) (received : Nat)
  | operandCount (keyword : Keyword) (received : Nat)
  | targetNotSymbol (keyword : Keyword)
  | parametersNotList
  | parameterNotSymbol
  | typeMismatch (expected : Expectation)
  | divisionByZero
  | exit (code : Int32)
  -- No case of the primitive fits the arguments. The check of their number, which comes before
  -- every call, leaves only lists of arguments that some case fits.
  | noCase (p : Primitive)

namespace Expectation

def render : Expectation → String
  | .number => "a number"
  | .integer => "an integer"
  | .list => "a list"

end Expectation

namespace Fault

def message : Fault → String
  | .syntaxFault cause => cause.message
  | .unknownSymbol name => "Undefined symbol " ++ name
  | .notCallable v => "cannot apply " ++ v.readable ++ ": not a procedure"
  | .argumentCount procedure expected received =>
    "When evaluating " ++ procedure ++ " expected " ++ expected.render ++
      " arguments, but received " ++ toString received ++ " arguments"
  | .operandCount keyword received =>
    keyword.name ++ ": malformed, got " ++ toString received ++ " operands"
  | .targetNotSymbol keyword => keyword.name ++ ": can only bind a symbol"
  | .parametersNotList => "lambda: parameters must be given as a list"
  | .parameterNotSymbol => "lambda: every parameter must be a symbol"
  | .typeMismatch expected => "type mismatch: expected " ++ expected.render
  | .divisionByZero => "cannot divide by zero!"
  | .exit code => "exit requested with code " ++ toString code.toInt
  | .noCase p => p.name ++ ": no case for these arguments"

end Fault

end MiniLisp
