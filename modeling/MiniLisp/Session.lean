import MiniLisp.Eval
import MiniLisp.Options

/-!
# Sessions

A session is a row of lines that are read and evaluated in one world. Two ways to answer a line
are defined here. `evaluateLine` gives the value of the line or the fault that kept it from having
one. `answerLine` gives what a person is shown for it: nothing for a blank line and for a value
that counts as false, the text of any other value or fault, and before it, if wanted, the tree
that was read. Only the second one takes a request to leave for more than a fault.
-/
namespace MiniLisp.Session

/-- How deep the evaluations of a session may nest. -/
def depthLimit : Nat := 1000000

/-- The global scope of a fresh world, which is its first and only one. -/
def globalScope : ScopeId := 0

/-- The tree of the first form of a line. Tokens behind it are ignored, and that is recorded. -/
def readLine (line : String) : Run Value :=
  match Form.read line with
  | .error cause => Run.fail (.syntaxFault cause)
  | .ok (form, 0) => return form
  | .ok (form, ignored) => do
    Run.emit (.ignoredTokens ignored)
    return form

def evaluateLine (depth : Nat) (scope : ScopeId) (line : String) : Run Value := do
  let form ← readLine line
  eval depth form scope

inductive Shown where
  | echo (text : String)
  | value (text : String)
  | fault (text : String)
  deriving DecidableEq

namespace Shown

def text : Shown → String
  | .echo text | .value text | .fault text => text

end Shown

/-- What becomes of a line: things are shown and the session goes on, or it is left. -/
inductive Answer where
  | shown (things : List Shown)
  | exit (code : Int32)
  deriving DecidableEq

def echoed (options : Options) (form : Value) : List Shown :=
  if options.echo then [.echo form.inspected] else []

/-- The text of a value that does not count as false. -/
def shownValue (v : Value) : List Shown :=
  if v.isTruthy then [.value v.readable] else []

/-- Evaluates a tree that was read and answers with what is shown for it. -/
def answerForm (depth : Nat) (options : Options) (scope : ScopeId) (form : Value) :
    Run Answer := do
  match ← Run.attempt (eval depth form scope) with
  | .ok v => return .shown (echoed options form ++ shownValue v)
  -- Leaving shows nothing, not even the tree.
  | .error (.exit code) =>
    Run.emit (.quitting code)
    return .exit code
  | .error fault => return .shown (echoed options form ++ [.fault fault.message])

/-- Reads and evaluates a line and answers with what is shown for it. -/
def answerLine (depth : Nat) (options : Options) (scope : ScopeId) (line : String) :
    Run Answer := do
  if Text.isBlankText line then return .shown []
  else
    match ← Run.attempt (readLine line) with
    | .ok form => answerForm depth options scope form
    | .error fault => return .shown [.fault fault.message]

/-- Evaluates some lines and then a procedure, reads arguments without evaluating them, and applies
the procedure. A fault in all that leads up to the application ends the run; how the application
itself ends is the value of the run. -/
def call (depth : Nat) (scope : ScopeId) (setup : List String) (procedure : String)
    (arguments : List String) : Run (Except Fault Value) := do
  let _ ← setup.mapM (evaluateLine depth scope)
  let f ← evaluateLine depth scope procedure
  let vs ← arguments.mapM readLine
  Run.attempt (apply depth f vs)

/-! ### Steps -/

/-- What one run of a session leaves to be looked at: its result, the text that it displayed and
its trace. -/
structure Step (α : Type) where
  result : Except Fault α
  output : String
  trace : Trace

/-- Runs a computation as a step, and keeps the world without the text it displayed. -/
def step {α : Type} (run : Run α) (world : World) : Option (Step α × World) :=
  match run { world with output := "" } with
  | none => none
  | some ⟨result, ⟨store, closuresMade, output⟩, trace⟩ =>
    some (⟨result, output, trace⟩, ⟨store, closuresMade, ""⟩)

/-- Evaluates lines one after another, going on after faults and requests to leave. -/
def evaluateLines (depth : Nat) (scope : ScopeId) :
    List String → World → Option (List (Step Value))
  | [], _ => some []
  | line :: rest, world => do
    let (first, after) ← step (evaluateLine depth scope line) world
    let others ← evaluateLines depth scope rest after
    return first :: others

/-- Whether an answer leaves the session. -/
def leaves : Except Fault Answer → Bool
  | .ok (.exit _) => true
  | _ => false

/-- Answers lines one after another, up to the one that leaves the session. -/
def answerLines (depth : Nat) (options : Options) (scope : ScopeId) :
    List String → World → Option (List (Step Answer))
  | [], _ => some []
  | line :: rest, world => do
    let (first, after) ← step (answerLine depth options scope line) world
    if leaves first.result then return [first]
    let others ← answerLines depth options scope rest after
    return first :: others

end MiniLisp.Session
