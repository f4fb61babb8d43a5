import MiniLisp.Fault

/-!
# Traces

While a program runs it leaves records of what happens, each with a level that says how much
anyone will want to know it. A record is kept as the event it reports, and its wording is made
only when the record is shown. Nothing that is computed depends on the records left so far.
-/
namespace MiniLisp

/-- How important a record is, most important first. -/
inductive Level where
  | error | warn | info | debug | trace
  deriving DecidableEq

namespace Level

/-- The number of levels that are at least as important. -/
def rank : Level → Nat
  | .error => 1
  | .warn => 2
  | .info => 3
  | .debug => 4
  | .trace => 5

def name : Level → String
  | .error => "ERROR"
  | .warn => "WARN"
  | .info => "INFO"
  | .debug => "DEBUG"
  | .trace => "TRACE"

end Level

/-- Which records are shown: none, or those at least as important as a level. -/
inductive Threshold where
  | off
  | upTo (least : Level)
  deriving DecidableEq

namespace Threshold

def ofName? (name : String) : Option Threshold :=
  if name = "off" then some .off
  else if name = "error" then some (.upTo .error)
  else if name = "warn" then some (.upTo .warn)
  else if name = "info" then some (.upTo .info)
  else if name = "debug" then some (.upTo .debug)
  else if name = "trace" then some (.upTo .trace)
  else none

/-- Whether a record of the given level is shown. -/
def admits : Threshold → Level → Bool
  | .off, _ => false
  | .upTo least, level => level.rank ≤ least.rank

end Threshold

inductive Event where
  | ignoredTokens (count : Nat)
  | evaluating (v : Value)
  | calling (p : Primitive) (arguments : List Value)
  | returned (p : Primitive) (v : Value)
  | failed (p : Primitive) (fault : Fault)
  | applying (parameters : List String) (body : Value) (arguments : List Value)
  | entered (depth : Nat) (bindings : Nat)
  | defined (name : String) (v : Value)
  | assigned (name : String) (v : Value)
  | quitting (code : Int32)

/-- The text that shows a scope by its depth and the number of names it binds itself. -/
def scopeText (depth bindings : Nat) : String :=
  "Environment\x7bdepth: " ++ toString depth ++ ", bindings: " ++ toString bindings ++ "\x7d"

namespace Event

def level : Event → Level
  | .ignoredTokens _ => .warn
  | .quitting _ => .info
  | .defined _ _ | .assigned _ _ => .debug
  | .evaluating _ | .calling _ _ | .returned _ _ | .failed _ _ | .applying _ _ _
  | .entered _ _ => .trace

/-- The wording of the arguments of a call; several stand on a line each. -/
def argumentsText : List Value → String
  | [] => "no args"
  | [v] => v.readable
  | vs => String.join (vs.map fun v => "\n\t" ++ v.readable)

def message : Event → String
  | .ignoredTokens count => "ignoring " ++ toString count ++ " tokens after the first form"
  | .evaluating v => "eval " ++ v.readable
  | .calling p arguments => "Call " ++ p.name ++ " with " ++ argumentsText arguments
  | .returned p v => "Call to " ++ p.name ++ " resulted in " ++ v.readable
  | .failed p fault => "Call to " ++ p.name ++ " failed: " ++ fault.message
  | .applying parameters body arguments =>
    "Call " ++ Value.closureStructure parameters body.structureText ++ " with " ++
      argumentsText arguments
  | .entered depth bindings => "entered " ++ scopeText depth bindings
  | .defined name v => "define " ++ name ++ " as " ++ v.readable
  | .assigned name v => "set! " ++ name ++ " to " ++ v.readable
  | .quitting code => "quit requested with code " ++ toString code.toInt

end Event

/-- Events in order, so put together that joining two traces takes one step. -/
inductive Trace where
  | empty
  | single (event : Event)
  | both (earlier later : Trace)

namespace Trace

/-- The events of a trace in front of the given ones. -/
def toListBefore : Trace → List Event → List Event
  | .empty, events => events
  | .single event, events => event :: events
  | .both earlier later, events => earlier.toListBefore (later.toListBefore events)

def toList (trace : Trace) : List Event :=
  trace.toListBefore []

/-- The records that the threshold admits, each with its level. -/
def records (trace : Trace) (threshold : Threshold) : List (Level × String) :=
  (trace.toList.filter fun event => threshold.admits event.level).map fun event =>
    (event.level, event.message)

end Trace

end MiniLisp
