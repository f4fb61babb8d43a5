import MiniLisp.Store
import MiniLisp.Trace

/-!
# Runs

A run takes the world as it finds it and ends with a value or a fault, the world as it leaves it
and a trace. What was done before a fault stays done. A run may also be cut short because it
nests deeper than it was allowed to; that is no fault of the program and has no report at all, so
it can never be mistaken for an answer.

The world is the store of scopes, the number of closures made so far, from which closures get
their serial numbers, and the text that has been displayed. The trace only ever grows at its end
and is not part of the world.
-/
namespace MiniLisp

structure World where
  store : Store
  closuresMade : Nat
  output : String

namespace World

def empty : World := ⟨Store.empty, 0, ""⟩

/-- A world with one global scope, which has the number zero. -/
def fresh : World := { empty with store := Store.empty.add Scope.global }

end World

/-- What a run that came to its end leaves behind. -/
structure Report (α : Type) where
  result : Except Fault α
  world : World
  trace : Trace

/-- A computation on worlds; no report stands for one that was cut short. -/
def Run (α : Type) := World → Option (Report α)

namespace Run

@[inline] def pure {α : Type} (a : α) : Run α :=
  fun world => some ⟨.ok a, world, .empty⟩

@[inline] def fail {α : Type} (fault : Fault) : Run α :=
  fun world => some ⟨.error fault, world, .empty⟩

@[inline] def cutShort {α : Type} : Run α :=
  fun _ => none

/-- Runs one computation and then the one that its value selects, unless it ends with a fault. -/
@[inline] def bind {α β : Type} (first : Run α) (next : α → Run β) : Run β := fun world =>
  match first world with
  | none => none
  -- What was done before the fault stays done.
  | some ⟨.error fault, after, trace⟩ => some ⟨.error fault, after, trace⟩
  | some ⟨.ok a, between, earlier⟩ =>
    match next a between with
    | none => none
    | some ⟨result, after, later⟩ => some ⟨result, after, .both earlier later⟩

instance : Monad Run where
  pure := Run.pure
  bind := Run.bind

/-- Ends as the given result says. -/
@[inline] def ofExcept {α : Type} : Except Fault α → Run α
  | .ok a => Run.pure a
  | .error fault => Run.fail fault

@[inline] def emit (event : Event) : Run Unit :=
  fun world => some ⟨.ok (), world, .single event⟩

@[inline] def world : Run World :=
  fun world => some ⟨.ok world, world, .empty⟩

/-- Turns the result of a computation into its value, so that what follows can look at a fault. -/
@[inline] def attempt {α : Type} (run : Run α) : Run (Except Fault α) := fun world =>
  match run world with
  | none => none
  | some ⟨result, after, trace⟩ => some ⟨.ok result, after, trace⟩

@[inline] def write (text : String) : Run Unit := fun ⟨store, closuresMade, output⟩ =>
  some ⟨.ok (), ⟨store, closuresMade, output ++ text⟩, .empty⟩

/-- The value of a name in the nearest scope that binds it. -/
@[inline] def fetch (name : String) (scope : ScopeId) : Run Value := fun world =>
  match world.store.get? name scope with
  | some v => some ⟨.ok v, world, .empty⟩
  | none => some ⟨.error (.unknownSymbol name), world, .empty⟩

@[inline] def define (name : String) (v : Value) (scope : ScopeId) : Run Unit :=
  fun ⟨store, closuresMade, output⟩ =>
    some ⟨.ok (), ⟨store.define name v scope, closuresMade, output⟩, .empty⟩

/-- Gives a new value to a name in the nearest scope that binds it. -/
@[inline] def assign (name : String) (v : Value) (scope : ScopeId) : Run Unit := fun world =>
  match world.store.owner? name scope with
  | some owner => define name v owner world
  | none => fail (.unknownSymbol name) world

@[inline] def addScope (scope : Scope) : Run ScopeId := fun ⟨store, closuresMade, output⟩ =>
  some ⟨.ok store.size, ⟨store.add scope, closuresMade, output⟩, .empty⟩

/-- Makes a child of a scope that binds the parameters to the arguments, one each. -/
@[inline] def extend (parameters : List String) (arguments : List Value) (parent : ScopeId) :
    Run ScopeId :=
  let expected := Arity.exactly parameters.length
  if expected.accepts arguments.length then
    addScope ⟨some parent, Bindings.ofLists parameters arguments⟩
  else fail (.argumentCount "lambda" expected arguments.length)

/-- Makes a closure with the next serial number. -/
@[inline] def close (parameters : List String) (body : Value) (scope : ScopeId) : Run Value :=
  fun ⟨store, closuresMade, output⟩ =>
    some ⟨.ok (.closure closuresMade parameters body scope),
      ⟨store, closuresMade + 1, output⟩, .empty⟩

end Run

end MiniLisp
