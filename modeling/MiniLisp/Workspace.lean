import MiniLisp.Session

/-!
# Workspaces

A workspace holds any number of environments in one world. An environment is a scope with all its
ancestors, and is given by that scope. The workspace numbers the environments it was asked to
make, beginning with a global one. Requests are answered one after another, each in the world that
the one before has left, and a request that fails makes no environment.
-/
namespace MiniLisp

structure Workspace where
  world : World
  environments : List ScopeId

/-- What a workspace can be asked to do. -/
inductive Request where
  | openGlobal
  | extend (environment : ScopeId) (parameters : List String) (arguments : List String)
  | define (environment : ScopeId) (name : String) (value : String)
  | assign (environment : ScopeId) (name : String) (value : String)
  | get (environment : ScopeId) (name : String)
  | fetch (environment : ScopeId) (name : String)
  | depth (environment : ScopeId)
  | describe (environment : ScopeId)
  | eval (environment : ScopeId) (line : String)

/-- The answer to a request that did not fail. -/
inductive Response where
  | opened (environment : ScopeId) (text : String)
  | value (v : Value)
  | absent
  | assigned
  | depth (n : Nat)
  | described (text : String)

namespace Workspace

def start : Workspace := ⟨World.fresh, [Session.globalScope]⟩

def environment? (workspace : Workspace) (number : Nat) : Option ScopeId :=
  workspace.environments[number]?

def textOf (scope : ScopeId) : Run String := do
  let world ← Run.world
  return scopeText (world.store.depth scope) (world.store.bindings scope).length

/-- Answers with a value that may be missing. -/
def optional : Option Value → Response
  | some v => .value v
  | none => .absent

def respond (depth : Nat) : Request → Run Response
  | .openGlobal => do
    let scope ← Run.addScope Scope.global
    return .opened scope (← textOf scope)
  | .extend environment parameters arguments => do
    let vs ← arguments.mapM Session.readLine
    let scope ← Run.extend parameters vs environment
    return .opened scope (← textOf scope)
  | .define environment name text => do
    let v ← Session.readLine text
    let world ← Run.world
    Run.define name v environment
    return optional ((world.store.bindings environment).get? name)
  | .assign environment name text => do
    let v ← Session.readLine text
    Run.assign name v environment
    return .assigned
  | .get environment name => do
    let world ← Run.world
    return optional (world.store.get? name environment)
  | .fetch environment name => return .value (← Run.fetch name environment)
  | .depth environment => do
    let world ← Run.world
    return .depth (world.store.depth environment)
  | .describe environment => return .described (← textOf environment)
  | .eval environment line => return .value (← Session.evaluateLine depth environment line)

/-- The environments after a response. -/
def numbered (environments : List ScopeId) : Except Fault Response → List ScopeId
  | .ok (.opened scope _) => environments ++ [scope]
  | _ => environments

/-- Carries out a request as a step. -/
def perform (depth : Nat) (request : Request) (workspace : Workspace) :
    Option (Session.Step Response × Workspace) :=
  match Session.step (respond depth request) workspace.world with
  | none => none
  | some (step, world) => some (step, ⟨world, numbered workspace.environments step.result⟩)

end Workspace

end MiniLisp
