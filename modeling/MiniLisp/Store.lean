import MiniLisp.Value.Basic

/-!
# The store of scopes

A scope binds names to values and may have a parent, in which a name is looked for when the scope
itself does not bind it. Scopes are numbered in the order in which they are made and are never
removed, so a parent has a smaller number than its children. The functions that follow the parents
of a scope look at that before every step, which is why they end in every store.

Names are looked up by following the parents. `define` writes to one scope only, whether that scope
binds the name already or not, and `owner?` finds the scope that an assignment has to write to.
-/
namespace MiniLisp

/-- The bindings of one scope, each name at most once. -/
abbrev Bindings := List (String × Value)

namespace Bindings

def get? (name : String) : Bindings → Option Value
  | [] => none
  | (other, v) :: rest => if name = other then some v else get? name rest

/-- Binds a name, in its old place if it is bound already. -/
def insert (name : String) (v : Value) : Bindings → Bindings
  | [] => [(name, v)]
  | (other, w) :: rest =>
    if name = other then (name, v) :: rest else (other, w) :: insert name v rest

/-- The bindings of names to the values in the same places; of two equal names the later counts. -/
def ofLists (names : List String) (values : List Value) : Bindings :=
  (names.zip values).foldl (fun bindings pair => bindings.insert pair.1 pair.2) []

theorem get?_insert (bindings : Bindings) (name other : String) (v : Value) :
    (bindings.insert name v).get? other = if other = name then some v else bindings.get? other := by
  induction bindings with
  | nil => rfl
  | cons first rest ih =>
    obtain ⟨bound, w⟩ := first
    by_cases same : name = bound
    · subst same
      by_cases asked : other = name <;> simp [insert, get?, asked]
    · by_cases asked : other = bound
      · subst asked
        simp [insert, get?, same, Ne.symm same]
      · simp [insert, get?, same, asked, ih]

end Bindings

/-- A scope. Only a global scope has no parent. -/
structure Scope where
  parent : Option ScopeId
  bindings : Bindings

structure Store where
  scopes : Array Scope

namespace Store

def empty : Store := ⟨#[]⟩

/-- The number of scopes, which is also the number of the next one. -/
def size (store : Store) : Nat := store.scopes.size

def scope? (store : Store) (id : ScopeId) : Option Scope := store.scopes[id]?

/-- The bindings of a scope; a scope that does not exist binds nothing. -/
def bindings (store : Store) (id : ScopeId) : Bindings :=
  match store.scope? id with
  | some scope => scope.bindings
  | none => []

/-- The parent of a scope, provided that it was made before the scope. -/
def parent? (store : Store) (id : ScopeId) : Option { parent : ScopeId // parent < id } :=
  match store.scope? id with
  | some ⟨some parent, _⟩ => if older : parent < id then some ⟨parent, older⟩ else none
  | _ => none

/-- The value of a name in the nearest scope that binds it. -/
def get? (store : Store) (name : String) (id : ScopeId) : Option Value :=
  match (store.bindings id).get? name with
  | some v => some v
  | none =>
    match store.parent? id with
    | some ⟨parent, _⟩ => store.get? name parent
    | none => none
termination_by id

/-- The nearest scope that binds a name. -/
def owner? (store : Store) (name : String) (id : ScopeId) : Option ScopeId :=
  match (store.bindings id).get? name with
  | some _ => some id
  | none =>
    match store.parent? id with
    | some ⟨parent, _⟩ => store.owner? name parent
    | none => none
termination_by id

/-- The number of parents between a scope and the one without a parent. -/
def depth (store : Store) (id : ScopeId) : Nat :=
  match store.parent? id with
  | some ⟨parent, _⟩ => store.depth parent + 1
  | none => 0
termination_by id

def define (store : Store) (name : String) (v : Value) (id : ScopeId) : Store :=
  ⟨store.scopes.modify id fun scope => { scope with bindings := scope.bindings.insert name v }⟩

/-- Adds a scope; its number is the size that the store had. -/
def add (store : Store) (scope : Scope) : Store :=
  ⟨store.scopes.push scope⟩

end Store

/-- The bindings that a global scope begins with: every primitive under its name, and three
constants. -/
def Bindings.standard : Bindings :=
  Primitive.all.map (fun p => (p.name, .primitive p)) ++
    [("nil", .nil), ("true", .boolean true), ("false", .boolean false)]

def Scope.global : Scope := ⟨none, Bindings.standard⟩

end MiniLisp
