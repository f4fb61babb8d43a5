import Mathlib.Logic.Relation
import MiniLisp.Proofs.Eval.Growth
import MiniLisp.Workspace

/-!
# Names through a session

Whatever a session does, it does to a store that only grows: it evaluates, or it defines, assigns
and adds scopes on request. A name that can be looked up from a scope can therefore be looked up
from it for the rest of the session. `Moves` is one move of a session, and the moves that may
follow one another are all of them, in any order and in any scopes.
-/
namespace MiniLisp

namespace Run

variable {α β : Type}

/-- However the run ends, the store has grown. -/
def Grows (run : Run α) : Prop :=
  ∀ world result after, run.EndsWith world result after →
    Store.Grows (fun _ _ => True) world.store after.store

namespace Grows

theorem of_same {run : Run α}
    (same : ∀ world result after, run.EndsWith world result after → after.store = world.store) :
    run.Grows := by
  intro world result after ends
  rw [same world result after ends]
  exact .refl _

theorem bind {first : Run α} {next : α → Run β} (grows : first.Grows)
    (continued : ∀ a, (next a).Grows) : (first >>= next).Grows := by
  intro world result after ends
  rcases endsWith_bind.mp ends with ⟨fault, rfl, failed⟩ | ⟨a, between, done, rest⟩
  · exact grows world _ after failed
  · exact (grows world _ between done).trans (continued a between result after rest)

theorem pure (a : α) : (Pure.pure a : Run α).Grows :=
  of_same fun _ _ _ ends => by rw [(endsWith_pure.mp ends).2]

theorem emit (event : Event) : (Run.emit event).Grows :=
  of_same fun _ _ _ ends => by rw [(endsWith_emit.mp ends).2]

theorem world : Run.world.Grows :=
  of_same fun _ _ _ ends => by rw [(endsWith_world.mp ends).2]

theorem fetch (name : String) (scope : ScopeId) : (Run.fetch name scope).Grows :=
  of_same fun _ _ _ ends => by rw [(endsWith_fetch.mp ends).1]

theorem define (name : String) (v : Value) (scope : ScopeId) : (Run.define name v scope).Grows := by
  intro world result after ends
  obtain ⟨_, rfl⟩ := endsWith_define.mp ends
  exact (Store.Grows.define world.store name v scope).any

theorem assign (name : String) (v : Value) (scope : ScopeId) : (Run.assign name v scope).Grows := by
  intro world result after ends
  rcases endsWith_assign.mp ends with ⟨owner, found, _, rfl⟩ | ⟨_, _, rfl⟩
  · exact .assign (Store.owner?_eq_some_iff.mp found).bound v
  · exact .refl _

theorem addScope (scope : Scope) : (Run.addScope scope).Grows := by
  intro world result after ends
  obtain ⟨_, rfl⟩ := endsWith_addScope.mp ends
  exact .add world.store scope

theorem extend (parameters : List String) (arguments : List Value) (parent : ScopeId) :
    (Run.extend parameters arguments parent).Grows := by
  intro world result after ends
  rcases endsWith_extend.mp ends with ⟨_, _, rfl⟩ | ⟨_, rfl, _⟩
  · exact .add world.store _
  · exact .refl _

theorem eval (depth : Nat) (v : Value) (scope : ScopeId) : (MiniLisp.eval depth v scope).Grows :=
  fun world result after ends =>
    (eval_sound depth v scope world result after ends).grows.any

theorem attempt {run : Run α} (grows : run.Grows) : (Run.attempt run).Grows := by
  intro world result after ends
  obtain ⟨inner, _, ends⟩ := endsWith_attempt.mp ends
  exact grows world inner after ends

theorem mapM {f : α → Run β} (grows : ∀ a, (f a).Grows) (as : List α) :
    (as.mapM f).Grows := by
  -- The loop collects what it has already computed.
  suffices loop : ∀ bs, (List.mapM.loop f as bs).Grows from loop []
  induction as with
  | nil => exact fun bs => pure _
  | cons a rest ih => exact fun bs => (grows a).bind fun b => ih (b :: bs)

end Grows

end Run

namespace Session

open Run

theorem readLine_grows (line : String) : (readLine line).Grows := by
  refine .of_same fun world result after ends => ?_
  unfold readLine at ends
  split at ends
  · rw [(endsWith_fail.mp ends).2]
  · rw [(endsWith_pure.mp ends).2]
  · obtain ⟨_, between, ends, rest⟩ := (endsWith_bind.mp ends).resolve_left (by simp)
    rw [(endsWith_pure.mp rest).2, (endsWith_emit.mp ends).2]

theorem evaluateLine_grows (depth : Nat) (scope : ScopeId) (line : String) :
    (evaluateLine depth scope line).Grows :=
  (readLine_grows line).bind fun form => .eval depth form scope

theorem answerForm_grows (depth : Nat) (options : Options) (scope : ScopeId) (form : Value) :
    (answerForm depth options scope form).Grows := by
  refine (Grows.eval depth form scope).attempt.bind fun result => ?_
  split
  · exact .pure _
  · exact (Grows.emit _).bind fun _ => .pure _
  · exact .pure _

theorem answerLine_grows (depth : Nat) (options : Options) (scope : ScopeId) (line : String) :
    (answerLine depth options scope line).Grows := by
  unfold answerLine
  split
  · exact .pure _
  · refine (readLine_grows line).attempt.bind fun result => ?_
    split
    · exact answerForm_grows depth options scope _
    · exact .pure _

/-- One move of a session on the store: a line is answered, or a request is carried out, such as
to evaluate a line in some scope. -/
inductive Moves : Store → Store → Prop where
  | answer {depth : Nat} {options : Options} {scope : ScopeId} {line : String}
    {world after : World} {result : Except Fault Answer}
    (ends : (answerLine depth options scope line).EndsWith world result after) :
    Moves world.store after.store
  | request {depth : Nat} {request : Request} {world after : World}
    {result : Except Fault Response}
    (ends : (Workspace.respond depth request).EndsWith world result after) :
    Moves world.store after.store

end Session

theorem Workspace.respond_grows (depth : Nat) (request : Request) :
    (Workspace.respond depth request).Grows := by
  have text (scope : ScopeId) : (Workspace.textOf scope).Grows :=
    Run.Grows.world.bind fun _ => .pure _
  cases request with
  | openGlobal => exact (Run.Grows.addScope _).bind fun scope => (text scope).bind fun _ => .pure _
  | extend environment parameters arguments =>
    exact (Run.Grows.mapM Session.readLine_grows arguments).bind fun vs =>
      (Run.Grows.extend parameters vs environment).bind fun scope =>
        (text scope).bind fun _ => .pure _
  | define environment name line =>
    exact (Session.readLine_grows line).bind fun v => Run.Grows.world.bind fun _ =>
      (Run.Grows.define name v environment).bind fun _ => .pure _
  | assign environment name line =>
    exact (Session.readLine_grows line).bind fun v =>
      (Run.Grows.assign name v environment).bind fun _ => .pure _
  | get environment name => exact Run.Grows.world.bind fun _ => .pure _
  | fetch environment name => exact (Run.Grows.fetch name environment).bind fun _ => .pure _
  | depth environment => exact Run.Grows.world.bind fun _ => .pure _
  | describe environment => exact (text environment).bind fun _ => .pure _
  | eval environment line =>
    exact (Session.evaluateLine_grows depth environment line).bind fun _ => .pure _

namespace Session

theorem Moves.grows {before after : Store} (moves : Moves before after) :
    Store.Grows (fun _ _ => True) before after := by
  cases moves with
  | answer ends => exact answerLine_grows _ _ _ _ _ _ _ ends
  | request ends => exact Workspace.respond_grows _ _ _ _ _ ends

theorem grows_of_moves {before after : Store} (moves : Relation.ReflTransGen Moves before after) :
    Store.Grows (fun _ _ => True) before after := by
  induction moves with
  | refl => exact .refl _
  | tail _ last ih => exact ih.trans last.grows

end Session

/-- Evaluating a value in a scope changes no parent, takes no name from a scope, and gives names
to that scope only, namely names that the value defines in its text. Applying a value gives no
name to any scope that was there. This holds whether the run ends with a value or with a fault.
Therefore a name that can be looked up from a scope can be looked up from it ever after. -/
theorem names_only_added :
    (∀ (depth : Nat) (v : Value) (scope : ScopeId) (world after : World)
      (result : Except Fault Value), (eval depth v scope).EndsWith world result after →
      Store.Grows (fun id name => id = scope ∧ v.Defines name) world.store after.store) ∧
    (∀ (depth : Nat) (procedure : Value) (arguments : List Value) (world after : World)
      (result : Except Fault Value),
      (apply depth procedure arguments).EndsWith world result after →
      Store.Grows (fun _ _ => False) world.store after.store) ∧
    ∀ (before after : Store) (name : String) (id : ScopeId),
      Relation.ReflTransGen Session.Moves before after →
      (before.get? name id).isSome → (after.get? name id).isSome := by
  refine ⟨?_, ?_, ?_⟩
  · intro depth v scope world after result ends
    exact (eval_sound depth v scope world result after ends).grows
  · intro depth procedure arguments world after result ends
    exact (Eval.applyWith_sound (eval_sound depth) ends).grows
  · intro before after name id moves resolves
    rw [Store.isSome_get?_iff] at resolves ⊢
    obtain ⟨owner, owned⟩ := resolves
    exact (Session.grows_of_moves moves).resolves owned

/-- A call of a procedure that defines `z` in its own scope, made in the definition of `x`, leaves
the global scope with `x` alone as a new name; and another scope hides none of its names. -/
theorem names_only_added_inner :
    let body : Value := .list [.symbol "define", .symbol "z", .integer 1]
    let call : Value := .list [.closure 0 ["y"] body 0, .nil]
    let definition : Value := .list [.symbol "define", .symbol "x", call]
    let inner := (World.fresh.enter ["y"] [.nil] 0).define "z" (.integer 1) 1
    ((eval 5 definition 0).EndsWith World.fresh (.ok (.integer 1))
        (inner.define "x" (.integer 1) 0) ∧
      Store.Grows (fun id name => id = 0 ∧ definition.Defines name) World.fresh.store
        (inner.define "x" (.integer 1) 0).store) ∧
    ((apply 3 (.closure 0 ["y"] body 0) [.nil]).EndsWith World.fresh (.ok (.integer 1)) inner ∧
      Store.Grows (fun _ _ => False) World.fresh.store inner.store) ∧
    (World.fresh.store.get? "car" 0).isSome ∧
      ((World.fresh.enter [] [] 0).store.get? "car" 0).isSome := by
  intro body call definition inner
  have defined : (eval 5 definition 0).EndsWith World.fresh (.ok (.integer 1))
      (inner.define "x" (.integer 1) 0) := ⟨_, rfl⟩
  have called : (apply 3 (.closure 0 ["y"] body 0) [.nil]).EndsWith World.fresh
      (.ok (.integer 1)) inner := ⟨_, rfl⟩
  have found : (World.fresh.store.get? "car" 0).isSome :=
    Store.isSome_get?_iff.mpr ⟨0, .here (v := .primitive .car) rfl⟩
  have extended : Session.Moves World.fresh.store (World.fresh.enter [] [] 0).store :=
    @Session.Moves.request 0 (.extend 0 [] []) World.fresh (World.fresh.enter [] [] 0) _ ⟨_, rfl⟩
  exact ⟨⟨defined, names_only_added.1 _ _ _ _ _ _ defined⟩,
    ⟨called, names_only_added.2.1 _ _ _ _ _ _ called⟩,
    found, names_only_added.2.2 _ _ "car" 0 (.single extended) found⟩

end MiniLisp
