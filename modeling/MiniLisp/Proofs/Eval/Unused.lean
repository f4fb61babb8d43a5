import MiniLisp.Proofs.Eval.Layer
import MiniLisp.Proofs.Store.Growth
import MiniLisp.Proofs.Value.Every

/-!
# Names that are not used

A value that does not mention a name is evaluated in the same way whatever one scope binds the name
to, and whether it binds it at all, as long as no procedure in the other bindings mentions the name
either. The two runs are followed side by side. Between any two steps their worlds are twins: they
differ in the one binding only, each still has its own, and whatever procedure they hold elsewhere
does not mention the name. What has been computed so far is the same in both, and as the code that
comes next does not mention the name, it looks up and writes other names only, which have the same
owners in both worlds.
-/
namespace MiniLisp

/-! ### Mentioning a name -/

/-- The name stands somewhere in the value as a symbol or, in a closure, as a parameter. -/
inductive Value.Mentions (name : String) : Value → Prop where
  | symbol : Mentions name (.symbol name)
  | item {item : Value} {items : List Value} (member : item ∈ items) (inside : Mentions name item) :
    Mentions name (.list items)
  | parameter {serial : Nat} {parameters : List String} {body : Value} {captured : ScopeId}
    (member : name ∈ parameters) : Mentions name (.closure serial parameters body captured)
  | body {serial : Nat} {parameters : List String} {body : Value} {captured : ScopeId}
    (inside : Mentions name body) : Mentions name (.closure serial parameters body captured)

/-- No procedure in the value mentions the name. Its symbols are data and do not count. -/
def Value.Ignores (name : String) (v : Value) : Prop :=
  v.Every fun part => part.isProcedure = true → ¬ part.Mentions name

namespace Value

variable {name : String} {v : Value}

@[simp] theorem mentions_symbol {other : String} :
    (symbol other).Mentions name ↔ other = name := by
  constructor
  · rintro ⟨⟩
    rfl
  · rintro rfl
    exact .symbol

@[simp] theorem mentions_list {items : List Value} :
    (list items).Mentions name ↔ ∃ item ∈ items, item.Mentions name := by
  constructor
  · rintro (_ | ⟨member, inside⟩)
    exact ⟨_, member, inside⟩
  · rintro ⟨item, member, inside⟩
    exact .item member inside

@[simp] theorem mentions_closure {serial : Nat} {parameters : List String} {body : Value}
    {captured : ScopeId} : (closure serial parameters body captured).Mentions name ↔
      name ∈ parameters ∨ body.Mentions name := by
  constructor
  · rintro (_ | _ | member | inside)
    · exact .inl member
    · exact .inr inside
  · rintro (member | inside)
    · exact .parameter member
    · exact .body inside

@[simp] theorem not_mentions_integer (n : Int64) : ¬ (integer n).Mentions name := nofun

theorem Mentions.of_subtree {part : Value} (mentions : part.Mentions name)
    (inside : part.Subtree v) : v.Mentions name := by
  induction inside with
  | refl => exact mentions
  | item member _ ih => exact .item member ih

/-- What does not mention the name as a whole has no procedure that does. -/
theorem ignores_of_not_mentions (unused : ¬ v.Mentions name) : v.Ignores name :=
  fun _ inside _ _ mentions => unused (mentions.of_subtree inside)

theorem ignores_nil : Value.nil.Ignores name :=
  .of_isBare Primitive.isBare_nil

theorem ignores_quoted {operands : List Value} (unused : ∀ v ∈ operands, ¬ v.Mentions name) :
    (Eval.quoted operands).Ignores name := by
  apply ignores_of_not_mentions
  unfold Eval.quoted
  split
  · exact unused _ (by simp)
  · simpa using unused

theorem ignores_closure_iff {serial : Nat} {parameters : List String} {body : Value}
    {captured : ScopeId} : (closure serial parameters body captured).Ignores name ↔
      name ∉ parameters ∧ ¬ body.Mentions name := by
  constructor
  · intro ignores
    simpa using ignores _ (.refl _) trivial rfl
  · intro unused
    apply ignores_of_not_mentions
    simpa using unused

end Value

/-! ### Twins -/

namespace World

/-- The worlds are equal except for the binding of the name in the scope, which both may have with
different values, or one, or none. -/
structure SameBut (scope : ScopeId) (name : String) (first second : World) : Prop where
  size : first.store.size = second.store.size
  parent : ∀ id,
    (first.store.scope? id).map Scope.parent = (second.store.scope? id).map Scope.parent
  bound : ∀ id other, (id = scope → other ≠ name) →
    (first.store.bindings id).get? other = (second.store.bindings id).get? other
  closuresMade : first.closuresMade = second.closuresMade
  output : first.output = second.output

/-- No procedure in a binding other than that of the name in the scope mentions the name. -/
def Ignores (scope : ScopeId) (name : String) (world : World) : Prop :=
  ∀ id other v, (id = scope → other ≠ name) → (world.store.bindings id).get? other = some v →
    v.Ignores name

/-- Two worlds that stand side by side in two runs. The one binding in which they may differ is as
it was in each at the beginning. -/
structure Twins (scope : ScopeId) (name : String) (kept kept' : Option Value)
    (first second : World) : Prop extends SameBut scope name first second where
  ignores : first.Ignores scope name
  first_kept : (first.store.bindings scope).get? name = kept
  second_kept : (second.store.bindings scope).get? name = kept'

variable {scope : ScopeId} {name other : String} {kept kept' : Option Value}
  {first second : World} {v : Value}

theorem SameBut.symm (same : SameBut scope name first second) :
    SameBut scope name second first where
  size := same.size.symm
  parent id := (same.parent id).symm
  bound id other elsewhere := (same.bound id other elsewhere).symm
  closuresMade := same.closuresMade.symm
  output := same.output.symm

/-- What is bound elsewhere is the same in both worlds. -/
theorem SameBut.ignores (same : SameBut scope name first second)
    (ignores : first.Ignores scope name) : second.Ignores scope name :=
  fun id other v elsewhere found =>
    ignores id other v elsewhere ((same.bound id other elsewhere).trans found)

theorem ignores_fresh (scope : ScopeId) (name : String) : World.fresh.Ignores scope name := by
  intro id other v _ found
  rcases Store.mem_bindings_add (Store.mem_of_get? found) with old | ⟨_, new⟩
  · exact absurd (Store.lt_size_of_mem old) (Nat.not_lt_zero id)
  · exact .standard (fun _ _ => nofun) new

/-- Whatever the one binding becomes, the worlds stay the same but for it. -/
theorem sameBut_define (world : World) (scope : ScopeId) (name : String) (v : Value) :
    SameBut scope name (world.define name v scope) world where
  size := Store.size_define _ _ _ _
  parent id := Store.parent_define _ _ _ _ _
  bound id other elsewhere := by
    rw [World.define, Store.get?_bindings_define, if_neg fun both => elsewhere both.1.1 both.1.2]
  closuresMade := rfl
  output := rfl

namespace Twins

theorem symm (twins : Twins scope name kept kept' first second) :
    Twins scope name kept' kept second first where
  toSameBut := twins.toSameBut.symm
  ignores := twins.toSameBut.ignores twins.ignores
  first_kept := twins.second_kept
  second_kept := twins.first_kept

/-- Every other name belongs to the same scope. -/
theorem owner?_eq (twins : Twins scope name kept kept' first second) (different : other ≠ name)
    (id : ScopeId) : first.store.owner? other id = second.store.owner? other id :=
  Store.owner?_congr (fun id => Store.parent?_congr (twins.parent id))
    (fun id => twins.bound id other fun _ => different) id

theorem get?_eq (twins : Twins scope name kept kept' first second) (different : other ≠ name)
    (id : ScopeId) : first.store.get? other id = second.store.get? other id :=
  Store.get?_congr (fun id => Store.parent?_congr (twins.parent id))
    (fun id => twins.bound id other fun _ => different) id

/-- A value that is looked up does not bring the name along. -/
theorem ignores_get? (twins : Twins scope name kept kept' first second) (different : other ≠ name)
    {id : ScopeId} (found : first.store.get? other id = some v) : v.Ignores name := by
  obtain ⟨owner, _, bound⟩ := Store.get?_eq_some_iff.mp found
  exact twins.ignores owner other v (fun _ => different) bound

/-- The binding that is written is not the one in which the worlds differ. -/
theorem define (twins : Twins scope name kept kept' first second) (different : other ≠ name)
    (unused : v.Ignores name) (id : ScopeId) :
    Twins scope name kept kept' (first.define other v id) (second.define other v id) := by
  have untouched (world : World) : ((world.define other v id).store.bindings scope).get? name =
      (world.store.bindings scope).get? name := by
    rw [World.define, Store.get?_bindings_define, if_neg fun both => different both.1.2.symm]
  exact {
    size := by simpa [World.define] using twins.size
    parent := by
      intro place
      simpa only [World.define, Store.parent_define] using twins.parent place
    bound := by
      intro place given elsewhere
      simp only [World.define, Store.get?_bindings_define, twins.size,
        twins.bound place given elsewhere]
    closuresMade := twins.closuresMade
    output := twins.output
    ignores := by
      intro place given w elsewhere found
      rw [World.define, Store.get?_bindings_define] at found
      split at found
      · cases found
        exact unused
      · exact twins.ignores place given w elsewhere found
    first_kept := (untouched first).trans twins.first_kept
    second_kept := (untouched second).trans twins.second_kept }

/-- A scope that does not bind the name may be added to both worlds. -/
theorem enter {parameters : List String} {arguments : List Value}
    (twins : Twins scope name kept kept' first second) (unbound : name ∉ parameters)
    (unused : ∀ v ∈ arguments, v.Ignores name) (parent : ScopeId) :
    Twins scope name kept kept' (first.enter parameters arguments parent)
      (second.enter parameters arguments parent) := by
  -- The new scope may have the number in question, which was not in use then.
  have untouched (world : World) :
      ((world.enter parameters arguments parent).store.bindings scope).get? name =
        (world.store.bindings scope).get? name := by
    rw [World.enter, Store.bindings_add]
    split
    next new => rw [new, Store.get?_bindings_size, Store.get?_ofLists_of_not_mem unbound]
    next => rfl
  exact {
    size := by simpa [World.enter] using twins.size
    parent := by
      intro id
      simp only [World.enter, Store.scope?_add, twins.size]
      split
      · rfl
      · exact twins.parent id
    bound := by
      intro id given elsewhere
      simp only [World.enter, Store.bindings_add, twins.size]
      split
      · rfl
      · exact twins.bound id given elsewhere
    closuresMade := twins.closuresMade
    output := twins.output
    ignores := by
      intro id given v elsewhere found
      rw [World.enter, Store.bindings_add] at found
      split at found
      · exact unused v (Store.mem_ofLists (Store.mem_of_get? found)).2
      · exact twins.ignores id given v elsewhere found
    first_kept := (untouched first).trans twins.first_kept
    second_kept := (untouched second).trans twins.second_kept }

theorem withClosure (twins : Twins scope name kept kept' first second) :
    Twins scope name kept kept' first.withClosure second.withClosure :=
  { twins with closuresMade := congrArg (· + 1) twins.closuresMade }

theorem display (twins : Twins scope name kept kept' first second) (text : String) :
    Twins scope name kept kept' (first.display text) (second.display text) :=
  { twins with output := congrArg (· ++ text) twins.output }

end Twins

end World

/-! ### Runs that stay in step -/

namespace Run

variable {α β : Type} {related : World → World → Prop}

/-- However the run ends when it is started in one of two related worlds, started in the other it
ends with the same result, in a world that is related again; and a value that it gives is good. -/
def InStep (related : World → World → Prop) (run : Run α) (good : α → Prop) : Prop :=
  ∀ first second, related first second → ∀ result after, run.EndsWith first result after →
    ∃ last, run.EndsWith second result last ∧ related after last ∧ ∀ a, result = .ok a → good a

namespace InStep

/-- A run that ends in every world stays in step if it takes related worlds to related ones. -/
theorem of_ends {run : Run α} {good : α → Prop} {outcome : World → Except Fault α}
    {step : World → World}
    (ends : ∀ world result after, run.EndsWith world result after ↔
      result = outcome world ∧ after = step world)
    (kept : ∀ first second, related first second → outcome first = outcome second ∧
      related (step first) (step second) ∧ ∀ a, outcome first = .ok a → good a) :
    run.InStep related good := by
  intro first second side result after done
  obtain ⟨rfl, rfl⟩ := (ends _ _ _).mp done
  obtain ⟨equal, beside, value⟩ := kept first second side
  exact ⟨step second, (ends _ _ _).mpr ⟨equal, rfl⟩, beside, value⟩

theorem pure {good : α → Prop} {a : α} (value : good a) :
    (Pure.pure a : Run α).InStep related good :=
  of_ends (fun _ _ _ => endsWith_pure) fun _ _ side => ⟨rfl, side, by rintro _ ⟨⟩; exact value⟩

theorem fail {good : α → Prop} (fault : Fault) : (Run.fail fault : Run α).InStep related good :=
  of_ends (fun _ _ _ => endsWith_fail) fun _ _ side => ⟨rfl, side, nofun⟩

theorem emit (event : Event) : (Run.emit event).InStep related fun _ => True :=
  of_ends (fun _ _ _ => endsWith_emit) fun _ _ side => ⟨rfl, side, fun _ _ => trivial⟩

theorem announce (inner : ScopeId) : (Eval.announce inner).InStep related fun _ => True :=
  of_ends (fun _ _ _ => Eval.announce_ends) fun _ _ side => ⟨rfl, side, fun _ _ => trivial⟩

theorem bind {run : Run α} {next : α → Run β} {middle : α → Prop} {good : β → Prop}
    (begun : run.InStep related middle) (continued : ∀ a, middle a → (next a).InStep related good) :
    (run >>= next).InStep related good := by
  intro first second side result after ends
  rcases endsWith_bind.mp ends with ⟨fault, rfl, failed⟩ | ⟨a, between, done, rest⟩
  · obtain ⟨last, failed, beside, _⟩ := begun first second side _ after failed
    exact ⟨last, failed.stops, beside, nofun⟩
  · obtain ⟨between', done, beside, value⟩ := begun first second side _ between done
    obtain ⟨last, rest, beside, good⟩ :=
      continued a (value a rfl) between between' beside result after rest
    exact ⟨last, done.andThen rest, beside, good⟩

/-- A part that is computed without the world. -/
theorem ofExcept {given : Except Fault α} {next : α → Run β} {good : β → Prop}
    (continued : ∀ a, given = .ok a → (next a).InStep related good) :
    (Run.ofExcept given >>= next).InStep related good := by
  cases given with
  | error fault => exact fail fault
  | ok a =>
    have here : (Run.ofExcept (.ok a)).InStep related fun b => b = a := pure rfl
    refine here.bind ?_
    rintro _ rfl
    exact continued _ rfl

end InStep

end Run

/-! ### One layer of evaluation -/

namespace Eval

open Run

variable {scope : ScopeId} {name other : String} {kept kept' : Option Value} {v : Value}

theorem fetch_inStep (different : other ≠ name) (place : ScopeId) :
    (fetch other place).InStep (World.Twins scope name kept kept') (Value.Ignores name) := by
  intro first second twins result after ends
  obtain ⟨rfl, found⟩ := endsWith_fetch.mp ends
  refine ⟨second, endsWith_fetch.mpr ⟨rfl, ?_⟩, twins, ?_⟩
  · rwa [← twins.get?_eq different place]
  · rintro v rfl
    rcases found with ⟨w, found, equal⟩ | ⟨_, failed⟩
    · cases equal
      exact twins.ignores_get? different found
    · cases failed

theorem define_inStep (different : other ≠ name) (unused : v.Ignores name) (place : ScopeId) :
    (define other v place).InStep (World.Twins scope name kept kept') fun _ => True :=
  .of_ends (fun _ _ _ => endsWith_define) fun _ _ twins =>
    ⟨rfl, twins.define different unused place, fun _ _ => trivial⟩

theorem assign_inStep (different : other ≠ name) (unused : v.Ignores name) (place : ScopeId) :
    (assign other v place).InStep (World.Twins scope name kept kept') fun _ => True := by
  intro first second twins result after ends
  have same := twins.owner?_eq different place
  rcases endsWith_assign.mp ends with ⟨owner, owned, rfl, rfl⟩ | ⟨free, rfl, rfl⟩
  · rw [same] at owned
    refine ⟨second.define other v owner, endsWith_assign.mpr (.inl ⟨owner, owned, rfl, rfl⟩), ?_⟩
    exact ⟨twins.define different unused owner, fun _ _ => trivial⟩
  · rw [same] at free
    exact ⟨second, endsWith_assign.mpr (.inr ⟨free, rfl, rfl⟩), twins, nofun⟩

theorem extend_inStep {parameters : List String} {arguments : List Value}
    (unbound : name ∉ parameters) (unused : ∀ v ∈ arguments, v.Ignores name) (parent : ScopeId) :
    (extend parameters arguments parent).InStep (World.Twins scope name kept kept')
      fun _ => True := by
  intro first second twins result after ends
  rcases endsWith_extend.mp ends with ⟨count, rfl, rfl⟩ | ⟨count, rfl, rfl⟩
  · refine ⟨second.enter parameters arguments parent, ?_, twins.enter unbound unused parent, ?_⟩
    · exact endsWith_extend.mpr (.inl ⟨count, by rw [twins.size], rfl⟩)
    · exact fun _ _ => trivial
  · exact ⟨second, endsWith_extend.mpr (.inr ⟨count, rfl, rfl⟩), twins, nofun⟩

theorem close_inStep {place : ScopeId} {operands : List Value}
    (unused : ∀ v ∈ operands, ¬ v.Mentions name) :
    (close place operands).InStep (World.Twins scope name kept kept') (Value.Ignores name) := by
  refine .ofExcept ?_
  rintro ⟨parameters, body⟩ found
  obtain rfl := closureParts_eq_ok found
  refine .of_ends (fun _ _ _ => endsWith_close) fun first second twins => ⟨?_, ?_, ?_⟩
  · rw [twins.closuresMade]
  · exact twins.withClosure
  · rintro _ ⟨⟩
    exact Value.ignores_closure_iff.mpr (by simpa using unused)

theorem callPrimitive_inStep {p : Primitive} {arguments : List Value}
    (unused : ∀ v ∈ arguments, v.Ignores name) :
    (callPrimitive p arguments).InStep (World.Twins scope name kept kept')
      (Value.Ignores name) := by
  intro first second twins result after ends
  rcases callPrimitive_ends.mp ends with ⟨accepted, rfl, rfl⟩ | ⟨refused, rfl, rfl⟩
  · refine ⟨_, callPrimitive_ends.mpr (.inl ⟨accepted, rfl, rfl⟩), twins.display _, ?_⟩
    exact fun v answered => .answer unused answered
  · exact ⟨second, callPrimitive_ends.mpr (.inr ⟨refused, rfl, rfl⟩), twins, nofun⟩

section

variable {f : Evaluator} {place : ScopeId} {operands arguments : List Value}
  (inStep : ∀ v place, ¬ v.Mentions name →
    (f v place).InStep (World.Twins scope name kept kept') (Value.Ignores name))

include inStep

theorem operandsWith_inStep (unused : ∀ v ∈ operands, ¬ v.Mentions name) :
    (operandsWith f place operands).InStep (World.Twins scope name kept kept')
      fun vs => ∀ v ∈ vs, v.Ignores name := by
  induction operands with
  | nil => exact .pure (by simp)
  | cons operand rest ih =>
    refine (inStep operand place (unused operand (by simp))).bind fun v first => ?_
    have others := ih fun w member => unused w (List.mem_cons_of_mem _ member)
    refine others.bind fun vs evaluated => .pure fun w member => ?_
    rcases List.mem_cons.mp member with rfl | member
    · exact first
    · exact evaluated w member

theorem sequenceWith_inStep {items : List Value} {last : Value}
    (unused : ∀ v ∈ items, ¬ v.Mentions name) (result : last.Ignores name) :
    (sequenceWith f place last items).InStep (World.Twins scope name kept kept')
      (Value.Ignores name) := by
  induction items generalizing last with
  | nil => exact .pure result
  | cons item rest ih =>
    refine (inStep item place (unused item (by simp))).bind fun v first => ?_
    exact ih (fun w member => unused w (List.mem_cons_of_mem _ member)) first

/-- The body of a closure is code that does not mention the name, in a scope that does not bind
it. -/
theorem applyWith_inStep {procedure : Value} (result : procedure.Ignores name)
    (unused : ∀ v ∈ arguments, v.Ignores name) :
    (applyWith f procedure arguments).InStep (World.Twins scope name kept kept')
      (Value.Ignores name) := by
  cases procedure with
  | primitive p => exact callPrimitive_inStep unused
  | closure serial parameters body captured =>
    obtain ⟨unbound, free⟩ := Value.ignores_closure_iff.mp result
    refine (InStep.emit _).bind fun _ _ => ?_
    refine (extend_inStep unbound unused captured).bind fun inner _ => ?_
    exact (InStep.announce inner).bind fun _ _ => inStep body inner free
  | _ => exact .fail _

theorem conditionalWith_inStep (unused : ∀ v ∈ operands, ¬ v.Mentions name) :
    (conditionalWith f place operands).InStep (World.Twins scope name kept kept')
      (Value.Ignores name) := by
  match operands, unused with
  | [test, consequent], unused =>
    refine (inStep test place (unused test (by simp))).bind fun v _ => ?_
    split
    · exact inStep consequent place (unused consequent (by simp))
    · exact .pure Value.ignores_nil
  | [test, consequent, alternative], unused =>
    refine (inStep test place (unused test (by simp))).bind fun v _ => ?_
    split
    · exact inStep consequent place (unused consequent (by simp))
    · exact inStep alternative place (unused alternative (by simp))
  | [], _ | [_], _ | _ :: _ :: _ :: _ :: _, _ => exact .fail _

/-- The name that a form writes is another one, and so is every name in its expression. -/
theorem writing_inStep (keyword : Keyword) {write : String → Value → Run Unit}
    (record : String → Value → Event)
    (written : ∀ other v, other ≠ name → v.Ignores name →
      (write other v).InStep (World.Twins scope name kept kept') fun _ => True)
    (unused : ∀ v ∈ operands, ¬ v.Mentions name) :
    (ofExcept (target keyword operands) >>= fun (other, expression) =>
      f expression place >>= fun v => write other v >>= fun _ =>
        emit (record other v) >>= fun _ => Pure.pure v).InStep
      (World.Twins scope name kept kept') (Value.Ignores name) := by
  refine .ofExcept ?_
  rintro ⟨other, expression⟩ found
  obtain rfl := target_eq_ok found
  obtain ⟨different, free⟩ : other ≠ name ∧ ¬ expression.Mentions name := by simpa using unused
  refine (inStep expression place free).bind fun v result => ?_
  refine (written other v different result).bind fun _ _ => ?_
  exact (InStep.emit _).bind fun _ _ => .pure result

theorem formWith_inStep (keyword : Keyword) (unused : ∀ v ∈ operands, ¬ v.Mentions name) :
    (formWith f keyword operands place).InStep (World.Twins scope name kept kept')
      (Value.Ignores name) := by
  cases keyword with
  | quote => exact .pure (Value.ignores_quoted unused)
  | conditional => exact conditionalWith_inStep inStep unused
  | assign =>
    have written (given : String) (v : Value) (different : given ≠ name)
        (result : v.Ignores name) :
        (assign given v place).InStep (World.Twins scope name kept kept') fun _ => True :=
      assign_inStep different result place
    exact writing_inStep inStep .assign .assigned written unused
  | define =>
    have written (given : String) (v : Value) (different : given ≠ name)
        (result : v.Ignores name) :
        (define given v place).InStep (World.Twins scope name kept kept') fun _ => True :=
      define_inStep different result place
    exact writing_inStep inStep .define .defined written unused
  | lambda => exact close_inStep unused
  | begin => exact sequenceWith_inStep inStep unused Value.ignores_nil

theorem evalWith_inStep (v : Value) (place : ScopeId) (unused : ¬ v.Mentions name) :
    (evalWith f v place).InStep (World.Twins scope name kept kept') (Value.Ignores name) := by
  refine (InStep.emit _).bind fun _ _ => ?_
  split
  next other => exact fetch_inStep (by simpa using unused) place
  next head operands =>
    obtain ⟨first, rest⟩ : ¬ head.Mentions name ∧ ∀ v ∈ operands, ¬ v.Mentions name := by
      simpa using unused
    split
    next keyword _ => exact formWith_inStep inStep keyword rest
    next =>
      refine (inStep head place first).bind fun procedure result => ?_
      refine (operandsWith_inStep inStep rest).bind fun arguments given => ?_
      exact applyWith_inStep inStep result given
  next => exact .pure (Value.ignores_of_not_mentions unused)

end

end Eval

theorem eval_inStep {scope : ScopeId} {name : String} {kept kept' : Option Value} (depth : Nat)
    (v : Value) (place : ScopeId) (unused : ¬ v.Mentions name) :
    (eval depth v place).InStep (World.Twins scope name kept kept') (Value.Ignores name) := by
  induction depth generalizing v place with
  | zero =>
    intro first second twins result after ends
    exact absurd ends Run.not_endsWith_cutShort
  | succ depth ih => exact Eval.evalWith_inStep ih v place unused

/-- Two worlds that are equal except for the binding of one name in one scope, and a value that
does not mention the name, evaluated in any scope. If no procedure in the other bindings mentions
the name, evaluation comes to no end from either world, or it ends from both with the same result,
and the worlds that it leaves, displayed text included, are equal except for that binding, which is
as it was in each. The condition on procedures holds again, so the same can be said of what is
evaluated next. -/
theorem unused_name_irrelevant {scope : ScopeId} {name : String} {first second : World}
    (same : World.SameBut scope name first second) (ignores : first.Ignores scope name) {v : Value}
    (unused : ¬ v.Mentions name) (place : ScopeId) :
    (∀ depth, eval depth v place first = none ∧ eval depth v place second = none) ∨
    ∃ enough result after last,
      (∀ depth ≥ enough, (eval depth v place).EndsWith first result after ∧
        (eval depth v place).EndsWith second result last) ∧
      World.SameBut scope name after last ∧ after.Ignores scope name ∧
      (after.store.bindings scope).get? name = (first.store.bindings scope).get? name ∧
      (last.store.bindings scope).get? name = (second.store.bindings scope).get? name := by
  have twins : World.Twins scope name _ _ first second := ⟨same, ignores, rfl, rfl⟩
  by_cases ends : ∃ depth result after, (eval depth v place).EndsWith first result after
  · obtain ⟨enough, result, after, done⟩ := ends
    obtain ⟨last, done', beside, _⟩ :=
      eval_inStep enough v place unused first second twins result after done
    refine .inr ⟨enough, result, after, last, fun depth le => ?_, beside.toSameBut, beside.ignores,
      beside.first_kept, beside.second_kept⟩
    have below := eval_below le v place
    exact ⟨below.endsWith done, below.endsWith done'⟩
  · refine .inl fun depth => ⟨?_, ?_⟩
    · exact Run.eq_none_of_not_endsWith fun result after done => ends ⟨depth, result, after, done⟩
    · -- A run that ended from the second world would end from the first, its twin.
      apply Run.eq_none_of_not_endsWith
      intro result after done
      obtain ⟨last, done', _⟩ :=
        eval_inStep depth v place unused second first twins.symm result after done
      exact ends ⟨depth, result, last, done'⟩

/-- The global scope of one of two worlds binds `x`. A definition and a call of a closure come to
the same value in both, and the binding of `x` is still there in the one and missing in the
other. -/
theorem unused_name_irrelevant_global :
    let first := World.fresh.define "x" (.integer 1) 0
    let call : Value := .list [.list [.symbol "lambda", .list [.symbol "z"],
      .list [.symbol "define", .symbol "w", .integer 3]], .integer 4]
    let v : Value := .list [.symbol "begin",
      .list [.symbol "define", .symbol "y", .integer 2], call]
    World.SameBut 0 "x" first World.fresh ∧ first.Ignores 0 "x" ∧ ¬ v.Mentions "x" ∧
    ∃ depth after last,
      (eval depth v 0).EndsWith first (.ok (.integer 3)) after ∧
      (eval depth v 0).EndsWith World.fresh (.ok (.integer 3)) last ∧
      World.SameBut 0 "x" after last ∧
      (after.store.bindings 0).get? "x" = some (.integer 1) ∧
      (last.store.bindings 0).get? "x" = none := by
  intro first call v
  have same : World.SameBut 0 "x" first World.fresh := World.sameBut_define _ _ _ _
  have ignores : first.Ignores 0 "x" := same.symm.ignores (World.ignores_fresh 0 "x")
  have unused : ¬ v.Mentions "x" := by simp [v, call]
  have ends : ∃ after, (eval 5 v 0).EndsWith first (.ok (.integer 3)) after := ⟨_, _, rfl⟩
  obtain ⟨after, ends⟩ := ends
  refine ⟨same, ignores, unused, ?_⟩
  rcases unused_name_irrelevant same ignores unused 0 with never | ⟨enough, result, after', last,
    both, beside, _, kept, kept'⟩
  · obtain ⟨trace, done⟩ := ends
    cases (never 5).1.symm.trans done
  · have deep := both (max enough 5) (Nat.le_max_left _ _)
    obtain ⟨rfl, rfl⟩ := deep.1.unique ((eval_below (Nat.le_max_right _ _) v 0).endsWith ends)
    exact ⟨_, _, last, deep.1, deep.2, beside, kept, kept'⟩

end MiniLisp
