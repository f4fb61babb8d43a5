import MiniLisp.Proofs.Eval.Descent
import MiniLisp.Proofs.Session.Answers
import MiniLisp.Proofs.Store.Growth
import MiniLisp.Proofs.Value.Every

/-!
# Programs without closures end

A `lambda` is the only thing that makes a closure. Where there is none, neither in the code nor in
the values that are bound, none comes about: definitions, assignments, quotations and primitives
only pass on what they have been given. No body is ever entered then, so evaluation goes down the
code and nothing else, and nests as deep as the code is high. This is so from one line of a session
to the next.
-/
namespace MiniLisp

open Value

/-! ### Values without closures -/

/-- No closure is in the value, not even inside lists. -/
def Value.IsClosureFree (v : Value) : Prop :=
  ∀ serial parameters body captured, ¬ Subtree (.closure serial parameters body captured) v

/-- Nothing in the value is a closure or a list that the symbol `lambda` heads. -/
structure Value.IsLambdaFree (v : Value) : Prop where
  closureFree : v.IsClosureFree
  headed : ∀ operands, ¬ Subtree (.list (.symbol "lambda" :: operands)) v

/-- No scope binds a name to a value with a closure in it. -/
def World.IsClosureFree (world : World) : Prop :=
  ∀ id, ∀ pair ∈ world.store.bindings id, pair.2.IsClosureFree

namespace Value

variable {v : Value} {items : List Value}

theorem isClosureFree_iff_every :
    v.IsClosureFree ↔
      v.Every fun part => ∀ serial parameters body captured,
        part ≠ .closure serial parameters body captured := by
  constructor
  · rintro free part inside - serial parameters body captured rfl
    exact free serial parameters body captured inside
  · exact fun every serial parameters body captured inside =>
      every _ inside trivial serial parameters body captured rfl

namespace IsClosureFree

theorem item {item : Value} (free : (list items).IsClosureFree) (member : item ∈ items) :
    item.IsClosureFree :=
  fun _ _ _ _ inside => free _ _ _ _ (.item member inside)

theorem list (free : ∀ item ∈ items, item.IsClosureFree) : (list items).IsClosureFree := by
  intro serial parameters body captured stands
  cases stands with
  | item member inside => exact free _ member _ _ _ _ inside

theorem quoted (free : ∀ v ∈ items, v.IsClosureFree) : (Eval.quoted items).IsClosureFree := by
  unfold Eval.quoted
  split
  · exact free _ (by simp)
  · exact list free

theorem of_isBare (bare : v.IsBare) : v.IsClosureFree :=
  isClosureFree_iff_every.mpr (.of_isBare bare)

end IsClosureFree

namespace IsLambdaFree

theorem item {item : Value} (free : (Value.list items).IsLambdaFree) (member : item ∈ items) :
    item.IsLambdaFree :=
  ⟨free.closureFree.item member, fun operands inside => free.headed operands (.item member inside)⟩

theorem list (free : ∀ item ∈ items, item.IsLambdaFree)
    (other : ∀ operands, items ≠ .symbol "lambda" :: operands) :
    (Value.list items).IsLambdaFree where
  closureFree := .list fun item member => (free item member).closureFree
  headed := by
    intro operands stands
    cases stands with
    | refl => exact other operands rfl
    | item member inside => exact (free _ member).headed operands inside

theorem of_not_list (free : v.IsClosureFree) (atom : ∀ items, v ≠ .list items) :
    v.IsLambdaFree := by
  refine ⟨free, ?_⟩
  rintro operands ⟨⟩
  · exact atom _ rfl
  · exact atom _ rfl

theorem not_opensLambda (free : (Value.list items).IsLambdaFree) : ¬ OpensLambda items := by
  rintro ⟨word, operands, rfl, spelled⟩
  obtain rfl := Keyword.eq_name_of_ofName? spelled (by decide)
  exact free.headed operands (.refl _)

end IsLambdaFree

end Value

/-! ### Evaluation -/

theorem World.IsClosureFree.fresh : World.fresh.IsClosureFree := by
  intro id pair member
  rcases Store.mem_bindings_add member with old | ⟨_, member⟩
  · exact absurd (Store.lt_size_of_mem old) (Nat.not_lt_zero id)
  · exact isClosureFree_iff_every.mpr (.standard (fun p => nofun) member)

theorem World.IsClosureFree.define {world : World} (free : world.IsClosureFree) (name : String)
    {v : Value} (value : v.IsClosureFree) (scope : ScopeId) :
    (world.define name v scope).IsClosureFree := by
  intro id pair member
  rcases Store.mem_bindings_define member with old | ⟨_, rfl⟩
  · exact free id pair old
  · exact value

/-- To have no closures is an invariant of the evaluation of code without `lambda`. -/
def closureFreedom : Invariant where
  holds world := world.IsClosureFree
  value _ v := v.IsClosureFree
  code _ _ v := v.IsLambdaFree
  fault _ fault := ∀ v, fault = .notCallable v → v.IsClosureFree
  seen v := v.IsLambdaFree
  later _ _ := True
  later_refl _ := trivial
  later_trans _ _ := trivial
  value_later _ free := free
  code_later _ free := free
  seen_of_code free := free
  bound met _ _ found := met _ _ (Store.mem_of_get? found)
  value_nil _ := .of_isBare Primitive.isBare_nil
  literal free _ := free.closureFree
  quoted free _ := .quoted fun _ member => (free.item (List.mem_cons_of_mem _ member)).closureFree
  item free _ member := free.item member
  -- There is no text of a closure, and no closure to be called.
  closes _ free spelled := absurd ⟨_, _, rfl, spelled⟩ free.not_opensLambda
  defines name met _ value := ⟨met.define name value _, trivial⟩
  assigns met _ value _ := ⟨met.define _ value _, trivial⟩
  enters _ procedure _ _ := absurd (.refl _) (procedure _ _ _ _)
  calls met _ _ _ := ⟨met, trivial⟩
  answers _ given answer := isClosureFree_iff_every.mpr <|
    .answer (fun w member => isClosureFree_iff_every.mp (given w member)) answer
  fails _ _ answer v carries := absurd carries (Primitive.isBare_of_error answer v)
  uncallable := by
    rintro world v free _ ⟨⟩
    exact free
  plain is v carries := absurd carries (is.1 v)

/-- Code without `lambda` has a result in a world without closures, with any depth that is not less
than its height, and leaves such a world. -/
theorem eval_ends_of_isLambdaFree {world : World} (free : world.IsClosureFree) (scope : ScopeId)
    {expression : Value} (code : expression.IsLambdaFree) :
    ∃ result after,
      (∀ depth ≥ expression.height, (eval depth expression scope).EndsWith world result after) ∧
      after.IsClosureFree ∧ (∀ v, result = .ok v → v.IsClosureFree) ∧
      ∀ v, result = .error (.notCallable v) → v.IsClosureFree := by
  have good : closureFreedom.At ⟨world, scope, expression⟩ := ⟨free, code⟩
  have none (world : World) (serial : Nat) (parameters : List String) (body : Value)
      (captured : ScopeId) :
      ¬ closureFreedom.value world (.closure serial parameters body captured) :=
    fun free => free serial parameters body captured (.refl _)
  obtain ⟨result, after, trace, ran⟩ := Invariant.exists_ends none good (Nat.le_refl _)
  have kept := closureFreedom.eval_keeps _ _ _ _ code free _ ran
  exact ⟨result, after, fun depth enough => ⟨trace, eval_below enough _ _ _ _ ran⟩,
    kept.holds, kept.value, fun v failed => kept.fault _ failed v rfl⟩

/-! ### Lines -/

namespace Session

/-- The height of the tree that is read from a line. -/
def lineHeight (line : String) : Nat :=
  match Form.read line with
  | .ok (tree, _) => tree.height
  | .error _ => 0

/-- The height of the highest tree that is read from the lines. -/
def linesHeight (lines : List String) : Nat :=
  (lines.map lineHeight).foldr max 0

variable {depth : Nat} {scope : ScopeId} {line : String} {lines : List String} {world : World}

theorem lineHeight_le_linesHeight (member : line ∈ lines) :
    lineHeight line ≤ linesHeight lines := by
  induction lines with
  | nil => cases member
  | cons first rest ih =>
    rcases List.mem_cons.mp member with rfl | later
    · exact Nat.le_max_left _ _
    · exact Nat.le_trans (ih later) (Nat.le_max_right _ _)

theorem height_le_linesHeight {tree : Value} (read : Read lines tree) :
    tree.height ≤ linesHeight lines := by
  obtain ⟨line, member, ignored, read⟩ := read
  have same : lineHeight line = tree.height := by simp [lineHeight, read]
  exact same ▸ lineHeight_le_linesHeight member

/-- The world has no closures, and the trees that are read from the lines have no `lambda` and are
not higher than evaluation may nest. -/
structure Ready (depth : Nat) (world : World) (lines : List String) : Prop where
  free : world.IsClosureFree
  code : ∀ tree, Read lines tree → tree.IsLambdaFree
  enough : ∀ tree, Read lines tree → tree.height ≤ depth

namespace Ready

/-- The first line ends, and after it the session is ready for the others. -/
theorem first (ready : Ready depth world (line :: lines)) (scope : ScopeId) :
    ∃ result last,
      (evaluateLine depth scope line).EndsWith { world with output := "" } result last ∧
      Ready depth { last with output := "" } lines := by
  have later (tree : Value) (read : Read lines tree) : Read (line :: lines) tree :=
    read.mono (List.subset_cons_self line lines)
  have clear : World.IsClosureFree { world with output := "" } := ready.free
  have others {last : World} (kept : last.IsClosureFree) :
      Ready depth { last with output := "" } lines :=
    ⟨kept, fun tree read => ready.code tree (later tree read),
      fun tree read => ready.enough tree (later tree read)⟩
  cases read : Form.read line with
  | error cause => exact ⟨_, _, (readLine_fails read _).stops, others clear⟩
  | ok form =>
    obtain ⟨tree, ignored⟩ := form
    have here : Read (line :: lines) tree := ⟨line, List.mem_cons_self, ignored, read⟩
    obtain ⟨result, last, ends, kept, _⟩ :=
      eval_ends_of_isLambdaFree clear scope (ready.code tree here)
    have evaluated := ends depth (ready.enough tree here)
    exact ⟨result, last, (readLine_ends read _).andThen evaluated, others kept⟩

theorem evaluateLines_ends (ready : Ready depth world lines) (scope : ScopeId) :
    ∃ steps, evaluateLines depth scope lines world = some steps := by
  induction lines generalizing world with
  | nil => exact ⟨[], rfl⟩
  | cons line rest ih =>
    obtain ⟨result, last, ends, others⟩ := ready.first scope
    obtain ⟨done, stepped, _⟩ := step_of_endsWith ends
    obtain ⟨steps, finished⟩ := ih others
    exact ⟨done :: steps, by simp [evaluateLines, stepped, finished]⟩

theorem answerLines_ends (ready : Ready depth world lines) (options : Options) (scope : ScopeId) :
    ∃ steps, answerLines depth options scope lines world = some steps := by
  induction lines generalizing world with
  | nil => exact ⟨[], rfl⟩
  | cons line rest ih =>
    obtain ⟨result, last, ends, others⟩ := ready.first scope
    have answered : (answerLine depth options scope line).EndsWith { world with output := "" }
        (.ok (answerTo options line result)) last := answerLine_of_ends ends
    obtain ⟨done, stepped, _⟩ := step_of_endsWith answered
    cases leaving : leaves done.result with
    | true => exact ⟨[done], by simp [answerLines, stepped, leaving]⟩
    | false =>
      obtain ⟨steps, finished⟩ := ih others
      exact ⟨done :: steps, by simp [answerLines, stepped, leaving, finished]⟩

end Ready

end Session

open Session

/-- In a world without closures, code that has no closure and no `lambda` in it comes to a result,
and evaluation nests no deeper than the code is high. The world that it leaves has no closures
either, and neither has the value, nor the value that a fault reports. So if the trees that are read
from some lines have no `lambda`, a session that begins in a fresh world comes to the end of every
line, whether the lines are evaluated or answered. -/
theorem lambda_free_programs_end :
    (∀ world : World, world.IsClosureFree → ∀ (scope : ScopeId) (expression : Value),
      expression.IsLambdaFree → ∃ result after,
        (∀ depth ≥ expression.height,
          (eval depth expression scope).EndsWith world result after) ∧
        after.IsClosureFree ∧ (∀ v, result = .ok v → v.IsClosureFree) ∧
        ∀ v, result = .error (.notCallable v) → v.IsClosureFree) ∧
    ∀ lines, (∀ tree, Read lines tree → tree.IsLambdaFree) → ∀ depth ≥ linesHeight lines,
      (∃ steps, evaluateLines depth globalScope lines World.fresh = some steps ∧
        steps.length = lines.length) ∧
      ∀ options, ∃ steps, answerLines depth options globalScope lines World.fresh = some steps := by
  refine ⟨fun world free scope expression => eval_ends_of_isLambdaFree free scope, ?_⟩
  intro lines code depth enough
  have ready : Ready depth World.fresh lines :=
    ⟨.fresh, code, fun tree read => Nat.le_trans (height_le_linesHeight read) enough⟩
  obtain ⟨steps, finished⟩ := ready.evaluateLines_ends globalScope
  exact ⟨⟨steps, finished, (lines_of_evaluateLines finished).1⟩,
    fun options => ready.answerLines_ends options globalScope⟩

/-- A definition, a call of what it binds, which fails, and a line that cannot be read. -/
theorem lambda_free_programs_end_lines :
    let lines := ["(define x (list 1))", "(x)", ")"]
    let expression : Value := .list [.symbol "x"]
    World.fresh.IsClosureFree ∧ expression.IsLambdaFree ∧ linesHeight lines = 3 ∧
      (∃ result after, (eval 2 expression 0).EndsWith World.fresh result after ∧
        after.IsClosureFree) ∧
      ∃ steps, evaluateLines 3 globalScope lines World.fresh = some steps ∧ steps.length = 3 := by
  intro lines expression
  let list : Value := .list [.symbol "list", .integer 1]
  let definition : Value := .list [.symbol "define", .symbol "x", list]
  have symbol (name : String) : (Value.symbol name).IsLambdaFree :=
    .of_not_list (by rintro _ _ _ _ ⟨⟩) nofun
  have one : (Value.integer 1).IsLambdaFree :=
    .of_not_list (.of_isBare (Primitive.isBare_integer 1)) nofun
  have inner : list.IsLambdaFree := .list (by simp [symbol, one]) (by simp)
  have defines : definition.IsLambdaFree := .list (by simp [symbol, inner]) (by simp)
  have call : expression.IsLambdaFree := .list (by simp [symbol]) (by simp)
  have first : Form.read "(define x (list 1))" = .ok (definition, 0) := rfl
  have second : Form.read "(x)" = .ok (expression, 0) := rfl
  have third : Form.read ")" = .error .unexpectedClose := rfl
  have code : ∀ tree, Read lines tree → tree.IsLambdaFree := by
    rintro tree ⟨line, member, ignored, read⟩
    simp only [lines, List.mem_cons, List.not_mem_nil, or_false] at member
    rcases member with rfl | rfl | rfl
    · cases first.symm.trans read
      exact defines
    · cases second.symm.trans read
      exact call
    · cases third.symm.trans read
  have height : linesHeight lines = 3 := by
    simp only [linesHeight, lineHeight, lines, List.map_cons, List.map_nil, first, second, third]
    decide
  obtain ⟨ends, sessions⟩ := lambda_free_programs_end
  obtain ⟨result, after, done, kept, _⟩ := ends World.fresh .fresh 0 expression call
  exact ⟨.fresh, call, height, ⟨result, after, done 2 (Nat.le_refl 2), kept⟩,
    (sessions lines code 3 (Nat.le_of_eq height)).1⟩

end MiniLisp
