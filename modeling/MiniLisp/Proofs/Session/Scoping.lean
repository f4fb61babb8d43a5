import MiniLisp.Proofs.Session.Lines
import MiniLisp.Proofs.Store.Growth
import MiniLisp.Proofs.Value.Every
import MiniLisp.Proofs.Value.Nesting

/-!
# Scoping is lexical

Code is what was read. A closure, wherever a session keeps it, has the parameters and the body of
a text `(lambda (p1 ... pn) body)` in a line that was read before, and the scope that it remembers
lies as deep as that text is nested in other bodies. The same is true of everything that is
evaluated: it stands in a line, and the scope that it is evaluated in lies as deep as it is
nested. So no scope lies deeper than the lines are nested, however deep calls go.
-/
namespace MiniLisp

open Value

/-- Every closure in the value comes from a text in one of the trees, and remembers a scope that
lies as deep as the text is nested there. -/
def Value.IsLexical (read : Value → Prop) (store : Store) (v : Value) : Prop :=
  ∀ serial parameters body scope, Subtree (.closure serial parameters body scope) v →
    scope < store.size ∧
      ∃ tree, read tree ∧ (lambda parameters body).Within (store.depth scope) tree

namespace Session

variable {read : Value → Prop} {store before after : Store}

theorem isLexical_of_no_closure {v : Value}
    (none : ∀ serial parameters body scope, ¬ Subtree (.closure serial parameters body scope) v) :
    v.IsLexical read store :=
  fun serial parameters body scope inside => absurd inside (none serial parameters body scope)

theorem isLexical_of_isTree {v : Value} (is : v.IsTree) : v.IsLexical read store := by
  refine isLexical_of_no_closure fun serial parameters body scope inside => ?_
  cases is.of_subtree inside

theorem isLexical_of_isBare {v : Value} (bare : v.IsBare) : v.IsLexical read store :=
  isLexical_of_no_closure fun serial parameters body scope inside =>
    bare (.closure serial parameters body scope) inside trivial

theorem isLexical_of_grows {v : Value} (lexical : v.IsLexical read before)
    (grows : Store.Grows (fun _ _ => True) before after) : v.IsLexical read after := by
  intro serial parameters body scope inside
  obtain ⟨old, tree, member, within⟩ := lexical serial parameters body scope inside
  rw [← grows.depth_eq old] at within
  exact ⟨Nat.lt_of_lt_of_le old grows.size_le, tree, member, within⟩

theorem isLexical_mono {others : Value → Prop} {v : Value} (lexical : v.IsLexical read store)
    (subset : ∀ tree, read tree → others tree) : v.IsLexical others store := by
  intro serial parameters body scope inside
  obtain ⟨old, tree, member, within⟩ := lexical serial parameters body scope inside
  exact ⟨old, tree, subset tree member, within⟩

/-- All bindings are lexical, and every scope lies as deep as some place of a tree is nested. -/
structure IsScoped (read : Value → Prop) (store : Store) : Prop where
  bound : ∀ id, ∀ pair ∈ store.bindings id, IsLexical read store pair.2
  nested : ∀ id < store.size, store.depth id = 0 ∨
    ∃ tree part : Value, read tree ∧ part.Within (store.depth id) tree

/-- The value stands in one of the trees, nested as deep as the scope lies. -/
def IsCode (read : Value → Prop) (store : Store) (scope : ScopeId) (v : Value) : Prop :=
  scope < store.size ∧ ∃ tree, read tree ∧ v.Within (store.depth scope) tree

theorem isScoped_define {name : String} {v : Value} {id : ScopeId} (met : IsScoped read store)
    (lexical : v.IsLexical read store) : IsScoped read (store.define name v id) := by
  have grows : Store.Grows (fun _ _ => True) store (store.define name v id) :=
    (Store.Grows.define store name v id).any
  constructor
  · intro other pair member
    rcases Store.mem_bindings_define member with member | ⟨_, rfl⟩
    · exact isLexical_of_grows (met.bound other pair member) grows
    · exact isLexical_of_grows lexical grows
  · intro other old
    rw [Store.size_define] at old
    rw [grows.depth_eq old]
    exact met.nested other old

/-- The scope of a call lies one deeper than the one that the closure remembers, and the body
stands one body deeper than the text of the closure. -/
theorem isScoped_add {serial : Nat} {parameters : List String} {body : Value}
    {captured : ScopeId} {arguments : List Value} (met : IsScoped read store)
    (lexical : IsLexical read store (.closure serial parameters body captured))
    (given : ∀ v ∈ arguments, IsLexical read store v) :
    IsScoped read (store.add ⟨some captured, Bindings.ofLists parameters arguments⟩) ∧
      IsCode read (store.add ⟨some captured, Bindings.ofLists parameters arguments⟩) store.size
        body := by
  have grows : Store.Grows (fun _ _ => True) store
      (store.add ⟨some captured, Bindings.ofLists parameters arguments⟩) := .add store _
  obtain ⟨old, tree, member, within⟩ := lexical serial parameters body captured (.refl _)
  have deeper := within.of_body
  rw [← Store.depth_add old (Bindings.ofLists parameters arguments)] at deeper
  refine ⟨⟨?_, ?_⟩, by simp, tree, member, deeper⟩
  · intro id pair bound
    rcases Store.mem_bindings_add bound with bound | ⟨_, bound⟩
    · exact isLexical_of_grows (met.bound id pair bound) grows
    · exact isLexical_of_grows (given pair.2 (Store.mem_ofLists bound).2) grows
  · intro id last
    rw [Store.size_add] at last
    -- Only the new scope lies where none did before.
    by_cases new : id = store.size
    · subst new
      exact .inr ⟨tree, body, member, deeper⟩
    · have old : id < store.size := Nat.lt_of_le_of_ne (Nat.le_of_lt_succ last) new
      rw [grows.depth_eq old]
      exact met.nested id old

/-- Scoping is an invariant of evaluation. -/
def scoping (read : Value → Prop) (trees : ∀ tree, read tree → tree.IsTree) : Invariant where
  holds world := IsScoped read world.store
  value world v := v.IsLexical read world.store
  code world scope v := IsCode read world.store scope v
  fault world f := ∀ v, f = .notCallable v → v.IsLexical read world.store
  seen v := ∃ tree, read tree ∧ v.Subtree tree
  later world after := Store.Grows (fun _ _ => True) world.store after.store
  later_refl world := .refl world.store
  later_trans first second := first.trans second
  value_later change good := isLexical_of_grows good change
  code_later := by
    rintro world after scope v change ⟨old, tree, member, within⟩
    rw [← change.depth_eq old] at within
    exact ⟨Nat.lt_of_lt_of_le old change.size_le, tree, member, within⟩
  seen_of_code := by
    rintro world scope v ⟨_, tree, member, within⟩
    exact ⟨tree, member, within.subtree⟩
  bound met _ _ found := met.bound _ _ (Store.mem_of_get? found)
  value_nil world := isLexical_of_isBare Primitive.isBare_nil
  literal := by
    rintro world scope v ⟨_, tree, member, within⟩ _
    exact isLexical_of_isTree ((trees tree member).of_subtree within.subtree)
  quoted := by
    rintro world scope word operands ⟨_, tree, member, within⟩ _
    have whole := (trees tree member).of_subtree within.subtree
    exact isLexical_of_isTree (IsTree.quoted fun v inside =>
      whole.of_item (List.mem_cons_of_mem _ inside))
  -- An item of a list that is no closure's text stands as deep as the list.
  item := by
    rintro world scope items item ⟨old, tree, member, within⟩ other inside
    refine ⟨old, tree, member, within.of_item (fun parameters body equal => ?_) inside⟩
    cases equal
    exact other ⟨"lambda", _, rfl, rfl⟩
  closes := by
    rintro world scope word parameters body met ⟨old, tree, member, within⟩ spelled
    refine ⟨met, .refl _, fun serial names text captured inside => ?_⟩
    obtain rfl : word = "lambda" := Keyword.eq_name_of_ofName? spelled (by decide)
    -- The body of the new closure is no subtree of it, so it is the only closure in question.
    cases inside
    exact ⟨old, tree, member, within⟩
  defines name met _ lexical :=
    ⟨isScoped_define met lexical, (Store.Grows.define _ _ _ _).any⟩
  assigns met _ lexical owned := ⟨isScoped_define met lexical, .assign owned.bound _⟩
  enters met lexical given _ :=
    have ⟨entered, code⟩ := isScoped_add met lexical given
    ⟨entered, .add _ _, code⟩
  calls met _ _ _ := ⟨met, .refl _⟩
  answers := by
    intro world p arguments v _ given answer serial parameters body scope inside
    -- A closure in the answer stood in an argument.
    have made := p.made_result arguments
    rw [answer] at made
    obtain ⟨w, argument, whole⟩ := made _ inside trivial
    exact given w argument serial parameters body scope whole
  fails _ _ answer v equal := absurd equal (Primitive.isBare_of_error answer v)
  uncallable := by
    rintro world v lexical _ ⟨⟩
    exact lexical
  plain is v equal := absurd equal (is.1 v)

/-! ### Lines -/

theorem isTree_of_Read {lines : List String} (tree : Value) (read : Read lines tree) :
    tree.IsTree := by
  obtain ⟨line, _, ignored, found⟩ := read
  exact Form.isTree_of_read found

/-- What a step of a session leaves to be looked at comes from the lines. -/
structure ComesFrom (lines : List String) (store : Store) (step : Step Value) : Prop where
  value : ∀ v, step.result = .ok v → v.IsLexical (Read lines) store
  fault : ∀ v, step.result = .error (.notCallable v) → v.IsLexical (Read lines) store
  evaluated : ∀ v, .evaluating v ∈ step.trace.toList → ∃ tree, Read lines tree ∧ v.Subtree tree

theorem ComesFrom.grow {lines : List String} {step : Step Value}
    (comes : ComesFrom lines before step) (grows : Store.Grows (fun _ _ => True) before after) : ComesFrom lines after step :=
  { comes with
    value := fun v equal => isLexical_of_grows (comes.value v equal) grows
    fault := fun v equal => isLexical_of_grows (comes.fault v equal) grows }

theorem isScoped_mono {others : Value → Prop} (met : IsScoped read store)
    (subset : ∀ tree, read tree → others tree) : IsScoped others store where
  bound id pair member := isLexical_mono (met.bound id pair member) subset
  nested id old := by
    rcases met.nested id old with top | ⟨tree, part, member, within⟩
    · exact .inl top
    · exact .inr ⟨tree, part, subset tree member, within⟩

/-- One line adds its own tree to those that closures come from. -/
theorem scoping_line {depth : Nat} {scope : ScopeId} {earlier : List String} {line : String}
    {world between : World} {first : Step Value} (met : IsScoped (Read earlier) world.store)
    (allocated : scope < world.store.size) (top : world.store.depth scope = 0)
    (evaluated : step (evaluateLine depth scope line) world = some (first, between)) :
    IsScoped (Read (earlier ++ [line])) between.store ∧
      Store.Grows (fun _ _ => True) world.store between.store ∧
      ComesFrom (earlier ++ [line]) between.store first := by
  obtain ⟨last, ran, same, _⟩ := step_eq_some evaluated
  have start : IsScoped (Read (earlier ++ [line])) world.store :=
    isScoped_mono met fun tree read => read.mono (List.subset_append_left _ _)
  have good : ∀ tree ignored, Form.read line = .ok (tree, ignored) →
      IsCode (Read (earlier ++ [line])) world.store scope tree := by
    intro tree ignored found
    rw [IsCode, top]
    exact ⟨allocated, tree, ⟨line, by simp, ignored, found⟩, .whole⟩
  -- The invariant is taken for the lines up to this one from the start.
  let invariant := scoping (Read (earlier ++ [line])) isTree_of_Read
  have keeps : invariant.Keeps (evaluateLine depth scope line) invariant.value
    { world with output := "" } := Invariant.evaluateLine_keeps depth good
  have kept := keeps start _ ran
  rw [← same]
  exact ⟨kept.holds, kept.later, kept.value, fun v equal => kept.fault _ equal v rfl, kept.seen⟩

theorem scoping_lines {scope : ScopeId} {earlier : List String} {world after : World}
    {done : List (String × Step Value)} (session : Lines scope world done after)
    (met : IsScoped (Read earlier) world.store) (allocated : scope < world.store.size)
    (top : world.store.depth scope = 0) :
    IsScoped (Read (earlier ++ done.map Prod.fst)) after.store ∧
      Store.Grows (fun _ _ => True) world.store after.store ∧
      ∀ before line step rest, done = before ++ (line, step) :: rest →
        ComesFrom (earlier ++ before.map Prod.fst ++ [line]) after.store step := by
  induction session generalizing earlier with
  | nil => exact ⟨by simpa using met, .refl _, by simp⟩
  | @cons world between after depth line first rest evaluated others ih =>
    obtain ⟨between_met, grows, comes⟩ := scoping_line met allocated top evaluated
    obtain ⟨holds, later, steps⟩ := ih between_met
      (Nat.lt_of_lt_of_le allocated grows.size_le) ((grows.depth_eq allocated).trans top)
    refine ⟨by simpa using holds, grows.trans later, ?_⟩
    intro before line' step' rest' equal
    cases before with
    | nil =>
      cases equal
      simpa using comes.grow later
    | cons _ before =>
      -- A later step comes from the lines before it, of which this line is the first.
      cases equal
      simpa using steps before line' step' rest' rfl

theorem depth_global : World.fresh.store.depth globalScope = 0 := by
  rw [Store.depth]
  rfl

/-- A global scope begins without closures. -/
theorem isScoped_fresh : IsScoped (Read []) World.fresh.store := by
  constructor
  · intro id pair member
    rcases Store.mem_bindings_add member with member | ⟨_, member⟩
    · cases member
    · -- A global scope binds primitives and three constants.
      refine isLexical_of_no_closure fun serial parameters body scope inside => ?_
      simp only [Scope.global, Bindings.standard, List.mem_append, List.mem_map, List.mem_cons,
        List.not_mem_nil, or_false] at member
      rcases member with ⟨p, _, rfl⟩ | rfl | rfl | rfl <;> cases inside
  · intro id old
    obtain rfl : id = globalScope := Nat.lt_one_iff.mp old
    exact .inl depth_global

def lineNesting (line : String) : Nat :=
  match Form.read line with
  | .ok (tree, _) => tree.nesting
  | .error _ => 0

/-- The greatest nesting of the trees that are read from lines. -/
def nesting (lines : List String) : Nat :=
  (lines.map lineNesting).foldr max 0

theorem lineNesting_le {line : String} {lines : List String} (member : line ∈ lines) :
    lineNesting line ≤ nesting lines := by
  unfold nesting
  induction lines with
  | nil => cases member
  | cons first rest ih =>
    rw [List.map_cons, List.foldr_cons]
    rcases List.mem_cons.mp member with rfl | member
    · exact Nat.le_max_left _ _
    · exact Nat.le_trans (ih member) (Nat.le_max_right _ _)

theorem Read.nesting_le {lines : List String} {tree : Value} (read : Read lines tree) :
    tree.nesting ≤ nesting lines := by
  obtain ⟨line, member, ignored, found⟩ := read
  have here : lineNesting line = tree.nesting := by
    rw [lineNesting, found]
  exact here ▸ lineNesting_le member

end Session

open Session

/-- In a session, which evaluates lines in one fresh global scope, every closure in a binding, and
every closure in what a line ends with, comes from a text in a line read before, and remembers a
scope that lies as deep as that text is nested; no scope lies deeper than the lines are nested;
and everything that is evaluated for a line stands in a line read before. -/
theorem closures_come_from_lines {done : List (String × Step Value)} {world : World}
    (session : Lines globalScope World.fresh done world) :
    (∀ id, ∀ pair ∈ world.store.bindings id,
      IsLexical (Read (done.map Prod.fst)) world.store pair.2) ∧
    (∀ before line step rest, done = before ++ (line, step) :: rest →
      ComesFrom (before.map Prod.fst ++ [line]) world.store step) ∧
    ∀ id < world.store.size, world.store.depth id ≤ nesting (done.map Prod.fst) := by
  obtain ⟨met, _, steps⟩ := scoping_lines session isScoped_fresh (by decide) depth_global
  refine ⟨met.bound, steps, fun id old => ?_⟩
  rcases met.nested id old with global | ⟨tree, part, read, within⟩
  · rw [global]
    exact Nat.zero_le _
  · exact Nat.le_trans within.le_nesting read.nesting_le

/-- A closure that a call returned remembers the scope of the call, and a list that is applied ends
its line with a fault. -/
theorem closures_come_from_lines_returned :
    ∃ (first second : Step Value) (world : World),
      Lines globalScope World.fresh
        [("((lambda (x) (lambda (y) y)) ())", first), ("(())", second)] world ∧
      first.result = .ok (.closure 1 ["y"] (.symbol "y") 1) ∧
      second.result = .error (.notCallable (.list [])) ∧
      (∃ tree, Read ["((lambda (x) (lambda (y) y)) ())"] tree ∧
        (lambda ["y"] (.symbol "y")).Within (world.store.depth 1) tree) ∧
      ∀ id < world.store.size,
        world.store.depth id ≤ nesting ["((lambda (x) (lambda (y) y)) ())", "(())"] := by
  have read : Form.read "((lambda (x) (lambda (y) y)) ())" =
      .ok (.list [lambda ["x"] (lambda ["y"] (.symbol "y")), .list []], 0) := rfl
  have called : (eval 5 (.list [lambda ["x"] (lambda ["y"] (.symbol "y")), .list []])
      globalScope).EndsWith World.fresh (.ok (.closure 1 ["y"] (.symbol "y") 1))
      { World.fresh.enter ["x"] [.list []] 0 with closuresMade := 2 } := ⟨_, rfl⟩
  have applied (world : World) : (eval 2 (.list [.list []]) globalScope).EndsWith world
      (.error (.notCallable (.list []))) world := ⟨_, rfl⟩
  obtain ⟨first, evaluated, result⟩ := step_of_ends _ World.fresh read called
  obtain ⟨second, failed, fault⟩ := step_of_ends "(())" _ rfl (applied _)
  have session := Lines.cons evaluated (.cons failed .nil)
  obtain ⟨_, steps, depths⟩ := closures_come_from_lines session
  have comes := steps [] _ first _ rfl
  obtain ⟨_, tree, member, within⟩ := comes.value _ result 1 ["y"] (.symbol "y") 1 (.refl _)
  exact ⟨first, second, _, session, result, fault, ⟨tree, member, within⟩, depths⟩

end MiniLisp
