import MiniLisp.Proofs.Eval.Invariant
import MiniLisp.Session

/-!
# Lines of a session

A session evaluates lines one after another, each in the world that the one before has left, and
goes on after a line that has no value. What is evaluated for a line is the tree that is read from
it, so an invariant that allows every tree that is read is kept by every line.
-/
namespace MiniLisp

namespace Session

/-- Lines evaluated in a scope from a first world to a last one, each with what it leaves to be
looked at. -/
inductive Lines (scope : ScopeId) : World → List (String × Step Value) → World → Prop where
  | nil {world : World} : Lines scope world [] world
  | cons {world between after : World} {depth : Nat} {line : String} {first : Step Value}
    {rest : List (String × Step Value)}
    (evaluated : step (evaluateLine depth scope line) world = some (first, between))
    (others : Lines scope between rest after) : Lines scope world ((line, first) :: rest) after

theorem step_eq_some {α : Type} {run : Run α} {world after : World} {done : Step α}
    (stepped : step run world = some (done, after)) :
    ∃ last, run { world with output := "" } = some ⟨done.result, last, done.trace⟩ ∧
      last.store = after.store ∧ last.output = done.output := by
  unfold step at stepped
  split at stepped
  next => cases stepped
  next ran =>
    cases stepped
    exact ⟨_, ran, rfl, rfl⟩

theorem readLine_ends {line : String} {tree : Value} {ignored : Nat}
    (read : Form.read line = .ok (tree, ignored)) (world : World) :
    (readLine line).EndsWith world (.ok tree) world := by
  unfold readLine
  rw [read]
  cases ignored with
  | zero => exact Run.endsWith_pure.mpr ⟨rfl, rfl⟩
  | succ n =>
    have recorded : (Run.emit (.ignoredTokens (n + 1))).EndsWith world (.ok ()) world :=
      Run.endsWith_emit.mpr ⟨rfl, rfl⟩
    exact Run.endsWith_bind.mpr (.inr ⟨(), world, recorded, Run.endsWith_pure.mpr ⟨rfl, rfl⟩⟩)

/-- A line ends as the evaluation of its tree does. -/
theorem evaluateLine_ends {depth : Nat} {scope : ScopeId} {line : String} {tree : Value}
    {ignored : Nat} {world after : World} {result : Except Fault Value}
    (read : Form.read line = .ok (tree, ignored))
    (ends : (eval depth tree scope).EndsWith world result after) :
    (evaluateLine depth scope line).EndsWith world result after :=
  Run.endsWith_bind.mpr (.inr ⟨tree, world, readLine_ends read world, ends⟩)

/-- A run that ends is a step. -/
theorem step_of_endsWith {α : Type} {run : Run α} {world last : World} {result : Except Fault α}
    (ends : run.EndsWith { world with output := "" } result last) :
    ∃ done, step run world = some (done, { last with output := "" }) ∧ done.result = result := by
  obtain ⟨trace, ran⟩ := ends
  exact ⟨⟨result, last.output, trace⟩, by simp [step, ran], rfl⟩

theorem step_of_ends {depth : Nat} {scope : ScopeId} {tree : Value} {ignored : Nat}
    {last : World} {result : Except Fault Value} (line : String) (world : World)
    (read : Form.read line = .ok (tree, ignored))
    (ends : (eval depth tree scope).EndsWith { world with output := "" } result last) :
    ∃ done, step (evaluateLine depth scope line) world = some (done, { last with output := "" }) ∧
      done.result = result :=
  step_of_endsWith (evaluateLine_ends read ends)

/-- The tree has been read from one of the lines. -/
def Read (lines : List String) (tree : Value) : Prop :=
  ∃ line ∈ lines, ∃ ignored, Form.read line = .ok (tree, ignored)

theorem Read.mono {lines others : List String} {tree : Value} (read : Read lines tree)
    (subset : lines ⊆ others) : Read others tree := by
  obtain ⟨line, member, found⟩ := read
  exact ⟨line, subset member, found⟩

/-- Lines that are evaluated one after another are a session. -/
theorem lines_of_evaluateLines {depth : Nat} {scope : ScopeId} {lines : List String}
    {world : World} {steps : List (Step Value)}
    (done : evaluateLines depth scope lines world = some steps) :
    steps.length = lines.length ∧ ∃ after, Lines scope world (lines.zip steps) after := by
  induction lines generalizing world steps with
  | nil =>
    cases done
    exact ⟨rfl, world, .nil⟩
  | cons line rest ih =>
    simp only [evaluateLines, Option.bind_eq_bind, Option.bind_eq_some_iff] at done
    obtain ⟨⟨first, between⟩, evaluated, others, finished, equal⟩ := done
    cases equal
    obtain ⟨length, after, lines⟩ := ih finished
    exact ⟨congrArg (· + 1) length, after, .cons evaluated lines⟩

end Session

namespace Invariant

open Session

variable {I : Invariant} {world : World} {scope : ScopeId} {line : String}

theorem readLine_keeps
    (good : ∀ tree ignored, Form.read line = .ok (tree, ignored) → I.code world scope tree) :
    I.Keeps (readLine line) (fun after tree => I.code after scope tree) world := by
  unfold readLine
  split
  next => exact .fail (I.plain (by simp [Fault.IsPlain]))
  next found => exact .pure (good _ _ found)
  next form ignored _ found =>
    exact Keeps.bind (.emit (by simp)) fun _ between change _ =>
      .pure (I.code_later change (good form ignored found))

theorem evaluateLine_keeps (depth : Nat)
    (good : ∀ tree ignored, Form.read line = .ok (tree, ignored) → I.code world scope tree) :
    I.Keeps (evaluateLine depth scope line) I.value world :=
  (readLine_keeps good).bind fun form between _ code => I.eval_keeps depth form scope between code

/-- If the answer is to leave the session, a fault that may be raised has asked for it. -/
def Permits (I : Invariant) (answer : Answer) : Prop :=
  ∀ code, answer = .exit code → ∃ between, I.fault between (.exit code)

theorem answerForm_keeps (depth : Nat) (options : Options) {form : Value}
    (good : I.code world scope form) :
    I.Keeps (answerForm depth options scope form) (fun _ answer => I.Permits answer) world := by
  have evaluated := Keeps.attempt (I.eval_keeps depth form scope world good)
  refine evaluated.bind fun result between _ caught => ?_
  split
  next => exact .pure nofun
  next code =>
    refine Keeps.bind (.emit nofun) fun _ after _ _ => .pure ?_
    rintro _ ⟨⟩
    exact ⟨between, caught.2 _ rfl⟩
  next => exact .pure nofun

theorem answerLine_keeps (depth : Nat) (options : Options)
    (good : ∀ tree ignored, Form.read line = .ok (tree, ignored) → I.code world scope tree) :
    I.Keeps (answerLine depth options scope line) (fun _ answer => I.Permits answer) world := by
  unfold answerLine
  split
  · exact .pure nofun
  · refine (Keeps.attempt (readLine_keeps good)).bind fun result between _ caught => ?_
    split
    next form => exact answerForm_keeps depth options (caught.1 form rfl)
    next => exact .pure nofun

end Invariant

end MiniLisp
