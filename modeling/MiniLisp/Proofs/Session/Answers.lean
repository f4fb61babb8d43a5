import MiniLisp.Proofs.Session.Lines
import MiniLisp.Proofs.Token.Word

/-!
# Answers and evaluation

Answering a line does to the world what evaluating it does, and what is shown for the line is
decided by the result of the evaluation: the text of its value, unless that counts as false, or of
its fault, unless that asks to leave. The tree that was read is shown before it on request, and
nothing else depends on that request: a whole session with it goes through the same worlds and ends
at the same line as one without it.
-/
namespace MiniLisp

namespace Session

open Run

/-! ### One line -/

/-- The tree that is read from a line, if it is wanted and there is one. -/
def echoOf (options : Options) (line : String) : List Shown :=
  match options.echo, Form.read line with
  | true, .ok (form, _) => [.echo form.inspected]
  | _, _ => []

/-- What a line is answered with if its evaluation ends with the given result. -/
def answerTo (options : Options) (line : String) (result : Except Fault Value) : Answer :=
  if Text.isBlankText line then .shown []
  else
    match result with
    | .error (.exit code) => .exit code
    | .error fault => .shown (echoOf options line ++ [.fault fault.message])
    | .ok .nil | .ok (.boolean false) => .shown (echoOf options line)
    | .ok v => .shown (echoOf options line ++ [.value v.readable])

variable {depth : Nat} {options : Options} {scope : ScopeId} {line : String} {world after : World}

theorem readLine_fails {cause : SyntaxFault} (failed : Form.read line = .error cause)
    (world : World) : (readLine line).EndsWith world (.error (.syntaxFault cause)) world := by
  unfold readLine
  rw [failed]
  exact endsWith_fail.mpr ⟨rfl, rfl⟩

/-- A blank line holds no form. -/
theorem read_of_isBlankText (blank : Text.isBlankText line = true) :
    Form.read line = .error .unexpectedEnd := by
  simp [Form.read, Token.scan_eq_nil_iff.mpr blank, Form.ofTokens, Form.readFrom]

theorem evaluateLine_of_isBlankText (blank : Text.isBlankText line = true) (world : World) :
    (evaluateLine depth scope line).EndsWith world (.error (.syntaxFault .unexpectedEnd)) world :=
  (readLine_fails (read_of_isBlankText blank) world).stops

/-- The answer to a form follows the result of its evaluation. -/
theorem answerForm_of_ends {form : Value} {ignored : Nat} {result : Except Fault Value}
    (read : Form.read line = .ok (form, ignored)) (visible : Text.isBlankText line = false)
    (ends : (eval depth form scope).EndsWith world result after) :
    (answerForm depth options scope form).EndsWith world (.ok (answerTo options line result))
      after := by
  have attempted : (attempt (eval depth form scope)).EndsWith world (.ok result) after :=
    endsWith_attempt.mpr ⟨result, rfl, ends⟩
  have echo : echoOf options line = echoed options form := by
    cases wanted : options.echo <;> simp [echoOf, echoed, read, wanted]
  refine attempted.andThen ?_
  unfold answerTo
  rw [visible, echo]
  match result with
  | .ok v =>
    refine endsWith_pure.mpr ⟨?_, rfl⟩
    cases v with
    | boolean b => cases b <;> simp [shownValue, Value.isTruthy]
    | _ => simp [shownValue, Value.isTruthy]
  | .error fault =>
    cases fault with
    | exit code =>
      have recorded : (emit (.quitting code)).EndsWith after (.ok ()) after :=
        endsWith_emit.mpr ⟨rfl, rfl⟩
      exact recorded.andThen (endsWith_pure.mpr ⟨rfl, rfl⟩)
    | _ => exact endsWith_pure.mpr ⟨rfl, rfl⟩

/-- The answer to a line follows the result of its evaluation, and both leave the same world. -/
theorem answerLine_of_ends {result : Except Fault Value}
    (ends : (evaluateLine depth scope line).EndsWith world result after) :
    (answerLine depth options scope line).EndsWith world (.ok (answerTo options line result))
      after := by
  unfold answerLine
  cases blank : Text.isBlankText line with
  | true =>
    obtain ⟨_, rfl⟩ := ends.unique (evaluateLine_of_isBlankText blank world)
    simp [answerTo, blank]
  | false =>
    rw [if_neg (by simp)]
    cases read : Form.read line with
    | error cause =>
      have failed := readLine_fails read world
      obtain ⟨rfl, rfl⟩ := ends.unique failed.stops
      have attempted : (attempt (readLine line)).EndsWith after
          (.ok (.error (.syntaxFault cause))) after := endsWith_attempt.mpr ⟨_, rfl, failed⟩
      refine attempted.andThen (endsWith_pure.mpr ⟨?_, rfl⟩)
      cases wanted : options.echo <;> simp [answerTo, blank, echoOf, read, wanted]
    | ok form =>
      obtain ⟨form, ignored⟩ := form
      have found := readLine_ends read world
      have attempted : (attempt (readLine line)).EndsWith world (.ok (.ok form)) world :=
        endsWith_attempt.mpr ⟨_, rfl, found⟩
      exact attempted.andThen (answerForm_of_ends read blank (found.bind_iff.mp ends))

/-- A line is answered only if its evaluation ends. -/
theorem ends_of_answerLine {answer : Except Fault Answer}
    (answered : (answerLine depth options scope line).EndsWith world answer after) :
    ∃ result last, (evaluateLine depth scope line).EndsWith world result last := by
  cases read : Form.read line with
  | error cause => exact ⟨_, _, (readLine_fails read world).stops⟩
  | ok form =>
    obtain ⟨form, ignored⟩ := form
    have found := readLine_ends read world
    unfold answerLine at answered
    split at answered
    next blank => exact ⟨_, _, evaluateLine_of_isBlankText blank world⟩
    next =>
      have attempted : (attempt (readLine line)).EndsWith world (.ok (.ok form)) world :=
        endsWith_attempt.mpr ⟨_, rfl, found⟩
      have answered : (answerForm depth options scope form).EndsWith world answer after :=
        attempted.bind_iff.mp answered
      -- What is attempted for the answer is the evaluation of the form.
      rcases endsWith_bind.mp answered with ⟨fault, _, failed⟩ | ⟨result, between, ends, _⟩
      · obtain ⟨_, impossible, _⟩ := endsWith_attempt.mp failed
        cases impossible
      · obtain ⟨result, _, ends⟩ := endsWith_attempt.mp ends
        exact ⟨result, between, found.andThen ends⟩

theorem answerLine_ends_iff {answer : Except Fault Answer} :
    (answerLine depth options scope line).EndsWith world answer after ↔
      ∃ result, (evaluateLine depth scope line).EndsWith world result after ∧
        answer = .ok (answerTo options line result) := by
  constructor
  · intro answered
    obtain ⟨result, last, ends⟩ := ends_of_answerLine answered
    obtain ⟨rfl, rfl⟩ := answered.unique (answerLine_of_ends ends)
    exact ⟨result, ends, rfl⟩
  · rintro ⟨result, ends, rfl⟩
    exact answerLine_of_ends ends

/-- A line with a literal has that as its value. -/
theorem evaluateLine_literal {v : Value} {ignored : Nat} (read : Form.read line = .ok (v, ignored))
    (literal : v.IsLiteral) (world : World) :
    (evaluateLine (depth + 1) scope line).EndsWith world (.ok v) world :=
  (readLine_ends read world).andThen ((Eval.evalWith_literal literal).mpr ⟨rfl, rfl⟩)

/-- In a fresh world every primitive stands under its name. -/
theorem get?_fresh (p : Primitive) :
    World.fresh.store.get? p.name globalScope = some (.primitive p) := by
  have bound : (World.fresh.store.bindings globalScope).get? p.name = some (.primitive p) := by
    cases p <;> rfl
  exact Store.get?_eq_some_iff.mpr ⟨globalScope, .here bound, bound⟩

/-- In a fresh world a line can ask to leave. -/
theorem evaluateLine_quit {code : Int64} {ignored : Nat}
    (read : Form.read line = .ok (.list [.symbol "quit", .integer code], ignored)) :
    (evaluateLine 2 globalScope line).EndsWith World.fresh
      (.error (.exit (Primitive.exitCode code))) World.fresh := by
  have operator : (Value.symbol "quit").IsOperator := by
    rintro _ ⟨⟩
    decide
  have first : (eval 1 (.symbol "quit") globalScope).EndsWith World.fresh
      (.ok (.primitive .quit)) World.fresh :=
    Eval.evalWith_symbol.mpr (endsWith_fetch.mpr ⟨rfl, .inl ⟨_, get?_fresh .quit, rfl⟩⟩)
  exact (readLine_ends read _).andThen (Eval.evalWith_call operator first ⟨_, rfl⟩ ⟨_, rfl⟩)

/-! ### Many lines -/

/-- A line that was entered, its answer, and the world that it left. -/
structure Exchange where
  line : String
  answer : Answer
  after : World

/-- Lines are answered one after another, up to the first one that leaves. -/
inductive Exchanges (depth : Nat) (options : Options) (scope : ScopeId) :
    World → List String → List Exchange → Prop where
  | done {world : World} : Exchanges depth options scope world [] []
  -- What comes behind a line that leaves is not answered.
  | last {world after : World} {line : String} {rest : List String} {code : Int32}
    (answered : (answerLine depth options scope line).EndsWith world (.ok (.exit code)) after) :
    Exchanges depth options scope world (line :: rest) [⟨line, .exit code, after⟩]
  | next {world between : World} {line : String} {rest : List String} {things : List Shown}
    {others : List Exchange}
    (answered : (answerLine depth options scope line).EndsWith world (.ok (.shown things)) between)
    (later : Exchanges depth options scope between rest others) :
    Exchanges depth options scope world (line :: rest) (⟨line, .shown things, between⟩ :: others)

end Session

/-! ### Echoes -/

def Session.Shown.isEcho : Session.Shown → Bool
  | .echo _ => true
  | _ => false

def Session.Answer.withoutEcho : Session.Answer → Session.Answer
  | .shown things => .shown (things.filter fun thing => !thing.isEcho)
  | .exit code => .exit code

def Session.Exchange.withoutEcho (exchange : Session.Exchange) : Session.Exchange :=
  { exchange with answer := exchange.answer.withoutEcho }

namespace Options

def loud (options : Options) : Options := { options with echo := true }

def quiet (options : Options) : Options := { options with echo := false }

end Options

namespace Session

open Run

variable {depth : Nat} {options : Options} {scope : ScopeId} {line : String} {world after : World}

theorem answerTo_quiet (options : Options) (line : String) (result : Except Fault Value) :
    answerTo options.quiet line result = (answerTo options.loud line result).withoutEcho := by
  have loud : (echoOf options.loud line).filter (fun thing => !thing.isEcho) = [] := by
    unfold echoOf
    split <;> rfl
  have quiet : echoOf options.quiet line = [] := rfl
  unfold answerTo
  rw [quiet]
  split
  · rfl
  · split <;> simp only [Answer.withoutEcho, List.filter_append, loud] <;> rfl

theorem answerLine_quiet {answer : Answer} :
    (answerLine depth options.quiet scope line).EndsWith world (.ok answer) after ↔
      ∃ whole : Answer,
        (answerLine depth options.loud scope line).EndsWith world (.ok whole) after ∧
        answer = whole.withoutEcho := by
  simp only [answerLine_ends_iff, Except.ok.injEq, answerTo_quiet]
  constructor
  · rintro ⟨result, ends, rfl⟩
    exact ⟨_, ⟨result, ends, rfl⟩, rfl⟩
  · rintro ⟨_, ⟨result, ends, rfl⟩, rfl⟩
    exact ⟨result, ends, rfl⟩

/-- With echoes a session has the same exchanges, apart from the echoes. -/
theorem exchanges_quiet {lines : List String} {exchanges : List Exchange} :
    Exchanges depth options.quiet scope world lines exchanges ↔
      ∃ whole, Exchanges depth options.loud scope world lines whole ∧
        exchanges = whole.map Exchange.withoutEcho := by
  constructor
  · intro session
    induction session with
    | done => exact ⟨[], .done, rfl⟩
    | last answered =>
      obtain ⟨whole, full, same⟩ := answerLine_quiet.mp answered
      cases whole with
      | shown things => cases same
      | exit code =>
        cases same
        exact ⟨_, .last full, rfl⟩
    | next answered _ ih =>
      obtain ⟨whole, full, same⟩ := answerLine_quiet.mp answered
      obtain ⟨others, later, rfl⟩ := ih
      cases whole with
      | shown things =>
        cases same
        exact ⟨_, .next full later, rfl⟩
      | exit code => cases same
  · rintro ⟨whole, session, rfl⟩
    induction session with
    | done => exact .done
    | last answered => exact .last (answerLine_quiet.mpr ⟨_, answered, rfl⟩)
    | next answered _ ih => exact .next (answerLine_quiet.mpr ⟨_, answered, rfl⟩) ih

end Session

open Session Run

/-- A blank line is one without tokens; its evaluation ends with the fault of a text that is over
too early, and its answer shows nothing. Whatever the line, it is answered if and only if its
evaluation ends, the answer is the one that the result of the evaluation calls for, and the world
that is left is the same. Therefore lines that are answered one after another leave the same worlds
with echoes as without them, end at the same line with the same code, and show the same except for
the echoes. -/
theorem answers_follow_evaluation (depth : Nat) (options : Options) (scope : ScopeId) :
    (∀ line, Text.isBlankText line = true ↔ Token.scan line = []) ∧
    (∀ line world, Text.isBlankText line = true →
      (evaluateLine depth scope line).EndsWith world (.error (.syntaxFault .unexpectedEnd)) world ∧
      (answerLine depth options scope line).EndsWith world (.ok (.shown [])) world) ∧
    (∀ line world answer after,
      (answerLine depth options scope line).EndsWith world answer after ↔
        ∃ result, (evaluateLine depth scope line).EndsWith world result after ∧
          answer = .ok (answerTo options line result)) ∧
    ∀ world lines exchanges,
      Exchanges depth options.quiet scope world lines exchanges ↔
        ∃ whole, Exchanges depth options.loud scope world lines whole ∧
          exchanges = whole.map Exchange.withoutEcho := by
  refine ⟨fun line => Token.scan_eq_nil_iff.symm, ?_, ?_, ?_⟩
  · intro line world blank
    have ends : (evaluateLine depth scope line).EndsWith world
        (.error (.syntaxFault .unexpectedEnd)) world := evaluateLine_of_isBlankText blank world
    refine ⟨ends, answerLine_ends_iff.mpr ⟨_, ends, ?_⟩⟩
    simp [answerTo, blank]
  · exact fun line world answer after => answerLine_ends_iff
  · exact fun world lines exchanges => exchanges_quiet

/-- A blank line, a line with a value and a line that leaves, with one more line behind it. -/
theorem answers_follow_evaluation_blank :
    let blank := "\u3000\t "
    Text.isBlankText blank = true ∧
      (evaluateLine 2 globalScope blank).EndsWith World.fresh
        (.error (.syntaxFault .unexpectedEnd)) World.fresh ∧
      Exchanges 2 (Options.quiet {}) globalScope World.fresh [blank, "()", "(quit 3)", "4"]
        [⟨blank, .shown [], World.fresh⟩, ⟨"()", .shown [.value "()"], World.fresh⟩,
          ⟨"(quit 3)", .exit 3, World.fresh⟩] := by
  intro blank
  have isBlank : Text.isBlankText "\u3000\t " = true := rfl
  obtain ⟨_, blanks, lines, sessions⟩ := answers_follow_evaluation 2 (Options.loud {}) globalScope
  have readEmpty : Form.read "()" = .ok (.list [], 0) := rfl
  have readLeave : Form.read "(quit 3)" = .ok (.list [.symbol "quit", .integer 3], 0) := rfl
  have value : (evaluateLine 2 globalScope "()").EndsWith World.fresh (.ok (.list []))
      World.fresh := evaluateLine_literal readEmpty ⟨nofun, nofun⟩ _
  have session : Exchanges 2 (Options.loud {}) globalScope World.fresh
      [blank, "()", "(quit 3)", "4"]
      [⟨blank, .shown [], World.fresh⟩, ⟨"()", .shown [.echo "[]", .value "()"], World.fresh⟩,
        ⟨"(quit 3)", .exit 3, World.fresh⟩] :=
    .next (blanks blank World.fresh isBlank).2
      (.next ((lines ..).mpr ⟨_, value, rfl⟩)
        (.last ((lines ..).mpr ⟨_, evaluateLine_quit readLeave, rfl⟩)))
  exact ⟨isBlank, (blanks blank World.fresh isBlank).1, (sessions ..).mpr ⟨_, session, rfl⟩⟩

end MiniLisp
