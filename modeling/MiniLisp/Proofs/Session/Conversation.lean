import Mathlib.Data.List.Destutter
import MiniLisp.Conversation
import MiniLisp.Proofs.Session.Answers

/-!
# What a conversation leaves

A conversation enters its lines one after another, so what it leaves is decided by the exchanges of
the session. On the screen every exchange has the row of its line and below it the rows of what was
shown, the history has the lines without immediate repetitions, and the code is that of the line
that left. Only lines that were answered count, the one that left among them.
-/
namespace MiniLisp

namespace Session

/-- The code of an answer that leaves. -/
def Answer.code? : Answer → Option Int32
  | .shown _ => none
  | .exit code => some code

/-- The code that the last exchange leaves with, if it leaves. -/
def exitCode? (exchanges : List Exchange) : Option Int32 :=
  exchanges.getLast?.bind fun last => last.answer.code?

/-- The world that the exchanges leave, if they begin in the given one. -/
def lastWorld (world : World) (exchanges : List Exchange) : World :=
  (exchanges.getLast?.map Exchange.after).getD world

variable {depth : Nat} {options : Options} {scope : ScopeId} {world : World} {lines : List String}
variable {exchanges : List Exchange}

theorem exitCode?_next (line : String) (things : List Shown) (between : World)
    (others : List Exchange) :
    exitCode? (⟨line, .shown things, between⟩ :: others) = exitCode? others := by
  cases others with
  | nil => rfl
  | cons next rest => simp [exitCode?, List.getLast?_cons_cons]

theorem lastWorld_cons (world : World) (first : Exchange) (others : List Exchange) :
    lastWorld world (first :: others) = lastWorld first.after others := by
  cases others with
  | nil => rfl
  | cons next rest => simp [lastWorld, List.getLast?_cons]

/-- The lines that are answered come first among the lines. -/
theorem Exchanges.isPrefix (session : Exchanges depth options scope world lines exchanges) :
    exchanges.map Exchange.line <+: lines := by
  induction session with
  | done => exact List.prefix_rfl
  | last _ => simp
  | next _ _ ih => simpa using ih

/-- All lines are answered if none of them leaves. -/
theorem Exchanges.lines_eq (session : Exchanges depth options scope world lines exchanges)
    (stays : exitCode? exchanges = none) : exchanges.map Exchange.line = lines := by
  induction session with
  | done => rfl
  | last _ => cases stays
  | next _ _ ih =>
    rw [exitCode?_next] at stays
    rw [List.map_cons, ih stays]

/-- Only the last line that is answered can leave. -/
theorem Exchanges.stays (session : Exchanges depth options scope world lines exchanges) :
    ∀ exchange ∈ exchanges.dropLast, exchange.answer.code? = none := by
  induction session with
  | done => nofun
  | last _ => nofun
  | @next _ _ _ _ _ others _ _ ih =>
    cases others with
    | nil => nofun
    | cons next rest => simpa [Answer.code?] using ih

end Session

namespace Conversation

open Session

variable {depth : Nat} {options : Options} {lines : List String}

/-! ### History -/

/-- What a history takes up behind its last entry has no immediate repetition, of that entry
either. -/
theorem foldl_remember (history lines : List String) (line : String) :
    lines.foldl remember (history ++ [line]) = history ++ lines.destutter' (· ≠ ·) line := by
  induction lines generalizing history line with
  | nil => rfl
  | cons next rest ih =>
    rw [List.foldl_cons]
    by_cases same : line = next
    · subst same
      have dropped : remember (history ++ [line]) line = history ++ [line] := by simp [remember]
      rw [dropped, ih, List.destutter'_cons_neg _ (by simp)]
    · have kept : remember (history ++ [line]) next = (history ++ [line]) ++ [next] := by
        simp [remember, same]
      rw [kept, ih, List.destutter'_cons_pos _ same, List.append_assoc, List.singleton_append]

theorem foldl_remember_nil (lines : List String) :
    lines.foldl remember [] = lines.destutter (· ≠ ·) := by
  cases lines with
  | nil => rfl
  | cons line rest => exact foldl_remember [] rest line

/-! ### One line and many -/

/-- The rows of a line and of its answer. -/
def rowsOf (exchange : Exchange) : List String :=
  row (prompt ++ exchange.line) ::
    match exchange.answer with
    | .shown things => things.map fun thing => row thing.text
    | .exit _ => []

/-- The conversation as some exchanges leave it. -/
def afterwards (conversation : Conversation) (exchanges : List Exchange) : Conversation where
  world := lastWorld conversation.world exchanges
  screen := conversation.screen ++ exchanges.flatMap rowsOf ++
    if exitCode? exchanges = none then [row prompt] else []
  history := (exchanges.map Exchange.line).foldl remember conversation.history

/-- The conversation with one more exchange that does not end it. -/
def withExchange (conversation : Conversation) (exchange : Exchange) : Conversation where
  world := exchange.after
  screen := conversation.screen ++ rowsOf exchange
  history := remember conversation.history exchange.line

theorem enter_eq_some {conversation last : Conversation} {line : String} {left : Option Int32} :
    conversation.enter depth options line = some (last, left) ↔
      ∃ answer after, (answerLine depth options globalScope line).EndsWith conversation.world
          (.ok answer) after ∧
        last = conversation.withExchange ⟨line, answer, after⟩ ∧ left = answer.code? := by
  cases done : answerLine depth options globalScope line conversation.world with
  | none => simp [enter, done, Run.EndsWith]
  | some report =>
    obtain ⟨result, after, trace⟩ := report
    cases result with
    | error fault =>
      obtain ⟨_, _, impossible⟩ := answerLine_ends_iff.mp ⟨trace, done⟩
      cases impossible
    | ok answer =>
      have entered : conversation.enter depth options line =
          some (conversation.withExchange ⟨line, answer, after⟩, answer.code?) := by
        cases answer <;> simp [enter, done, withExchange, rowsOf, Answer.code?]
      simp only [entered, Run.endsWith_of_some done, Option.some.injEq, Prod.mk.injEq]
      constructor
      · rintro ⟨rfl, rfl⟩
        exact ⟨answer, after, ⟨rfl, rfl⟩, rfl, rfl⟩
      · rintro ⟨_, _, ⟨⟨⟩, rfl⟩, rfl, rfl⟩
        exact ⟨rfl, rfl⟩

theorem afterwards_exit (conversation : Conversation) (line : String) (code : Int32)
    (after : World) :
    conversation.afterwards [⟨line, .exit code, after⟩] =
      conversation.withExchange ⟨line, .exit code, after⟩ := by
  simp [afterwards, withExchange, lastWorld, exitCode?, Answer.code?]

theorem afterwards_next (conversation : Conversation) (line : String) (things : List Shown)
    (between : World) (others : List Exchange) :
    conversation.afterwards (⟨line, .shown things, between⟩ :: others) =
      (conversation.withExchange ⟨line, .shown things, between⟩).afterwards others := by
  simp [afterwards, withExchange, exitCode?_next, lastWorld_cons]

/-- Lines that are entered leave what their exchanges leave. -/
theorem hold_eq_some {conversation last : Conversation} {code : Int32} :
    hold depth options lines conversation = some (last, code) ↔
      ∃ exchanges, Exchanges depth options globalScope conversation.world lines exchanges ∧
        last = conversation.afterwards exchanges ∧ code = (exitCode? exchanges).getD 0 := by
  induction lines generalizing conversation last code with
  | nil =>
    simp only [hold, Option.some.injEq, Prod.mk.injEq]
    constructor
    · rintro ⟨rfl, rfl⟩
      exact ⟨[], .done, by simp [afterwards, lastWorld, exitCode?], rfl⟩
    · rintro ⟨_, ⟨⟩, rfl, rfl⟩
      exact ⟨by simp [afterwards, lastWorld, exitCode?], rfl⟩
  | cons line rest ih =>
    constructor
    · intro held
      unfold hold at held
      split at held
      next => cases held
      next after left entered =>
        -- The line leaves.
        cases held
        obtain ⟨answer, world, answered, rfl, leaves⟩ := enter_eq_some.mp entered
        cases answer with
        | shown things => cases leaves
        | exit code =>
          cases leaves
          exact ⟨_, .last answered, (afterwards_exit ..).symm, rfl⟩
      next after entered =>
        obtain ⟨answer, world, answered, rfl, stays⟩ := enter_eq_some.mp entered
        cases answer with
        | exit code => cases stays
        | shown things =>
          obtain ⟨others, later, rfl, rfl⟩ := ih.mp held
          refine ⟨_, .next answered later, (afterwards_next ..).symm, ?_⟩
          rw [exitCode?_next]
    · rintro ⟨_, session, rfl, rfl⟩
      cases session with
      | last answered =>
        have entered := enter_eq_some.mpr ⟨_, _, answered, rfl, rfl⟩
        rw [afterwards_exit, hold, entered]
        rfl
      | next answered later =>
        have entered := enter_eq_some.mpr ⟨_, _, answered, rfl, rfl⟩
        rw [afterwards_next, exitCode?_next, hold, entered]
        exact ih.mpr ⟨_, later, rfl, rfl⟩

end Conversation

open Session Conversation

/-- A conversation from the start comes to its end exactly if the lines up to the first one that
leaves have answers, each in the world that the line before has left. It ends with the code of the
line that leaves, or with zero. The screen has the rows of these lines and of what was shown for
them, in their order, and a last prompt exactly if no line left. The history has the lines without
immediate repetitions, blank ones and the one that left included, so no two neighbours in it are
equal. The lines that were answered are the first ones, all of them if none left; and of those that
were answered only the last may leave. -/
theorem conversation_folds_answers (depth : Nat) (options : Options) (lines : List String) :
    (∀ conversation code,
      hold depth options lines .start = some (conversation, code) ↔
        ∃ exchanges, Exchanges depth options globalScope World.fresh lines exchanges ∧
          code = (exitCode? exchanges).getD 0 ∧
          conversation.world = lastWorld World.fresh exchanges ∧
          conversation.screen = exchanges.flatMap rowsOf ++
            (if exitCode? exchanges = none then [row prompt] else []) ∧
          conversation.history = (exchanges.map Exchange.line).destutter (· ≠ ·) ∧
          conversation.history.IsChain (· ≠ ·)) ∧
    ∀ exchanges, Exchanges depth options globalScope World.fresh lines exchanges →
      exchanges.map Exchange.line <+: lines ∧
      (exitCode? exchanges = none → exchanges.map Exchange.line = lines) ∧
      ∀ exchange ∈ exchanges.dropLast, exchange.answer.code? = none := by
  refine ⟨fun conversation code => ?_, fun exchanges session => ?_⟩
  · rw [hold_eq_some]
    refine exists_congr fun exchanges => and_congr_right fun _ => ?_
    have left : start.afterwards exchanges = ⟨lastWorld World.fresh exchanges,
        exchanges.flatMap rowsOf ++ (if exitCode? exchanges = none then [row prompt] else []),
        (exchanges.map Exchange.line).destutter (· ≠ ·)⟩ := by
      simp only [afterwards, start, List.nil_append, foldl_remember_nil]
    obtain ⟨world, screen, history⟩ := conversation
    rw [left]
    constructor
    · rintro ⟨⟨⟩, code⟩
      exact ⟨code, rfl, rfl, rfl, List.isChain_destutter _ _⟩
    · rintro ⟨code, rfl, rfl, rfl, _⟩
      exact ⟨rfl, code⟩
  · exact ⟨session.isPrefix, session.lines_eq, session.stays⟩

/-- A line that is entered twice, a blank line and a line that leaves, with one more line behind
it that is not answered. -/
theorem conversation_folds_answers_quit :
    let lines := ["()", "()", "  ", "(quit 3)", "4"]
    let exchanges : List Exchange := [⟨"()", .shown [.value "()"], World.fresh⟩,
      ⟨"()", .shown [.value "()"], World.fresh⟩, ⟨"  ", .shown [], World.fresh⟩,
      ⟨"(quit 3)", .exit 3, World.fresh⟩]
    Exchanges 2 (Options.quiet {}) globalScope World.fresh lines exchanges ∧
      hold 2 (Options.quiet {}) lines .start = some (⟨World.fresh,
        ["lispy> ()", "()", "lispy> ()", "()", "lispy>", "lispy> (quit 3)"],
        ["()", "  ", "(quit 3)"]⟩, 3) ∧
      exchanges.map Exchange.line <+: lines := by
  intro lines exchanges
  have readEmpty : Form.read "()" = .ok (.list [], 0) := rfl
  have readLeave : Form.read "(quit 3)" = .ok (.list [.symbol "quit", .integer 3], 0) := rfl
  have isBlank : Text.isBlankText "  " = true := rfl
  have value : (evaluateLine 2 globalScope "()").EndsWith World.fresh (.ok (.list []))
      World.fresh := evaluateLine_literal readEmpty ⟨nofun, nofun⟩ _
  have session : Exchanges 2 (Options.quiet {}) globalScope World.fresh lines exchanges :=
    .next (answerLine_of_ends value) (.next (answerLine_of_ends value)
      (.next (answerLine_of_ends (evaluateLine_of_isBlankText isBlank _))
        (.last (answerLine_of_ends (evaluateLine_quit readLeave)))))
  obtain ⟨held, answered⟩ := conversation_folds_answers 2 (Options.quiet {}) lines
  refine ⟨session, (held _ _).mpr ⟨exchanges, session, rfl, rfl, rfl, rfl, ?_⟩,
    (answered _ session).1⟩
  decide

end MiniLisp
