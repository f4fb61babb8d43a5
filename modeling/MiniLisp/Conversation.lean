import MiniLisp.Session

/-!
# Conversations

A conversation is a session held at a prompt. Every line that is entered leaves a row with the
prompt and the line on the screen, and an entry in the history unless it is equal to the entry
just before; each thing that is shown for it takes another row. The conversation ends when a line
leaves the session, with the code that it leaves with and nothing more on the screen, or when
there are no more lines, with the code zero and one last prompt.
-/
namespace MiniLisp

def prompt : String := "lispy> "

structure Conversation where
  world : World
  screen : List String
  history : List String

namespace Conversation

def start : Conversation := ⟨World.fresh, [], []⟩

/-- The row as it is shown, without the spaces at its end. -/
def row (text : String) : String :=
  String.ofList (text.toList.reverse.dropWhile (· = ' ')).reverse

/-- The history with one more line, which is dropped if it repeats the last entry. -/
def remember (history : List String) (line : String) : List String :=
  if history.getLast? = some line then history else history ++ [line]

/-- Enters one line: the conversation after it, and the code if the line ends it. -/
def enter (conversation : Conversation) (depth : Nat) (options : Options) (line : String) :
    Option (Conversation × Option Int32) :=
  let screen := conversation.screen ++ [row (prompt ++ line)]
  let history := remember conversation.history line
  match Session.answerLine depth options Session.globalScope line conversation.world with
  | none => none
  | some ⟨.ok (.exit code), world, _⟩ => some (⟨world, screen, history⟩, some code)
  | some ⟨.ok (.shown things), world, _⟩ =>
    some (⟨world, screen ++ things.map fun thing => row thing.text, history⟩, none)
  -- An answer to a line has taken up every fault, so this one is not met.
  | some ⟨.error fault, world, _⟩ =>
    some (⟨world, screen ++ [row fault.message], history⟩, none)

/-- Enters lines until one of them ends the conversation or there are no more. -/
def hold (depth : Nat) (options : Options) :
    List String → Conversation → Option (Conversation × Int32)
  | [], conversation =>
    some ({ conversation with screen := conversation.screen ++ [row prompt] }, 0)
  | line :: rest, conversation =>
    match conversation.enter depth options line with
    | none => none
    | some (after, some code) => some (after, code)
    | some (after, none) => hold depth options rest after

/-- The rows of a screen up to the last one that is not empty. -/
def visibleRows (screen : List String) : List String :=
  (screen.reverse.dropWhile (· = "")).reverse

end Conversation

end MiniLisp
