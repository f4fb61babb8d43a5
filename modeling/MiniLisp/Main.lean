import MiniLisp.Conversation

/-!
# The program

Holds a conversation on the standard streams. All that is decided here is which stream a text goes
to; what a line does is decided by `MiniLisp.Conversation`.
-/
namespace MiniLisp

def greeting : String := "Welcome to lispy version 0.1.0"

/-- The code with which the program gives up on an evaluation that is nested too deeply. -/
def gaveUp : UInt32 := 134

/-- The line without the characters that end it. -/
def withoutLineEnd (line : String) : String :=
  String.ofList (line.toList.reverse.dropWhile fun c => c = '\n' || c = '\r').reverse

/-- Prompts for lines and shows what becomes of them, until the conversation is over. -/
partial def converse (options : Options) (input output : IO.FS.Stream)
    (conversation : Conversation) : IO UInt32 := do
  output.putStr prompt
  output.flush
  let line ← input.getLine
  if line.isEmpty then
    output.putStrLn ""
    return 0
  let unseen : Conversation :=
    { conversation with screen := [], world := { conversation.world with output := "" } }
  match unseen.enter Session.depthLimit options (withoutLineEnd line) with
  | none =>
    IO.eprintln "evaluation was nested too deeply"
    return gaveUp
  | some (after, code?) =>
    output.putStr after.world.output
    for text in after.screen.tail do
      output.putStrLn text
    match code? with
    | some code => return code.toUInt32
    | none => converse options input output after

end MiniLisp

/-- Reads the flags and holds a conversation, unless they ask for something else. -/
def main (arguments : List String) : IO UInt32 := do
  match MiniLisp.Options.ofArguments arguments with
  | .error fault =>
    IO.eprintln fault.message
    return 2
  | .ok options =>
    match options.helpText? with
    | some text =>
      IO.print text
      return 0
    | none =>
      IO.println MiniLisp.greeting
      MiniLisp.converse options (← IO.getStdin) (← IO.getStdout) MiniLisp.Conversation.start
