/-!
# Options

The flags of the command line. Flags are looked at in order, later ones cannot undo earlier ones,
and the first word that is no flag is refused. A request for help counts only where every word is
a flag.
-/
namespace MiniLisp

structure Options where
  -- Show the tree that was read before its value.
  echo : Bool := true
  -- Keep the history of a conversation.
  history : Bool := true
  -- Only show how the program is used.
  help : Bool := false
  deriving DecidableEq

/-- A word of the command line that is no flag. -/
structure UsageFault where
  word : String
  deriving DecidableEq

namespace Options

def usage : String := "usage: lispy [-q|--quiet] [--no-history] [-h|--help]"

def withFlag (options : Options) (word : String) : Except UsageFault Options :=
  if word = "-q" ∨ word = "--quiet" then .ok { options with echo := false }
  else if word = "--no-history" then .ok { options with history := false }
  else if word = "-h" ∨ word = "--help" then .ok { options with help := true }
  else .error ⟨word⟩

/-- The options that the flags choose, starting from the given ones. -/
def withFlags (options : Options) : List String → Except UsageFault Options
  | [] => .ok options
  | word :: rest =>
    match options.withFlag word with
    | .ok chosen => chosen.withFlags rest
    | .error fault => .error fault

/-- The options that the arguments of the program choose. -/
def ofArguments (arguments : List String) : Except UsageFault Options :=
  withFlags {} arguments

/-- The options that a command line chooses, which begins with the name of the program. -/
def ofCommandLine (words : List String) : Except UsageFault Options :=
  ofArguments words.tail

/-- The text shown instead of a conversation, if help was asked for. -/
def helpText? (options : Options) : Option String :=
  if options.help then some (usage ++ "\n") else none

end Options

namespace UsageFault

def message (fault : UsageFault) : String :=
  "unrecognised argument " ++ fault.word ++ "\n" ++ Options.usage

end UsageFault

end MiniLisp
