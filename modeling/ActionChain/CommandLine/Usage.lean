import ActionChain.CommandLine.Invocation

/-!
What is said when nothing is run: the help, the version, or what is wrong with the arguments.
-/
namespace ActionChain

def programName : String := "formset"
def programVersion : String := "0.1.0"

def CommandName.usage (c : CommandName) : String :=
  "  " ++ c.text ++ (if c.takesExpression then " EXPRESSION" else "") ++ " [--" ++ c.switch ++
    "]  " ++ c.help ++ "\n"

def usage : String :=
  "Inspect and check button action expressions\n\nUsage: " ++ programName ++
    " [--settings FILE] COMMAND\n\n" ++ String.join (CommandName.all.map CommandName.usage)

namespace Refusal

/-- Whether it was asked for, and so is no failure. -/
def isWanted : Refusal → Bool
  | .help | .version => true
  | _ => false

def text : Refusal → String
  | .help | .nothingGiven => usage
  | .version => programName ++ " " ++ programVersion ++ "\n"
  | .missingCommand => "error: a command is required\n"
  | .unknownCommand => "error: there is no such command\n"
  | .unknownArgument => "error: there is no such argument\n"
  | .missingArgument => "error: an expression is required\n"
  | .repeated => "error: an option is given twice\n"
  | .needlessValue => "error: an option takes no value\n"
  | .missingValue => "error: --settings requires a file\n"

end Refusal

end ActionChain
