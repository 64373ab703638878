import ActionChain.Expression.Printer
import ActionChain.Expression.SyntaxError
import ActionChain.Settings.DecodeFault

/-!
What can go wrong outside a running chain: while a button is set up, while settings are loaded, and
in the form it talks to. Faults are causes; `Fault.message` words them.
-/
namespace ActionChain

inductive Arity
  | none
  | one
  | exactlyOne
  | atMostOne
  | oneOrTwo
  deriving DecidableEq, Repr

def Arity.text : Arity → String
  | .none => "no arguments"
  | .one => "1 argument"
  | .exactlyOne => "exactly 1 argument"
  | .atMostOne => "at most 1 argument"
  | .oneOrTwo => "1 or 2 arguments"

inductive ArgumentFault
  | count (wanted : Arity) (given : Nat)
  | className
  | eventName
  | url
  | milliseconds
  | label
  | path (given : Argument)
  | notJson (given : Argument)
  | stated (reason : String)
  deriving Repr

def ArgumentFault.message : ArgumentFault → String
  | .count wanted given => "expected " ++ wanted.text ++ ", got " ++ toString given
  | .className => "expected a single class name"
  | .eventName => "expected an event name"
  | .url => "expected a URL string"
  | .milliseconds => "expected a non-negative number of milliseconds"
  | .label => "expected a label"
  | .path given => "expected a path string or an array of strings, got " ++ given.text
  | .notJson given => given.text ++ " is not representable as JSON"
  | .stated reason => reason

inductive Format
  | json
  | toml
  deriving DecidableEq, Repr

def Format.text : Format → String
  | .json => "JSON"
  | .toml => "TOML"

inductive ConfigFault
  | invalid (format : Format)
  | unusable (format : Format) (why : DecodeFault)
  | unreadable (format : Format) (path reason : String)
  | unsupported (path : String)
  | policy (given : String)
  | environment (name : String) (why : ConfigFault)
  | findings (errors warnings : Nat)
  | unknownCommand (name : String)
  | stated (reason : String)
  deriving Repr

def ConfigFault.message : ConfigFault → String
  | .invalid format => "Invalid " ++ format.text ++ " settings"
  | .unusable format why => "Unusable " ++ format.text ++ " settings: " ++ why.message
  | .unreadable format path reason =>
    "Failed to read " ++ format.text ++ " file '" ++ path ++ "': " ++ reason
  | .unsupported path =>
    "Unsupported settings file: " ++ path ++ " (expected .toml or .json)"
  | .policy given => "unknown reentrancy policy '" ++ given ++ "'"
  | .environment name why => name ++ ": " ++ why.message
  | .findings errors warnings =>
    "Check found " ++ toString errors ++ " error(s) and " ++ toString warnings ++ " warning(s)"
  | .unknownCommand name => "Unknown command: " ++ name
  | .stated reason => reason

inductive Fault
  | malformed (e : SyntaxError)
  | unknownAction (name : String)
  | badArguments (action : String) (why : ArgumentFault)
  | construction (element : String) (cause : Fault)
  | submission (reason : String)
  | aborted
  | configuration (why : ConfigFault)
  | serialization (reason : String)
  | io (reason : String)
  deriving Repr

namespace Fault

def message : Fault → String
  | .malformed e =>
    "Syntax error at line " ++ toString e.line ++ ", column " ++ toString e.column ++ ": " ++ e.message
  | .unknownAction name => "Unknown action: " ++ name
  | .badArguments action why => "Invalid arguments for " ++ action ++ "(): " ++ why.message
  | .construction element cause =>
    "Error in attribute 'click' of button '" ++ element ++ "': " ++ cause.message
  | .submission reason => "Submission failed: " ++ reason
  | .aborted => "Operation aborted"
  | .configuration why => "Configuration error: " ++ why.message
  | .serialization reason => "Serialization error: " ++ reason
  | .io reason => "IO error: " ++ reason

/-- Whether the fault lies in the setting up of a button. -/
def inSetup : Fault → Bool
  | .malformed _ | .unknownAction _ | .badArguments .. | .construction .. => true
  | _ => false

end Fault

end ActionChain
