import ActionChain.Check
import ActionChain.CommandLine.Invocation
import ActionChain.Json.Printer

/-!
The commands: each writes a report and may end with a fault.
-/
namespace ActionChain

/-- What a command wrote, and the fault it ended with. -/
structure Report where
  text : String
  fault : Option Fault

namespace Report

def line (text : String) : Report := ⟨text ++ "\n", none⟩

def valueFunctions : List String := [Argument.getDataValue, Argument.prefill]

def listed (title : String) (names : List String) : String :=
  "[" ++ title ++ "]\n" ++ String.join (names.map fun n => "    " ++ n ++ "\n")

def actions (json : Bool) : Report :=
  let names := Catalogue.actions.names
  if json then
    let texts (ns : List String) := Json.array (ns.map .string)
    line (Json.object [("actions", texts names), ("values", texts valueFunctions)]).pretty
  else ⟨listed "actions" names ++ listed "values" valueFunctions, none⟩

def chainOrNone (calls : List Call) : String :=
  if calls.isEmpty then "(none)" else Call.chainText calls

def chains (e : Expression) : String :=
  "success: " ++ chainOrNone e.success ++ "\nreject:  " ++ chainOrNone e.reject

def parse (source : String) (json : Bool) : Report :=
  match Expression.parse source with
  | .error e => ⟨"", some (.malformed e)⟩
  | .ok e => line (if json then e.tree.pretty else chains e)

/-- A hint under the finding, further lines of it below the first. -/
def hintText (hint : String) : String :=
  "\n\tHINT: " ++ String.intercalate "\n\t      "
    ((Text.split '\n' hint.toList).map String.ofList)

def findingText (f : Finding) : String :=
  f.severity.text ++ " (" ++ f.id ++ "): " ++ f.message ++ (f.hint.map hintText).getD "" ++ "\n"

def summary (errors warnings : Nat) : String :=
  "Check identified " ++ toString (errors + warnings) ++ " issue(s) (" ++ toString errors ++
    " error(s), " ++ toString warnings ++ " warning(s)).\n"

/-- Errors always fail the check, warnings if they are to be denied. -/
def check (source : String) (denyWarnings : Bool) : Report :=
  let found := Catalogue.actions.check source
  if found.isEmpty then line "Check identified no issues."
  else
    let errors := found.countP (·.severity = .error)
    let warnings := found.length - errors
    let fails := 0 < errors || (0 < warnings && denyWarnings)
    ⟨String.join (found.map findingText) ++ summary errors warnings,
      if fails then some (.configuration (.findings errors warnings)) else none⟩

end Report

/-- Runs a command, if it is among those on offer. -/
def Invocation.run (inv : Invocation) (offered : List CommandName) : Report :=
  if offered.contains inv.command then
    match inv.command with
    | .actions => .actions inv.switched
    | .check => .check inv.expression inv.switched
    | .parse => .parse inv.expression inv.switched
  else ⟨"", some (.configuration (.unknownCommand inv.command.text))⟩

end ActionChain
