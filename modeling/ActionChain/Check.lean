import ActionChain.Chain

/-!
Checks of an expression before it is put on a button. An expression that cannot be built has one
finding, an error; one that can be built may have warnings.
-/
namespace ActionChain

inductive Severity
  | warning
  | error
  deriving DecidableEq, Repr

def Severity.text : Severity → String
  | .warning => "WARNING"
  | .error => "ERROR"

structure Finding where
  severity : Severity
  id : String
  message : String
  hint : Option String
  deriving DecidableEq, Repr

namespace Finding

def firstLine (source : List Char) : List Char :=
  let line := source.takeWhile (· ≠ '\n')
  if line.length < source.length && line.getLast? = some '\r' then line.dropLast else line

def caret (source : List Char) (column : Nat) : String :=
  String.ofList (firstLine source ++ '\n' :: List.replicate (column - 1) ' ' ++ ['^'])

def errorId : Fault → String
  | .malformed _ => "syntax.E001"
  | .unknownAction _ => "names.E001"
  | .badArguments .. => "arguments.E001"
  | _ => "check.E001"

def errorHint (source : String) : Fault → Option String
  | .malformed e => if e.line = 1 then some (caret source.toList e.column) else none
  | .unknownAction _ => some "Run `formset actions` for the available names"
  | _ => none

def ofFault (source : String) (f : Fault) : Finding :=
  ⟨.error, errorId f, f.message, errorHint source f⟩

def unhandled : Finding where
  severity := .warning
  id := "chain.W001"
  message := "submit() without a reject chain"
  hint := some "Append `!~ ...` to handle a failed submission"

def aimless : Finding where
  severity := .warning
  id := "chain.W002"
  message := "proceed() has neither a response to follow nor a fallback URL"
  hint := some "Call submit() earlier or pass a URL to proceed()"

def repeatable : Finding where
  severity := .warning
  id := "chain.W003"
  message := "the button stays enabled while submitting"
  hint := some "Start the chain with disable() to prevent double submission"

end Finding

namespace Call

def isSubmit (c : Call) : Bool := c.name = "submit"

/-- A `proceed` that can only follow a response. -/
def needsResponse (c : Call) : Bool := c.name = "proceed" && c.args.isEmpty

/-- The calls that need a response and have no `submit` before them. -/
def aimless (calls : List Call) : List Call :=
  (calls.takeWhile fun c => !c.isSubmit).filter needsResponse

end Call

namespace Expression

/-- What is likely not meant in an expression that can be built. -/
def warnings (e : Expression) : List Finding :=
  let submits := e.success.any Call.isSubmit
  let startsEnabled := e.success.head?.any fun c => c.name ≠ "disable"
  (if submits && e.reject.isEmpty then [Finding.unhandled] else []) ++
    (Call.aimless e.success).map (fun _ => Finding.aimless) ++
    (if startsEnabled && submits then [Finding.repeatable] else [])

end Expression

def Catalogue.check {τ : Type} (c : Catalogue τ) (source : String) : List Finding :=
  match Expression.parse source with
  | .error e => [.ofFault source (.malformed e)]
  | .ok e => match c.build e with
    | .error f => [.ofFault source f]
    | .ok _ => e.warnings

end ActionChain
