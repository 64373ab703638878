import ActionChain.Binding
import ActionChain.Text.Blank

/-!
The actions every button knows, and the arguments they take.

| action | arguments |
|---|---|
| `addClass`, `removeClass`, `toggleClass` | a class name |
| `submit` | none, or extra data |
| `proceed` | none, or a URL |
| `emit` | an event name, and a detail or none |
| `activate` | any |
| `delay` | milliseconds |
| `okay`, `bummer` | none, or milliseconds |
| the others | none |
-/
namespace ActionChain

abbrev Micros := Nat

-- Powers are those of core, whatever others are in scope; so literal exponents show their type.
attribute [local instance (high)] instPowNat

inductive Action
  | disable
  | enable
  | addClass (name : String)
  | removeClass (name : String)
  | toggleClass (name : String)
  | submit (data : Option Bound)
  | reset
  | clearErrors
  | proceed (fallback : Option String)
  | reload
  | emit (event : String) (detail : Option Bound)
  | activate (args : List Bound)
  | delay (pause : Micros)
  | spinner
  | okay (pause : Option Micros)
  | bummer (pause : Option Micros)
  | intercept
  | noop
  deriving Repr, Inhabited

namespace Action

def names : List String :=
  ["disable", "enable", "addClass", "removeClass", "toggleClass", "submit", "reset", "clearErrors",
    "proceed", "reload", "emit", "activate", "delay", "spinner", "okay", "bummer", "intercept",
    "noop"]

def longest : Micros := 2 ^ (64 : Nat) - 1

/-- A number of milliseconds in whole microseconds, a half going up. -/
def micros (ms : Binary64) : Micros :=
  let x := ms.mul (.ofNat 1000)
  if x.isFinite then min x.roundHalfUp longest else longest

section Arguments

variable (action : String)

def refuse {α : Type} (why : ArgumentFault) : Except Fault α := .error (.badArguments action why)

def noArguments (args : List Bound) (a : Action) : Except Fault Action :=
  if args.isEmpty then .ok a else refuse action (.count .none args.length)

def optional (args : List Bound) : Except Fault (Option Bound) :=
  match args with
  | [] => .ok none
  | [b] => .ok (some b)
  | _ => refuse action (.count .atMostOne args.length)

def isClassName (s : String) : Bool := !s.isEmpty && !s.toList.any Text.isBlank

def className (args : List Bound) : Except Fault String :=
  match args with
  | [b] => match b.string? with
    | some s => if isClassName s then .ok s else refuse action .className
    | none => refuse action .className
  | _ => refuse action (.count .one args.length)

def duration (b : Bound) : Except Fault Micros :=
  match b.number? with
  | some ms =>
    if ms.isFinite && ms.nonnegative then .ok (micros ms) else refuse action .milliseconds
  | none => refuse action .milliseconds

def optionalDuration (args : List Bound) : Except Fault (Option Micros) := do
  match ← optional action args with
  | some b => return some (← duration action b)
  | none => return none

def fallbackUrl (args : List Bound) : Except Fault (Option String) := do
  match ← optional action args with
  | some b => match b.string? with
    | some url => return some url
    | none => refuse action .url
  | none => return none

def eventName (b : Bound) : Except Fault String :=
  match b.string? with
  | some s => if s.isEmpty then refuse action .eventName else .ok s
  | none => refuse action .eventName

end Arguments

def ofCall (name : String) (args : List Bound) : Except Fault Action :=
  match name with
  | "disable" => noArguments name args .disable
  | "enable" => noArguments name args .enable
  | "addClass" => .addClass <$> className name args
  | "removeClass" => .removeClass <$> className name args
  | "toggleClass" => .toggleClass <$> className name args
  | "submit" => .submit <$> optional name args
  | "reset" => noArguments name args .reset
  | "clearErrors" => noArguments name args .clearErrors
  | "proceed" => .proceed <$> fallbackUrl name args
  | "reload" => noArguments name args .reload
  | "emit" => match args with
    | [event] => (.emit · none) <$> eventName name event
    | [event, detail] => (.emit · (some detail)) <$> eventName name event
    | _ => refuse name (.count .oneOrTwo args.length)
  | "activate" => .ok (.activate args)
  | "delay" => match args with
    | [ms] => .delay <$> duration name ms
    | _ => refuse name (.count .one args.length)
  | "spinner" => noArguments name args .spinner
  | "okay" => .okay <$> optionalDuration name args
  | "bummer" => .bummer <$> optionalDuration name args
  | "intercept" => noArguments name args .intercept
  | "noop" => noArguments name args .noop
  | _ => .error (.unknownAction name)

end Action

end ActionChain
