/-!
What a command line asks for. There are three commands; `--settings FILE` may stand before and after
the command, and the one after it counts.
-/
namespace ActionChain

inductive CommandName
  | actions
  | check
  | parse
  deriving DecidableEq, Repr

namespace CommandName

def text : CommandName → String
  | .actions => "actions"
  | .check => "check"
  | .parse => "parse"

def all : List CommandName := [.actions, .check, .parse]

def help : CommandName → String
  | .actions => "List the available actions and value functions"
  | .check => "Check an action expression for errors"
  | .parse => "Print the chains of an action expression"

def switch : CommandName → String
  | .actions | .parse => "json"
  | .check => "deny-warnings"

def takesExpression : CommandName → Bool
  | .actions => false
  | .check | .parse => true

def ofText? (s : String) : Option CommandName := all.find? (·.text = s)

end CommandName

structure Invocation where
  command : CommandName
  expression : String
  switched : Bool
  settings : Option String
  deriving DecidableEq, Repr

inductive Refusal
  | help
  | version
  | nothingGiven
  | missingCommand
  | unknownCommand
  | unknownArgument
  | missingArgument
  | repeated
  | needlessValue
  | missingValue
  deriving DecidableEq, Repr

inductive Word
  /-- Two dashes alone: what follows is taken as it is. -/
  | escape
  | long (name : String) (value : Option String)
  | short (first : Char)
  | plain
  deriving DecidableEq, Repr

def Word.ofText (s : String) : Word :=
  match s.toList with
  | ['-', '-'] => .escape
  | '-' :: '-' :: cs =>
    let value := match cs.dropWhile (· ≠ '=') with
      | _ :: v => some (String.ofList v)
      | [] => none
    .long (String.ofList (cs.takeWhile (· ≠ '='))) value
  | '-' :: c :: _ => .short c
  | _ => .plain

/-- What can stand at one place of the command line: before the command, or after it. -/
structure Level where
  command : Option CommandName

namespace Level

def root : Level := ⟨none⟩

def helpCommand : String := "help"

/-- The words that end a level, because a command follows. -/
def isCommand (l : Level) (s : String) : Bool :=
  l.command.isNone && (s = helpCommand || (CommandName.ofText? s).isSome)

def versioned (l : Level) : Bool := l.command.isNone
def switch (l : Level) : Option String := l.command.map CommandName.switch
def takesExpression (l : Level) : Bool := l.command.any CommandName.takesExpression

def stray (l : Level) (escaped : Bool) (s : String) : Refusal :=
  if l.command.isSome then .unknownArgument
  else if escaped && l.isCommand s then .unknownArgument
  else .unknownCommand

end Level

/-- A `--settings` that has been seen but not settled: with its value, or still without. -/
inductive Pending
  | none
  | awaiting
  | given (file : String)
  deriving DecidableEq, Repr

structure Given where
  settings : Option String := .none
  pending : Pending := .none
  expression : Option String := .none
  switched : Bool := false
  deriving Repr

namespace Given

/-- Settles a pending `--settings`: it needs a value, and may come once. -/
def settle (g : Given) : Except Refusal Given :=
  match g.pending with
  | .none => .ok g
  | .awaiting => .error .missingValue
  | .given file =>
    if g.settings.isSome then .error .repeated
    else .ok { g with settings := some file, pending := .none }

def isAwaiting (g : Given) : Bool := g.pending = .awaiting

def long (l : Level) (g : Given) (name : String) (value : Option String) :
    Except Refusal Given :=
  if name = "settings" then do
    let g ← g.settle
    match value with
    | some file =>
      if g.settings.isSome then .error .repeated else return { g with settings := some file }
    | none => return { g with pending := .awaiting }
  else
    let isHelp := name = "help"
    let isVersion := l.versioned && name = "version"
    let isSwitch := l.switch = some name
    if !(isHelp || isVersion || isSwitch) then .error .unknownArgument
    else if value.isSome then .error .needlessValue
    else do
      let g ← g.settle
      if isHelp then .error .help
      else if isVersion then .error .version
      else if g.switched then .error .repeated
      else return { g with switched := true }

def short (l : Level) (g : Given) (c : Char) : Except Refusal Given :=
  if c = 'h' then do
    let _ ← g.settle
    .error .help
  else if l.versioned && c = 'V' then do
    let _ ← g.settle
    .error .version
  else .error .unknownArgument

def plain (l : Level) (escaped : Bool) (g : Given) (s : String) : Except Refusal Given :=
  if g.isAwaiting && !escaped then .ok { g with pending := .given s }
  else if l.takesExpression && g.expression.isNone then do
    let g ← g.settle
    return { g with expression := some s }
  else .error (l.stray escaped s)

/-- Reads a level up to its end or up to a command, which is returned with what follows it. -/
def read (l : Level) (g : Given) (escaped : Bool) :
    List String → Except Refusal (Given × Option (String × List String))
  | [] => .ok (g, none)
  | s :: rest =>
    if escaped then do read l (← plain l true g s) true rest
    else if !g.isAwaiting && l.isCommand s then .ok (g, some (s, rest))
    else match Word.ofText s with
      | .escape => read l g true rest
      | .long name value => do read l (← long l g name value) false rest
      | .short c => do read l (← short l g c) false rest
      | .plain => do read l (← plain l false g s) false rest

end Given

namespace Invocation

/-- The arguments of the help command name a command, and nothing further. -/
def helpRefusal : List String → Refusal
  | [] => .help
  | [s] => if Level.root.isCommand s then .help else .unknownCommand
  | _ => .unknownCommand

def ofRest (command : CommandName) (args : List String) : Except Refusal Invocation := do
  let (g, _) ← Given.read ⟨some command⟩ {} false args
  let g ← g.settle
  if command.takesExpression && g.expression.isNone then .error .missingArgument
  else return ⟨command, g.expression.getD "", g.switched, g.settings⟩

/-- Reads a command line. What is wrong after the command is reported before a `--settings` in front
of it is settled. -/
def ofArgs (args : List String) : Except Refusal Invocation := do
  let (g, command) ← Given.read .root {} false args
  match command with
  | some (name, rest) => match CommandName.ofText? name with
    | some command => do
      let inv ← ofRest command rest
      let g ← g.settle
      return { inv with settings := inv.settings.or g.settings }
    | none => .error (helpRefusal rest)
  | none => do
    let g ← g.settle
    if g.settings.isSome then .error .missingCommand else .error .nothingGiven

end Invocation

end ActionChain
