import ActionChain.Expression.Basic
import ActionChain.Expression.Lexeme

/-!
The parser of expressions. White space may stand around every token, but not around the dots of a
path. `true`, `false` and `null` are ordinary names in front of a parenthesis or a dot. Arguments
nest at most 128 levels deep, and the parser recurses on the levels that are left.
-/
namespace ActionChain

namespace Argument

/-- How deep the arrays, objects and calls of one argument may nest. -/
def depthLimit : Nat := 128

open Scanner

/-- A name of its own: a word with a meaning, or a path of one segment. -/
def ofName (name : String) : Argument :=
  if name = "true" then .bool true
  else if name = "false" then .bool false
  else if name = "null" then .null
  else dataPath [name]

/-- Further segments of a path, each behind a dot. -/
def segments : Nat → Scanner (List String)
  | 0 => pure []
  | fuel + 1 => do
    if ← token "." then
      let s ← identifier
      return s :: (← segments fuel)
    else
      return []

def key : Scanner String := do
  match ← peek with
  | some '"' => stringIn '"'
  | some '\'' => stringIn '\''
  | _ =>
    missed [.string] 0
    identifier

section Levels

-- The scanner of arguments one level deeper; there is none at the last level.
variable (deeper : Option (Scanner Argument))

/-- Scans what is nested with the scanner for the arguments in it. -/
def nested {α : Type} (scan : Scanner Argument → Scanner α) : Scanner α :=
  match deeper with
  | some item => scan item
  | none => tooDeep depthLimit

def member (item : Scanner Argument) : Scanner (String × Argument) := do
  let k ← key
  space
  required ":"
  space
  return (k, ← item)

def named : Scanner Argument := do
  let name ← identifier
  if ← spacedToken "(" then
    return .call name (← nested deeper fun item => itemsUntil item ")")
  else
    let more ← segments ((← here).rest.length + 1)
    return if more.isEmpty then ofName name else dataPath (name :: more)

/-- An argument whose first character is known. -/
def startingWith : Option Char → Scanner Argument
  | some '\x7b' => nested deeper fun item => do
    advance 1
    return .object (Members.ofList (← itemsUntil (member item) "\x7d"))
  | some '[' => nested deeper fun item => do
    advance 1
    return .array (← itemsUntil item "]")
  | some '"' => return .string (← stringIn '"')
  | some '\'' => return .string (← stringIn '\'')
  | some c =>
    if c = '-' ∨ c.isDigit then return .number (← Scanner.number)
    else if isLetter c then named deeper
    else expecting [.number, .string, .token "[", .token "\x7b", .identifier]
  | none => expecting [.number, .string, .token "[", .token "\x7b", .identifier]

def level : Scanner Argument := do startingWith deeper (← peek)

end Levels

/-- An argument with so many levels below it at most. -/
def scanner : Nat → Scanner Argument
  | 0 => level none
  | depth + 1 => level (some (scanner depth))

end Argument

namespace Call

open Scanner

def scanner : Scanner Call := do
  let name ← identifier
  if ← spacedToken "(" then
    return ⟨name, ← itemsUntil (Argument.scanner Argument.depthLimit) ")"⟩
  else
    return ⟨name, []⟩

def chain : Scanner (List Call) := separated scanner "->"

end Call

namespace Expression

open Scanner

/-- The chain behind `!~`, if there is one. -/
def rejectChain : Scanner (List Call) := do
  if ← spacedToken "!~" then
    space
    Call.chain
  else
    return []

def atEnd : Scanner Unit := do
  match ← peek with
  | none => return ()
  | some _ => expecting [.endOfInput]

def scanner : Scanner Expression := do
  space
  let success ← Call.chain
  let reject ← rejectChain
  space
  atEnd
  return ⟨success, reject⟩

/-- The expression a text holds, or what is wrong with it. -/
def parse (text : String) : Except SyntaxError Expression := scanner.run text.toList

end Expression

end ActionChain
