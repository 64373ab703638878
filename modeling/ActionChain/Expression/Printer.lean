import ActionChain.Expression.Basic
import ActionChain.Number.Style

/-!
The written form of expressions: single quotes, one blank after a comma and a colon, parentheses
after every name, and every path spelled out as the call it stands for.
-/
namespace ActionChain

namespace Argument

def escape (c : Char) : List Char :=
  match c with
  | '\\' => ['\\', '\\']
  | '\'' => ['\\', '\'']
  | '\n' => ['\\', 'n']
  | '\r' => ['\\', 'r']
  | '\t' => ['\\', 't']
  | '\x08' => ['\\', 'b']
  | '\x0c' => ['\\', 'f']
  | c => if c < ' ' then '\\' :: 'u' :: Text.hex4 c.toNat else [c]

def writeString (s : String) : List Char := '\'' :: s.toList.flatMap escape ++ ['\'']

mutual

def write : Argument → List Char
  | .null => "null".toList
  | .bool b => (if b then "true" else "false").toList
  | .number x => NumberStyle.plain.write x
  | .string s => writeString s
  | .array items => '[' :: Text.join [',', ' '] (writeItems items) ++ [']']
  | .object ms => '\x7b' :: Text.join [',', ' '] (writeMembers ms) ++ ['\x7d']
  | .call name args => name.toList ++ '(' :: Text.join [',', ' '] (writeItems args) ++ [')']

def writeItems : List Argument → List (List Char)
  | [] => []
  | a :: rest => write a :: writeItems rest

def writeMembers : List (String × Argument) → List (List Char)
  | [] => []
  | (k, a) :: rest => (writeString k ++ ':' :: ' ' :: write a) :: writeMembers rest

end

def text (a : Argument) : String := String.ofList a.write

end Argument

namespace Call

def write (c : Call) : List Char := (Argument.call c.name c.args).write
def text (c : Call) : String := String.ofList c.write

def arrow : List Char := [' ', '-', '>', ' ']

def writeChain (calls : List Call) : List Char := Text.join arrow (calls.map write)

/-- The text of a chain that is shown by itself. -/
def chainText (calls : List Call) : String := String.intercalate " -> " (calls.map text)

end Call

namespace Expression

/-- Two chains, the second left out when it is empty. -/
def write (e : Expression) : List Char :=
  Call.writeChain e.success ++
    if e.reject.isEmpty then [] else [' ', '!', '~', ' '] ++ Call.writeChain e.reject

def text (e : Expression) : String := String.ofList e.write

end Expression

end ActionChain
