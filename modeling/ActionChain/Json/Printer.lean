import ActionChain.Json.Basic
import ActionChain.Number.Style

/-!
Texts of JSON values: without blanks, or indented by two blanks a level. Strings escape the quote,
the backslash and control characters.
-/
namespace ActionChain.Json

def escape (c : Char) : List Char :=
  match c with
  | '"' => ['\\', '"']
  | '\\' => ['\\', '\\']
  | '\x08' => ['\\', 'b']
  | '\x0c' => ['\\', 'f']
  | '\n' => ['\\', 'n']
  | '\r' => ['\\', 'r']
  | '\t' => ['\\', 't']
  | c => if c < ' ' then '\\' :: 'u' :: Text.hex4 c.toNat else [c]

def writeString (s : String) : List Char := '"' :: s.toList.flatMap escape ++ ['"']

mutual

def write : Json → List Char
  | .null => ['n', 'u', 'l', 'l']
  | .bool b => (if b then "true" else "false").toList
  | .int n => (toString n).toList
  | .float x => NumberStyle.json.write x
  | .string s => writeString s
  | .array items => '[' :: Text.join [','] (writeItems items) ++ [']']
  | .object ms => '\x7b' :: Text.join [','] (writeMembers ms) ++ ['\x7d']

def writeItems : List Json → List (List Char)
  | [] => []
  | v :: rest => write v :: writeItems rest

def writeMembers : List (String × Json) → List (List Char)
  | [] => []
  | (k, v) :: rest => (writeString k ++ ':' :: write v) :: writeMembers rest

end

def newline (level : Nat) : List Char := '\n' :: List.replicate (2 * level) ' '

/-- Brackets around pieces that stand on lines of their own. -/
def block (level : Nat) (opening closing : Char) (pieces : List (List Char)) : List Char :=
  if pieces.isEmpty then [opening, closing]
  else opening :: newline (level + 1) ++ Text.join (',' :: newline (level + 1)) pieces ++
    newline level ++ [closing]

mutual

def indent (level : Nat) : Json → List Char
  | .array items => block level '[' ']' (indentItems (level + 1) items)
  | .object ms => block level '\x7b' '\x7d' (indentMembers (level + 1) ms)
  | v => write v

def indentItems (level : Nat) : List Json → List (List Char)
  | [] => []
  | v :: rest => indent level v :: indentItems level rest

def indentMembers (level : Nat) : List (String × Json) → List (List Char)
  | [] => []
  | (k, v) :: rest => (writeString k ++ ':' :: ' ' :: indent level v) :: indentMembers level rest

end

def compact (v : Json) : String := String.ofList v.write
def pretty (v : Json) : String := String.ofList (v.indent 0)

end ActionChain.Json
