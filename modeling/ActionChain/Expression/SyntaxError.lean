import ActionChain.Text.Escape

/-!
What is reported of a text that is no expression: where it goes wrong, what could have stood there,
and what stands there.
-/
namespace ActionChain

/-- The place is given three ways: in bytes, and as a line and a column of characters, both from
one. What was expected is sorted and named once. -/
structure SyntaxError where
  offset : Nat
  line : Nat
  column : Nat
  expected : List String
  found : Option Char
  deriving DecidableEq, Repr

namespace SyntaxError

def takeBytes : Nat → List Char → List Char
  | _, [] => []
  | n, c :: cs => if c.utf8Size ≤ n then c :: takeBytes (n - c.utf8Size) cs else []

def byteCount (cs : List Char) : Nat := cs.foldl (fun n c => n + c.utf8Size) 0

def insertSorted (s : String) : List String → List String
  | [] => [s]
  | t :: rest => if s < t then s :: t :: rest else if s = t then t :: rest else t :: insertSorted s rest

def sorted (texts : List String) : List String := texts.foldl (fun acc s => insertSorted s acc) []

/-- The error at `offset` bytes, or at the end of the source when that is shorter. -/
def make (source : List Char) (offset : Nat) (expected : List String) (found : Option Char) :
    SyntaxError :=
  let before := takeBytes offset source
  { offset := min offset (byteCount source)
    line := before.count '\n' + 1
    column := (before.reverse.takeWhile (· != '\n')).length + 1
    expected := sorted expected
    found }

def endOfInput : String := "end of input"

def alternatives : List String → String
  | [] => endOfInput
  | [a] => a
  | [a, b] => a ++ " or " ++ b
  | texts => String.intercalate ", " texts.dropLast ++ ", or " ++ texts.getLastD ""

def foundText (e : SyntaxError) : String :=
  match e.found with
  | some c => String.ofList ('"' :: Text.escapeAscii c ++ ['"'])
  | none => endOfInput

def message (e : SyntaxError) : String :=
  "Expected " ++ alternatives e.expected ++ " but " ++ e.foundText ++ " found."

end SyntaxError

end ActionChain
