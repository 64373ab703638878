import ActionChain.Text.Basic

/-!
Readers of parts of a text: each takes characters from the front, or fails. An alternative is tried
where the failed one started.
-/
namespace ActionChain.Toml

abbrev Reader (α : Type) := StateT (List Char) Option α

namespace Reader

variable {α : Type}

def peek : Reader (Option Char) := fun cs => some (cs.head?, cs)

def one (test : Char → Bool) : Reader Char
  | c :: cs => if test c then some (c, cs) else none
  | [] => none

def charsWhile (test : Char → Bool) : Reader (List Char) :=
  fun cs => some (cs.takeWhile test, cs.dropWhile test)

def exact (text : String) : Reader Unit := fun cs =>
  let t := text.toList
  if t.isPrefixOf cs then some ((), cs.drop t.length) else none

def atEnd : Reader Unit := fun cs => if cs.isEmpty then some ((), cs) else none

def upTo (r : Reader α) : Nat → Reader (List α)
  | 0 => pure []
  | n + 1 => fun cs => match r cs with
    | some (a, rest) => (upTo r n rest).map fun (more, rest) => (a :: more, rest)
    | none => some ([], cs)

/-- Repeats a reader that always takes something, while it succeeds. -/
def many (r : Reader α) : Reader (List α) := fun cs => upTo r cs.length cs

def separated (r : Reader α) : Reader (List α) :=
  (do
    let a ← r
    let more ← many (do exact ","; r)
    return a :: more) <|> pure []

end Reader

end ActionChain.Toml
