import ActionChain.Expression.SyntaxError

/-!
Scanners. A scanner starts at a place of the source and either fails or hands on a value and the
place behind it. Beside its result it reports its misses: the furthest place at which something was
looked for in vain, and what. The misses never influence a result; they are only merged, so that the
furthest survive.
-/
namespace ActionChain

/-- A place in the source: how many characters lie before it, and those from it on. -/
structure Place where
  passed : Nat
  rest : List Char
  deriving DecidableEq, Repr

namespace Place

def start (source : List Char) : Place := ⟨0, source⟩

def advance (p : Place) (n : Nat) : Place := ⟨p.passed + n, p.rest.drop n⟩

/-- The place behind the characters that pass a test. -/
def skip (p : Place) (test : Char → Bool) : Place := p.advance (p.rest.takeWhile test).length

end Place

inductive Expectation
  | token (text : String)
  | identifier
  | number
  | string
  | digit
  | escapeSequence
  | hexDigit
  | lowSurrogate
  | scalarValue
  | endOfInput
  | shallower (limit : Nat)
  deriving DecidableEq, Repr

def Expectation.text : Expectation → String
  | .token text => "\"" ++ text ++ "\""
  | .identifier => "identifier"
  | .number => "number"
  | .string => "string"
  | .digit => "digit"
  | .escapeSequence => "escape sequence"
  | .hexDigit => "hexadecimal digit"
  | .lowSurrogate => "low surrogate escape"
  | .scalarValue => "unicode scalar value"
  | .endOfInput => SyntaxError.endOfInput
  | .shallower limit => "nesting depth <= " ++ toString limit

/-- What was looked for in vain at the furthest place. Too deep a nesting ends the scan and is the
only thing reported. -/
inductive Misses
  | none
  | at (place : Place) (expected : List Expectation)
  | tooDeep (place : Place) (limit : Nat)
  deriving Repr

namespace Misses

/-- The misses of one scan and of the scan after it. -/
def merge : Misses → Misses → Misses
  | _, .tooDeep p limit => .tooDeep p limit
  | .tooDeep p limit, _ => .tooDeep p limit
  | .none, m => m
  | m, .none => m
  | .at p es, .at q fs =>
    if p.passed < q.passed then .at q fs
    else if p.passed = q.passed then .at p (es ++ fs)
    else .at p es

def place (source : List Char) : Misses → Place
  | .none => .start source
  | .at p _ => p
  | .tooDeep p _ => p

def expected : Misses → List Expectation
  | .none => []
  | .at _ es => es
  | .tooDeep _ limit => [.shallower limit]

def error (source : List Char) (m : Misses) : SyntaxError :=
  let p := m.place source
  .make source (SyntaxError.byteCount (source.take p.passed)) (m.expected.map Expectation.text)
    p.rest.head?

end Misses

structure Scan (α : Type) where
  result : Option (α × Place)
  misses : Misses

def Scanner (α : Type) : Type := Place → Scan α

namespace Scanner

variable {α β : Type}

instance : Monad Scanner where
  pure a := fun p => ⟨some (a, p), .none⟩
  bind s f := fun p =>
    match s p with
    | ⟨none, m⟩ => ⟨none, m⟩
    | ⟨some (a, q), m⟩ => let next := f a q; ⟨next.result, m.merge next.misses⟩

/-- Fails; what is missing has been noted before. -/
def fail : Scanner α := fun _ => ⟨none, .none⟩

def missed (es : List Expectation) (n : Nat) : Scanner Unit :=
  fun p => ⟨some ((), p), .at (p.advance n) es⟩

def expecting (es : List Expectation) : Scanner α := fun p => ⟨none, .at p es⟩

/-- Fails for want of what was expected at a place before. -/
def expectingAt (p : Place) (es : List Expectation) : Scanner α := fun _ => ⟨none, .at p es⟩

def tooDeep (limit : Nat) : Scanner α := fun p => ⟨none, .tooDeep p limit⟩

def here : Scanner Place := fun p => ⟨some (p, p), .none⟩

def peek : Scanner (Option Char) := fun p => ⟨some (p.rest.head?, p), .none⟩

def advance (n : Nat) : Scanner Unit := fun p => ⟨some ((), p.advance n), .none⟩

def charsWhile (test : Char → Bool) : Scanner (List Char) :=
  fun p => ⟨some (p.rest.takeWhile test, p.skip test), .none⟩

def isSpace (c : Char) : Bool := c = ' ' || c = '\t' || c = '\r' || c = '\n'

def space : Scanner Unit := fun p => ⟨some ((), p.skip isSpace), .none⟩

/-- Whether a fixed text stands here, which is then passed. -/
def token (text : String) : Scanner Bool := fun p =>
  let t := text.toList
  if t.isPrefixOf p.rest then ⟨some (true, p.advance t.length), .none⟩
  else ⟨some (false, p), .at p [.token text]⟩

/-- Whether a fixed text stands behind the space here. If not, the space is not passed either. -/
def spacedToken (text : String) : Scanner Bool := fun p =>
  match token text (p.skip isSpace) with
  | ⟨some (true, q), m⟩ => ⟨some (true, q), m⟩
  | ⟨_, m⟩ => ⟨some (false, p), m⟩

def required (text : String) : Scanner Unit := do
  if ← token text then return () else fail

section Lists

variable (item : Scanner α)

def more (separator : String) : Nat → Scanner (List α)
  | 0 => pure []
  | fuel + 1 => do
    if ← spacedToken separator then
      space
      let a ← item
      return a :: (← more separator fuel)
    else
      return []

/-- Items with a separator between them, one or more. -/
def separated (separator : String) : Scanner (List α) := do
  let a ← item
  return a :: (← more item separator ((← here).rest.length + 1))

/-- Items separated by commas, none or more, up to a closing text. -/
def itemsUntil (close : String) : Scanner (List α) := do
  space
  if ← token close then return []
  let items ← separated item ","
  space
  required close
  return items

end Lists

/-- What a scanner makes of a whole source. -/
def run (s : Scanner α) (source : List Char) : Except SyntaxError α :=
  match s (.start source) with
  | ⟨some (a, _), _⟩ => .ok a
  | ⟨none, m⟩ => .error (m.error source)

end Scanner

end ActionChain
