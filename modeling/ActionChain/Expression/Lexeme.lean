import ActionChain.Expression.Scan
import ActionChain.Number.Decimal

/-!
The lexemes of expressions: identifiers, numbers as in JSON, and strings in either kind of quotes.
-/
namespace ActionChain.Scanner

def isLetter (c : Char) : Bool := c.isAlpha || c = '_' || c = '$'
def isNameChar (c : Char) : Bool := c.isAlphanum || c = '_' || c = '$'

def identifier : Scanner String := do
  match ← peek with
  | some c =>
    if isLetter c then return String.ofList (← charsWhile isNameChar)
    else expecting [.identifier]
  | none => expecting [.identifier]

/-- A zero, or digits that do not start with one. -/
def wholePart : Scanner (List Char) := do
  match ← peek with
  | some '0' =>
    advance 1
    return ['0']
  | some c => if c.isDigit then charsWhile Char.isDigit else expecting [.digit]
  | none => expecting [.digit]

/-- The digits behind a point. A point without digits is left alone. -/
def fractionPart : Scanner (List Char) := do
  match (← here).rest with
  | '.' :: rest =>
    if (rest.head?.map Char.isDigit).getD false then
      advance 1
      charsWhile Char.isDigit
    else
      missed [.digit] 1
      return []
  | _ => return []

/-- Whether the sign of an exponent is a minus, and how many characters it takes. -/
def exponentSign : List Char → Bool × Nat
  | '-' :: _ => (true, 1)
  | '+' :: _ => (false, 1)
  | _ => (false, 0)

/-- The exponent behind the letter for it. A letter without digits is left alone. -/
def exponentPart : Scanner Int := do
  match (← here).rest with
  | [] => return 0
  | mark :: rest =>
    let (minus, signs) := exponentSign rest
    if mark = 'e' ∨ mark = 'E' then
      if ((rest.drop signs).head?.map Char.isDigit).getD false then
        advance (signs + 1)
        let n : Int := Text.decimal (← charsWhile Char.isDigit)
        return if minus then -n else n
      else
        missed [.digit] (signs + 1)
        return 0
    else
      return 0

/-- Whether a minus stands here, which is then passed. -/
def minusSign : Scanner Bool := do
  match ← peek with
  | some '-' =>
    advance 1
    return true
  | _ => return false

def number : Scanner Binary64 := do
  let minus ← minusSign
  let whole ← wholePart
  let fraction ← fractionPart
  let exponent ← exponentPart
  return Decimal.toBinary64 minus
    ⟨Text.decimal (whole ++ fraction), exponent - fraction.length⟩

def hexDigit : Scanner Nat := do
  match (← peek).bind Text.hexDigit? with
  | some d =>
    advance 1
    return d
  | none => expecting [.hexDigit]

def codeUnit : Scanner Nat := do
  return (((← hexDigit) * 16 + (← hexDigit)) * 16 + (← hexDigit)) * 16 + (← hexDigit)

def scalar (code : Nat) : Scanner Char :=
  if code.isValidChar then return Char.ofNat code else expecting [.scalarValue]

/-- The second escape of a surrogate pair, whose first one was `high`. -/
def secondHalf (high : Nat) : Scanner Char := do
  let pair ← here
  if ['\\', 'u'].isPrefixOf pair.rest then
    advance 2
    let low ← codeUnit
    if 0xDC00 ≤ low ∧ low < 0xE000 then
      scalar (0x10000 + (high - 0xD800) * 0x400 + (low - 0xDC00))
    else expectingAt pair [.lowSurrogate]
  else expectingAt pair [.lowSurrogate]

/-- The character of a numbered escape. A high surrogate takes a second escape with a low one. -/
def unicodeEscape : Scanner Char := do
  let high ← codeUnit
  if high < 0xD800 ∨ 0xDC00 ≤ high then scalar high else secondHalf high

def simpleEscape? : Char → Option Char
  | '\\' => some '\\'
  | '"' => some '"'
  | '\'' => some '\''
  | '/' => some '/'
  | 'b' => some '\x08'
  | 'f' => some '\x0c'
  | 'n' => some '\n'
  | 'r' => some '\r'
  | 't' => some '\t'
  | _ => none

def escape : Scanner Char := do
  match ← peek with
  | some 'u' =>
    advance 1
    unicodeEscape
  | some c => match simpleEscape? c with
    | some d =>
      advance 1
      return d
    | none => expecting [.escapeSequence]
  | none => expecting [.escapeSequence]

/-- The next character of a string, unless the closing quote is next, which is then passed. -/
def stringChar (quote : Char) : Scanner (Option Char) := do
  match ← peek with
  | none => expecting [.token (String.singleton quote)]
  | some c =>
    advance 1
    if c = quote then return none
    else if c = '\\' then return some (← escape)
    else return some c

def stringChars (quote : Char) : Nat → Scanner (List Char)
  | 0 => fail
  | fuel + 1 => do
    match ← stringChar quote with
    | none => return []
    | some c => return c :: (← stringChars quote fuel)

def stringIn (quote : Char) : Scanner String := do
  advance 1
  return String.ofList (← stringChars quote ((← here).rest.length + 1))

end ActionChain.Scanner
