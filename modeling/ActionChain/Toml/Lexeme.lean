import ActionChain.Json.Basic
import ActionChain.Number.Decimal
import ActionChain.Toml.Reader

/-!
The smallest parts of TOML: blanks and comments, strings, keys, numbers and times. Values are read
into JSON. JSON has no infinities, so those are null; a time is an object with its normal text.
-/
namespace ActionChain.Toml

open Reader

-- Powers are those of core, whatever others are in scope; so literal exponents show their type.
attribute [local instance (high)] instPowNat

/-- Characters of comments and strings: no controls but the tabulator. -/
def isPlain (c : Char) : Bool := c = '\t' || (' ' ≤ c && c ≠ '\x7f')

def blanks : Reader Unit := do let _ ← charsWhile fun c => c = ' ' || c = '\t'

def newline : Reader Unit := exact "\n" <|> exact "\r\n"

def comment : Reader Unit := do
  exact "#"
  let _ ← charsWhile isPlain

def lineEnd : Reader Unit := do
  blanks
  let _ ← optional comment
  newline <|> atEnd

def gap : Reader Unit := do
  blanks
  let _ ← many (do (newline <|> (do comment; newline)); blanks)

section Strings

/-- A character by its number in so many hexadecimal digits. -/
def numbered (n : Nat) : Reader Char := fun cs =>
  let ds := cs.take n
  let code := Text.hexadecimal ds
  if ds.length = n && ds.all (Text.hexDigit? · |>.isSome) && code.isValidChar then
    some (Char.ofNat code, cs.drop n)
  else none

def escape : Reader Char := do
  exact "\\"
  match ← one fun _ => true with
  | 'b' => return '\x08'
  | 't' => return '\t'
  | 'n' => return '\n'
  | 'f' => return '\x0c'
  | 'r' => return '\r'
  | '"' => return '"'
  | '\\' => return '\\'
  | 'u' => numbered 4
  | 'U' => numbered 8
  | _ => failure

def basicChar : Reader Char := one (fun c => isPlain c && c ≠ '"' && c ≠ '\\') <|> escape
def literalChar : Reader Char := one fun c => isPlain c && c ≠ '\''

def shortString (quote : String) (char : Reader Char) : Reader (List Char) := do
  exact quote
  let cs ← many char
  exact quote
  return cs

def basicString : Reader (List Char) := shortString "\"" basicChar
def literalString : Reader (List Char) := shortString "'" literalChar

/-- A backslash at the end of a line takes all blanks and line breaks after it away. -/
def joinedLines : Reader (List Char) := do
  exact "\\"
  blanks
  newline
  blanks
  let _ ← many (do newline; blanks)
  return []

/-- A quote inside a long string. Three in a row end it. -/
def innerQuote (quote : Char) : Reader Char := fun cs =>
  let run := cs.takeWhile (· = quote)
  if 0 < run.length && run.length < 3 then some (quote, cs.drop 1) else none

/-- The end of a long string: three quotes, with up to two before them that belong to it. -/
def lastQuotes (quote : Char) : Reader (List Char) := do
  let run ← charsWhile (· = quote)
  if 3 ≤ run.length && run.length ≤ 5 then return run.drop 3 else failure

/-- A string over several lines; a line break right at its start does not count. -/
def longString (quote : Char) (piece : Reader (List Char)) : Reader (List Char) := do
  exact (String.ofList [quote, quote, quote])
  let _ ← optional newline
  let pieces ← many (piece <|> (do newline; return ['\n']) <|> (do return [← innerQuote quote]))
  let quotes ← lastQuotes quote
  return pieces.flatten ++ quotes

def string : Reader (List Char) :=
  longString '"' (joinedLines <|> (do return [← basicChar])) <|> basicString <|>
    longString '\'' (do return [← literalChar]) <|> literalString

end Strings

section Keys

def isBare (c : Char) : Bool := c.isAlphanum || c = '-' || c = '_'

def simpleKey : Reader String := do
  match ← peek with
  | some '"' => return String.ofList (← basicString)
  | some '\'' => return String.ofList (← literalString)
  | _ =>
    let c ← one isBare
    return String.ofList (c :: (← charsWhile isBare))

/-- Keys and values nest less deeply than this. -/
def depthLimit : Nat := 80

/-- A key in its parts, with dots between them and blanks around each. -/
def key : Reader (List String) := do
  let part : Reader String := do
    blanks
    let k ← simpleKey
    blanks
    return k
  let first ← part
  let parts := first :: (← many (do exact "."; part))
  if parts.length < depthLimit then return parts else failure

end Keys

section Numbers

def digits (isDigit : Char → Bool) : Reader (List Char) := do
  let d ← one isDigit
  return d :: (← many (one isDigit <|> (do exact "_"; one isDigit)))

/-- Whether there is a minus. A plus is passed. -/
def sign : Reader Bool :=
  (do exact "-"; return true) <|> (do exact "+"; return false) <|> pure false

/-- The whole part of a decimal number, without needless zeros. -/
def wholePart : Reader (List Char) :=
  (do exact "0"; return ['0']) <|> digits Char.isDigit

def fractionPart : Reader (List Char) := do
  exact "."
  digits Char.isDigit

def exponentPart : Reader Int := do
  let _ ← one fun c => c = 'e' || c = 'E'
  let minus ← sign
  let e := Text.decimal (← digits Char.isDigit)
  return if minus then -e else e

def ofDouble (x : Binary64) : Json := if x.isFinite then .float x else .null

/-- A number with a fraction or an exponent. One beyond all doubles is refused if it is positive. -/
def float : Reader Json := do
  let minus ← sign
  let whole ← wholePart
  let fraction ← optional fractionPart
  let power ← optional exponentPart
  if fraction.isNone && power.isNone then failure
  let places := fraction.getD []
  let x := (⟨Text.decimal (whole ++ places), power.getD 0 - places.length⟩ : Decimal).toBinary64 minus
  if x.isFinite || minus then return ofDouble x else failure

def specialFloat : Reader Json := do
  let _ ← sign
  exact "inf" <|> exact "nan"
  return .null

/-- A whole number of 64 bits with a sign. -/
def inRange (n : Int) : Reader Json :=
  if -2 ^ (63 : Nat) ≤ n ∧ n < 2 ^ (63 : Nat) then return .int n else failure

def based (mark : String) (base : Nat) : Reader Json := do
  exact mark
  let ds ← digits fun c => (Text.hexDigit? c).any (· < base)
  inRange (ds.foldl (fun n c => base * n + (Text.hexDigit? c).getD 0) 0 : Nat)

def integer : Reader Json :=
  based "0x" 16 <|> based "0o" 8 <|> based "0b" 2 <|> do
    let minus ← sign
    let n : Int := Text.decimal (← wholePart)
    inRange (if minus then -n else n)

end Numbers

section Times

/-- So many digits, and no more are read. -/
def exactDigits : Nat → Reader (List Char)
  | 0 => pure []
  | n + 1 => do return (← one Char.isDigit) :: (← exactDigits n)

def pair (low high : Nat) : Reader (List Char) := do
  let ds ← exactDigits 2
  if low ≤ Text.decimal ds && Text.decimal ds ≤ high then return ds else failure

def daysIn (year month : Nat) : Nat :=
  if month = 2 then
    if year % 4 = 0 && (year % 100 ≠ 0 || year % 400 = 0) then 29 else 28
  else if [4, 6, 9, 11].contains month then 30 else 31

def date : Reader (List Char) := do
  let year ← exactDigits 4
  exact "-"
  let month ← pair 1 12
  exact "-"
  let day ← pair 1 (daysIn (Text.decimal year) (Text.decimal month))
  return year ++ '-' :: month ++ '-' :: day

/-- Nine places count; zeros at the end do not. -/
def fractionOfSecond : Reader (List Char) := do
  exact "."
  let d ← one Char.isDigit
  let ds := d :: (← charsWhile Char.isDigit)
  let ds := ((ds.take 9).reverse.dropWhile (· = '0')).reverse
  return if ds.isEmpty then [] else '.' :: ds

/-- A time of day; a minute may have a leap second. -/
def time : Reader (List Char) := do
  let hour ← pair 0 23
  exact ":"
  let minute ← pair 0 59
  exact ":"
  let second ← pair 0 60
  let fraction ← optional fractionOfSecond
  return hour ++ ':' :: minute ++ ':' :: second ++ fraction.getD []

/-- The distance from universal time, which has no sign when it is zero. -/
def offset : Reader (List Char) :=
  (do let _ ← one fun c => c = 'Z' || c = 'z'; return ['Z']) <|> do
    let c ← one fun c => c = '+' || c = '-'
    let hour ← pair 0 23
    exact ":"
    let minute ← pair 0 59
    let c := if Text.decimal (hour ++ minute) = 0 then '+' else c
    return c :: hour ++ ':' :: minute

def dateTime : Reader (List Char) :=
  (do
    let d ← date
    let t ← optional do
      let _ ← one fun c => c = 'T' || c = 't' || c = ' '
      let t ← time
      return 'T' :: t ++ (← optional offset).getD []
    return d ++ t.getD []) <|> time

def timeKey : String := "$__toml_private_datetime"

end Times

def scalar : Reader Json := do
  match ← peek with
  | some '"' | some '\'' => return .string (String.ofList (← string))
  | some 't' => exact "true"; return .bool true
  | some 'f' => exact "false"; return .bool false
  | _ =>
    (do return .object [(timeKey, .string (String.ofList (← dateTime)))]) <|> float <|>
      specialFloat <|> integer

end ActionChain.Toml
