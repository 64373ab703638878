import ActionChain.Json.Basic
import ActionChain.Number.Decimal

/-!
Reading JSON. A text is read as a value or refused; a reader of a part returns what follows it.
Whole numbers that fit 64 bits stay whole. Any other number is a significand of at most 64 bits
times a power of ten, each rounded to a double before they are multiplied or divided.
-/
namespace ActionChain.Json

-- Powers are those of core, whatever others are in scope; so literal exponents show their type.
attribute [local instance (high)] instPowNat

def isSpace (c : Char) : Bool := c = ' ' || c = '\n' || c = '\t' || c = '\r'

def skipSpace (cs : List Char) : List Char := cs.dropWhile isSpace

/-- Arrays and objects nest less deeply than this. -/
def depthLimit : Nat := 128

/-- The digits of a number that count: a significand below `2 ^ 64` and how many further places of
the whole part were passed over. -/
structure Significand where
  value : Nat
  dropped : Nat

/-- Adds the digits of a whole part; once one does not fit, it and all after it are only counted. -/
def wholeDigits (s : Significand) : List Char → Significand
  | [] => s
  | c :: cs =>
    let next := 10 * s.value + Text.digit c
    if s.dropped = 0 ∧ next < 2 ^ (64 : Nat) then wholeDigits ⟨next, 0⟩ cs
    else wholeDigits ⟨s.value, s.dropped + 1⟩ cs

/-- Adds the digits of a fraction while they fit, counting those taken. -/
def fractionDigits (value taken : Nat) : List Char → Nat × Nat
  | [] => (value, taken)
  | c :: cs =>
    let next := 10 * value + Text.digit c
    if next < 2 ^ (64 : Nat) then fractionDigits next (taken + 1) cs else (value, taken)

def powerOfTen (n : Nat) : Binary64 := (⟨1, n⟩ : Decimal).toBinary64 false

/-- Divides by `10 ^ n` in steps of at most `10 ^ 308`. Three steps leave nothing of any
significand. -/
def scaleDown (x : Binary64) (n : Nat) : Nat → Binary64
  | 0 => x
  | steps + 1 =>
    if n ≤ 308 then x.div (powerOfTen n) else scaleDown (x.div (powerOfTen 308)) (n - 308) steps

/-- `significand * 10 ^ exponent` as a double, unless it is too large. -/
def scaled? (significand : Nat) (exponent : Int) : Option Binary64 :=
  let x := Binary64.ofNat significand
  if exponent < 0 then some (scaleDown x exponent.natAbs 3)
  else if significand = 0 then some x
  else if 308 < exponent then none
  else
    let y := x.mul (powerOfTen exponent.natAbs)
    if y.isFinite then some y else none

def negate (x : Binary64) : Binary64 := .ofMagnitude (!x.negative) x.magnitude

def number (negative : Bool) (cs : List Char) : Option (Json × List Char) := do
  let whole := cs.takeWhile Char.isDigit
  let rest := cs.dropWhile Char.isDigit
  if whole.isEmpty || (whole.head? == some '0' && 1 < whole.length) then none
  let s := wholeDigits ⟨0, 0⟩ whole
  let (fraction, rest) := match rest with
    | '.' :: r => (some (r.takeWhile Char.isDigit), r.dropWhile Char.isDigit)
    | r => (none, r)
  if fraction == some [] then none
  let (power, rest) := match rest with
    | 'e' :: r | 'E' :: r =>
      let (minus, r) := match r with
        | '-' :: r => (true, r)
        | '+' :: r => (false, r)
        | r => (false, r)
      (some (minus, r.takeWhile Char.isDigit), r.dropWhile Char.isDigit)
    | r => (none, r)
  if power.any fun (_, digits) => digits.isEmpty then none
  let wholeNumber := fraction.isNone && power.isNone && s.dropped = 0
  if wholeNumber && !negative then return (.int s.value, rest)
  if wholeNumber && 0 < s.value && s.value ≤ 2 ^ (63 : Nat) then return (.int (-s.value), rest)
  let (significand, taken) := fractionDigits s.value 0 (fraction.getD [])
  let exponent : Int := match power with
    | some (minus, digits) =>
      let e := Text.decimal digits
      if minus then -e else e
    | none => 0
  let x ← scaled? significand (exponent + s.dropped - taken)
  return (.float (if negative then negate x else x), rest)

def codeUnit : List Char → Option (Nat × List Char)
  | a :: b :: c :: d :: rest => do
    return (((← Text.hexDigit? a) * 16 + (← Text.hexDigit? b)) * 256 +
      (← Text.hexDigit? c) * 16 + (← Text.hexDigit? d), rest)
  | _ => none

/-- The character of a numbered escape; one beyond the first plane takes two. -/
def unicodeEscape (cs : List Char) : Option (Char × List Char) := do
  let (high, rest) ← codeUnit cs
  if 0xDC00 ≤ high ∧ high < 0xE000 then none
  if high < 0xD800 ∨ 0xE000 ≤ high then return (Char.ofNat high, rest)
  match rest with
  | '\\' :: 'u' :: rest =>
    let (low, rest) ← codeUnit rest
    if 0xDC00 ≤ low ∧ low < 0xE000 then
      return (Char.ofNat (0x10000 + (high - 0xD800) * 0x400 + (low - 0xDC00)), rest)
    none
  | _ => none

def escaped : List Char → Option (Char × List Char)
  | '"' :: rest => some ('"', rest)
  | '\\' :: rest => some ('\\', rest)
  | '/' :: rest => some ('/', rest)
  | 'b' :: rest => some ('\x08', rest)
  | 'f' :: rest => some ('\x0c', rest)
  | 'n' :: rest => some ('\n', rest)
  | 'r' :: rest => some ('\r', rest)
  | 't' :: rest => some ('\t', rest)
  | 'u' :: rest => unicodeEscape rest
  | _ => none

/-- The characters up to the closing quote; `fuel` counts those left to read. -/
def stringFrom : Nat → List Char → Option (List Char × List Char)
  | 0, _ => none
  | _ + 1, [] => none
  | fuel + 1, c :: rest =>
    if c = '"' then some ([], rest)
    else if c < ' ' then none
    else do
      let (c, rest) ← if c = '\\' then escaped rest else some (c, rest)
      let (more, rest) ← stringFrom fuel rest
      return (c :: more, rest)

def stringBody (cs : List Char) : Option (String × List Char) := do
  let (chars, rest) ← stringFrom cs.length cs
  return (String.ofList chars, rest)

def word (text : String) (cs : List Char) : Option (List Char) :=
  let t := text.toList
  if t.isPrefixOf cs then some (cs.drop t.length) else none

section Nested

variable (value : List Char → Option (Json × List Char))

def itemsFrom : Nat → List Char → Option (List Json × List Char)
  | 0, _ => none
  | fuel + 1, cs =>
    match skipSpace cs with
    | ']' :: rest => some ([], rest)
    | ',' :: rest => do
      let (v, rest) ← value (skipSpace rest)
      let (more, rest) ← itemsFrom fuel rest
      return (v :: more, rest)
    | _ => none

def items (cs : List Char) : Option (List Json × List Char) :=
  match skipSpace cs with
  | ']' :: rest => some ([], rest)
  | cs => do
    let (v, rest) ← value cs
    let (more, rest) ← itemsFrom value (rest.length + 1) rest
    return (v :: more, rest)

def oneMember (cs : List Char) : Option ((String × Json) × List Char) :=
  match cs with
  | '"' :: rest => do
    let (key, rest) ← stringBody rest
    match skipSpace rest with
    | ':' :: rest =>
      let (v, rest) ← value (skipSpace rest)
      return ((key, v), rest)
    | _ => none
  | _ => none

def membersFrom : Nat → List Char → Option (List (String × Json) × List Char)
  | 0, _ => none
  | fuel + 1, cs =>
    match skipSpace cs with
    | '\x7d' :: rest => some ([], rest)
    | ',' :: rest => do
      let (m, rest) ← oneMember value (skipSpace rest)
      let (more, rest) ← membersFrom fuel rest
      return (m :: more, rest)
    | _ => none

def members (cs : List Char) : Option (List (String × Json) × List Char) :=
  match skipSpace cs with
  | '\x7d' :: rest => some ([], rest)
  | cs => do
    let (m, rest) ← oneMember value cs
    let (more, rest) ← membersFrom value (rest.length + 1) rest
    return (m :: more, rest)

end Nested

/-- A value inside `depth` more brackets at most. -/
def value : Nat → List Char → Option (Json × List Char)
  | depth, cs =>
    match cs with
    | 'n' :: _ => (word "null" cs).map (.null, ·)
    | 't' :: _ => (word "true" cs).map (.bool true, ·)
    | 'f' :: _ => (word "false" cs).map (.bool false, ·)
    | '"' :: rest => (stringBody rest).map fun (s, rest) => (.string s, rest)
    | '-' :: rest => number true rest
    | '[' :: rest => match depth with
      | 0 => none
      | depth + 1 => (items (value depth) rest).map fun (vs, rest) => (.array vs, rest)
    | '\x7b' :: rest => match depth with
      | 0 => none
      | depth + 1 =>
        (members (value depth) rest).map fun (ms, rest) => (.object (Members.ofList ms), rest)
    | _ => number false cs

/-- The value a text holds, if it holds one and nothing else. -/
def read? (text : String) : Option Json :=
  match value (depthLimit - 1) (skipSpace text.toList) with
  | some (v, rest) => if (skipSpace rest).isEmpty then some v else none
  | none => none

end ActionChain.Json
