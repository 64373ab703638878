import ActionChain.Expression.Basic
import ActionChain.Number.Decimal
import ActionChain.Text.Basic

/-!
The grammar of expressions, as relations between what is written and what it stands for. White space
is only where a rule says `Blank`. No rule puts a name or a digit right behind a name, so a name never
stops short. An argument and a chain also come with the number of levels that arrays, objects and
calls nest in them.
-/
namespace ActionChain.Grammar

/-- `_`, space, tabs and line ends, or nothing. -/
def Blank (text : List Char) : Prop := ∀ c ∈ text, c ∈ [' ', '\t', '\r', '\n']

def Letter (c : Char) : Prop := c.isAlpha ∨ c = '_' ∨ c = '$'

instance (c : Char) : Decidable (Letter c) :=
  inferInstanceAs (Decidable (c.isAlpha ∨ c = '_' ∨ c = '$'))

/-- `[A-Za-z_$][A-Za-z0-9_$]*` -/
inductive Identifier : List Char → Prop
  | mk {c : Char} {cs : List Char} : Letter c → (∀ d ∈ cs, Letter d ∨ d.isDigit) →
    Identifier (c :: cs)

section Numbers

structure Digits (ds : List Char) : Prop where
  some : ds ≠ []
  all : ∀ d ∈ ds, d.isDigit

/-- The number that decimal digits write. -/
def decimal (ds : List Char) : Nat := Nat.ofDigitChars 10 ds 0

/-- `0`, or digits of which the first is another. -/
inductive Whole : List Char → Prop
  | zero : Whole ['0']
  | digits {d : Char} {ds : List Char} : d ≠ '0' → Digits (d :: ds) → Whole (d :: ds)

inductive Fraction : List Char → List Char → Prop
  | none : Fraction [] []
  | point {ds : List Char} : Digits ds → Fraction ds ('.' :: ds)

inductive ExponentSign : Bool → List Char → Prop
  | none : ExponentSign false []
  | plus : ExponentSign false ['+']
  | minus : ExponentSign true ['-']

inductive Exponent : Int → List Char → Prop
  | none : Exponent 0 []
  | power {mark : Char} {minus : Bool} {sign ds : List Char} :
    mark ∈ ['e', 'E'] → ExponentSign minus sign → Digits ds →
    Exponent (if minus then -decimal ds else decimal ds) (mark :: sign ++ ds)

/-- Numbers as in JSON. The value is the nearest double. -/
inductive Number : Binary64 → List Char → Prop
  | mk (minus : Bool) {whole ds fraction power : List Char} {e : Int} :
    Whole whole → Fraction ds fraction → Exponent e power →
    Number (Decimal.toBinary64 minus ⟨decimal (whole ++ ds), e - ds.length⟩)
      ((if minus then ['-'] else []) ++ whole ++ fraction ++ power)

end Numbers

section Strings

def escapes : List (Char × Char) :=
  [('\\', '\\'), ('"', '"'), ('\'', '\''), ('/', '/'), ('b', '\x08'), ('f', '\x0c'), ('n', '\n'),
    ('r', '\r'), ('t', '\t')]

/-- The hexadecimal digits in order of their values. A letter counts in either case. -/
def hexDigits : List Char := "0123456789abcdef".toList

structure CodeUnit (ds : List Char) : Prop where
  four : ds.length = 4
  all : ∀ d ∈ ds, d.toLower ∈ hexDigits

theorem CodeUnit.of_all {ds : List Char} (four : ds.length = 4)
    (all : ds.all (·.toLower ∈ hexDigits) = true) : CodeUnit ds :=
  ⟨four, by simpa using all⟩

/-- The number that hexadecimal digits write. -/
def unitValue (ds : List Char) : Nat := ds.foldl (fun n d => 16 * n + hexDigits.idxOf d.toLower) 0

/-- What stands behind a backslash. A surrogate only counts as the first or second half of a pair. -/
inductive Escape : Char → List Char → Prop
  | letter {c d : Char} : (c, d) ∈ escapes → Escape d [c]
  | unit {ds : List Char} : CodeUnit ds → (unitValue ds).isValidChar →
    Escape (Char.ofNat (unitValue ds)) ('u' :: ds)
  | pair {ds es : List Char} {high low : Nat} :
    CodeUnit ds → unitValue ds = high → 0xD800 ≤ high → high < 0xDC00 →
    CodeUnit es → unitValue es = low → 0xDC00 ≤ low → low < 0xE000 →
    Escape (Char.ofNat (0x10000 + (high - 0xD800) * 0x400 + (low - 0xDC00)))
      ('u' :: ds ++ '\\' :: 'u' :: es)

inductive StringBody (quote : Char) : List Char → List Char → Prop
  | nil : StringBody quote [] []
  | plain {c : Char} {cs text : List Char} : c ≠ quote → c ≠ '\\' →
    StringBody quote cs text → StringBody quote (c :: cs) (c :: text)
  | escaped {c : Char} {cs escape text : List Char} : Escape c escape →
    StringBody quote cs text → StringBody quote (c :: cs) ('\\' :: escape ++ text)

inductive StringText : String → List Char → Prop
  | mk {quote : Char} {cs text : List Char} : quote ∈ ['"', '\''] → StringBody quote cs text →
    StringText (String.ofList cs) (quote :: text ++ [quote])

end Strings

/-- A piece of the source, what it stands for, and how deep it nests. -/
structure Piece (α : Type) where
  depth : Nat
  value : α
  text : List Char

section Lists

variable {α : Type}

def deepest (pieces : List (Piece α)) : Nat := (pieces.map (·.depth)).foldr max 0

/-- `(_ separator _ Item)*` -/
inductive More (separator : List Char) : List (Piece α) → List Char → Prop
  | nil : More separator [] []
  | cons {x : Piece α} {rest : List (Piece α)} {before after text : List Char} :
    Blank before → Blank after → More separator rest text →
    More separator (x :: rest) (before ++ separator ++ after ++ x.text ++ text)

/-- `Item (_ separator _ Item)*` -/
inductive Separated (separator : List Char) : List (Piece α) → List Char → Prop
  | mk {x : Piece α} {rest : List (Piece α)} {text : List Char} :
    More separator rest text → Separated separator (x :: rest) (x.text ++ text)

/-- `_ (Item (_ "," _ Item)*)? _` -/
inductive Listed : List (Piece α) → List Char → Prop
  | none {space : List Char} : Blank space → Listed [] space
  | some {items : List (Piece α)} {before text after : List Char} :
    Blank before → Separated [','] items text → Blank after →
    Listed items (before ++ text ++ after)

end Lists

inductive Key : String → List Char → Prop
  | string {s : String} {text : List Char} : StringText s text → Key s text
  | name {name : List Char} : Identifier name → Key (String.ofList name) name

/-- `(String|KeyString) _ ":" _ Argument` -/
structure Member where
  key : String
  {keyText before after : List Char}
  named : Key key keyText
  blankBefore : Blank before
  blankAfter : Blank after
  value : Piece Argument

def Member.piece (m : Member) : Piece (String × Argument) where
  depth := m.value.depth
  value := (m.key, m.value.value)
  text := m.keyText ++ m.before ++ ':' :: m.after ++ m.value.text

/-- The members in order of their keys, each with the last value that it was given. -/
def KeepsLast (pairs : List (String × Argument)) (ms : Members Argument) : Prop :=
  Members.Sorted ms ∧ ∀ key, Members.find? key ms = pairs.reverse.lookup key

/-- Names that stand for themselves, when neither a parenthesis nor a dot follows. -/
inductive Literal : Argument → List Char → Prop
  | true : Literal (.bool true) "true".toList
  | false : Literal (.bool false) "false".toList
  | null : Literal .null "null".toList

/-- A path is short for a call with the names on it. -/
inductive ArgumentText : Nat → Argument → List Char → Prop
  | object (members : List Member) {ms : Members Argument} {text : List Char} :
    (∀ m ∈ members, ArgumentText m.value.depth m.value.value m.value.text) →
    Listed (members.map Member.piece) text →
    KeepsLast (members.map (·.piece.value)) ms →
    ArgumentText (deepest (members.map Member.piece) + 1) (.object ms) ('\x7b' :: text ++ ['\x7d'])
  | array (items : List (Piece Argument)) {text : List Char} :
    (∀ x ∈ items, ArgumentText x.depth x.value x.text) → Listed items text →
    ArgumentText (deepest items + 1) (.array (items.map (·.value))) ('[' :: text ++ [']'])
  | string {s : String} {text : List Char} : StringText s text → ArgumentText 0 (.string s) text
  | number {x : Binary64} {text : List Char} : Number x text → ArgumentText 0 (.number x) text
  | literal {a : Argument} {text : List Char} : Literal a text → ArgumentText 0 a text
  | call (args : List (Piece Argument)) {name space text : List Char} :
    Identifier name → Blank space →
    (∀ x ∈ args, ArgumentText x.depth x.value x.text) → Listed args text →
    ArgumentText (deepest args + 1) (.call (String.ofList name) (args.map (·.value)))
      (name ++ space ++ '(' :: text ++ [')'])
  | path {first : List Char} {more : List (List Char)} :
    (∀ name ∈ first :: more, Identifier name) →
    (∀ a text, Literal a text → first :: more ≠ [text]) →
    ArgumentText 0
      (.call "getDataValue" [.array ((first :: more).map fun name => .string (String.ofList name))])
      (Text.join ['.'] (first :: more))

inductive CallText : Nat → Call → List Char → Prop
  | bare {name : List Char} : Identifier name → CallText 0 ⟨String.ofList name, []⟩ name
  | applied (args : List (Piece Argument)) {name space text : List Char} :
    Identifier name → Blank space →
    (∀ x ∈ args, ArgumentText x.depth x.value x.text) → Listed args text →
    CallText (deepest args) ⟨String.ofList name, args.map (·.value)⟩
      (name ++ space ++ '(' :: text ++ [')'])

inductive ChainText : Nat → List Call → List Char → Prop
  | mk (calls : List (Piece Call)) {text : List Char} :
    (∀ x ∈ calls, CallText x.depth x.value x.text) → Separated ['-', '>'] calls text →
    ChainText (deepest calls) (calls.map (·.value)) text

/-- `_ Chain (_ "!~" _ Chain)? _` -/
inductive ExpressionText : Nat → Expression → List Char → Prop
  | success {d : Nat} {success : List Call} {before text after : List Char} :
    Blank before → ChainText d success text → Blank after →
    ExpressionText d ⟨success, []⟩ (before ++ text ++ after)
  | reject {d e : Nat} {success reject : List Call} {before text behind lead other after : List Char} :
    Blank before → ChainText d success text → Blank behind →
    Blank lead → ChainText e reject other → Blank after →
    ExpressionText (max d e) ⟨success, reject⟩
      (before ++ text ++ behind ++ '!' :: '~' :: lead ++ other ++ after)

end ActionChain.Grammar
