import ActionChain.Toml.Lexeme
import ActionChain.Toml.Table

/-!
TOML documents, read as JSON. A document is a sequence of lines: assignments to the table of the
last header, and headers.
-/
namespace ActionChain.Toml

open Reader

/-- A key, apart from its last part, and its value. -/
structure Assignment where
  path : List String
  key : String
  value : Json

/-- The parts of a key before the last, and the last. -/
def splitKey (parts : List String) : Reader (List String × String) := fun cs =>
  parts.getLast?.map fun last => ((parts.dropLast, last), cs)

section Values

variable (value : Reader Json)

def assignment : Reader Assignment := do
  let (path, last) ← splitKey (← key)
  exact "="
  blanks
  return ⟨path, last, ← value⟩

def array : Reader Json := do
  exact "["
  let items ← separated do
    gap
    let v ← value
    gap
    return v
  if !items.isEmpty then
    let _ ← optional (exact ",")
  gap
  exact "]"
  return .array items

def inlineTable : Reader Json := do
  exact "\x7b"
  let all ← separated do
    let a ← assignment value
    blanks
    return a
  blanks
  exact "\x7d"
  let ms ← all.foldlM (fun ms a => assign a.path a.key a.value ms) []
  return .object (Item.membersToJson ms)

end Values

/-- A value with so many levels of arrays and inline tables at most. -/
def value : Nat → Reader Json
  | 0 => scalar
  | depth + 1 => do
    match ← peek with
    | some '[' => array (value depth)
    | some '\x7b' => inlineTable (value depth)
    | _ => scalar

/-- What has been read: all tables, and the path of the last header. -/
structure Draft where
  root : Members Item
  header : List String

def header (d : Draft) : Reader Draft := fun cs =>
  let further := ['[', '['].isPrefixOf cs
  (do
    exact (if further then "[[" else "[")
    let parts ← key
    exact (if further then "]]" else "]")
    lineEnd
    let (path, last) ← splitKey parts
    let root ← if further then openFurther path last d.root else openTable path last d.root
    return ⟨root, parts⟩ : Reader Draft) cs

def assignmentLine (d : Draft) : Reader Draft := do
  let a ← assignment (value (depthLimit - 1))
  lineEnd
  let root ← atPath false d.header (fun _ ms => assign a.path a.key a.value ms) .written d.root
  return { d with root }

def line (d : Draft) : Reader Draft := do
  match ← peek with
  | some '#' => lineEnd; return d
  | some '[' => header d
  | some '\n' | some '\r' => newline; return d
  | _ => assignmentLine d

/-- The lines up to the end of the text; `fuel` bounds their number. -/
def lines : Nat → Draft → Reader Draft
  | 0, d => do atEnd; return d
  | fuel + 1, d => do
    blanks
    match ← peek with
    | none => return d
    | some _ => lines fuel (← line d)

/-- The value of a document, if the text is one. A byte order mark at its start is passed. -/
def read? (text : String) : Option Json :=
  let cs := match text.toList with
    | '\ufeff' :: rest => rest
    | cs => cs
  (lines (cs.length + 1) ⟨[], []⟩ cs).map fun (d, _) => .object (Item.membersToJson d.root)

end ActionChain.Toml
