import ActionChain.Members
import ActionChain.Number.Binary64
import ActionChain.Text.Basic

/-!
JSON values. A number is whole or a double: the two are written and compared differently. An object
lists its members as it is written; the readers and the operations here keep them in ascending order.
-/
namespace ActionChain

inductive Json
  | null
  | bool (b : Bool)
  | int (n : Int)
  | float (x : Binary64)
  | string (s : String)
  | array (items : List Json)
  | object (members : List (String × Json))
  deriving Repr, Inhabited

namespace Json

def emptyObject : Json := .object []

/-- The member of an object. What is no object has none. -/
def member? (key : String) : Json → Option Json
  | .object ms => Members.find? key ms
  | _ => none

def string? : Json → Option String
  | .string s => some s
  | _ => none

def number? : Json → Option Binary64
  | .int n => some (.ofInt n)
  | .float x => some x
  | _ => none

/-- The value reached by descending through members, one key after the other. -/
def at? (value : Json) : List String → Option Json
  | [] => some value
  | key :: keys => (value.member? key).bind (·.at? keys)

end Json

/-- The parts of a data path, which dots separate. -/
def pathParts (path : String) : List String := (Text.split '.' path.toList).map String.ofList

def Json.atPath? (value : Json) (path : String) : Option Json := value.at? (pathParts path)

end ActionChain
