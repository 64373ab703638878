import ActionChain.Json.Basic

/-!
Action expressions such as `addClass('busy') -> submit() !~ enable()`: two chains of calls, the
second for the case that the first is rejected. Arguments are JSON-like, and may hold calls of value
functions. A dotted path `a.b` is short for the call `getDataValue(['a', 'b'])`.
-/
namespace ActionChain

/-- An argument of a call. The members of an object ascend by their keys. -/
inductive Argument
  | null
  | bool (b : Bool)
  | number (x : Binary64)
  | string (s : String)
  | array (items : List Argument)
  | object (members : List (String × Argument))
  | call (name : String) (args : List Argument)
  deriving Repr, Inhabited

structure Call where
  name : String
  args : List Argument
  deriving Repr, Inhabited

/-- The calls to run when a button is activated, and those to run when one of them rejects. -/
structure Expression where
  success : List Call
  reject : List Call
  deriving Repr, Inhabited

namespace Argument

def getDataValue : String := "getDataValue"
def prefill : String := "prefill"

/-- What a dotted path stands for. -/
def dataPath (segments : List String) : Argument :=
  .call getDataValue [.array (segments.map .string)]

def kind : Argument → String
  | .null => "null"
  | .bool _ => "boolean"
  | .number _ => "number"
  | .string _ => "string"
  | .array _ => "array"
  | .object _ => "object"
  | .call .. => "function call"

def string? : Argument → Option String
  | .string s => some s
  | _ => none

def number? : Argument → Option Binary64
  | .number x => some x
  | _ => none

mutual

def containsCall : Argument → Bool
  | .call .. => true
  | .array items => itemsContainCall items
  | .object ms => membersContainCall ms
  | _ => false

def itemsContainCall : List Argument → Bool
  | [] => false
  | a :: rest => containsCall a || itemsContainCall rest

def membersContainCall : List (String × Argument) → Bool
  | [] => false
  | (_, a) :: rest => containsCall a || membersContainCall rest

end

mutual

/-- The JSON value of an argument without calls, all of whose numbers are finite. -/
def json? : Argument → Option Json
  | .null => some .null
  | .bool b => some (.bool b)
  | .number x => if x.isFinite then some (.float x) else none
  | .string s => some (.string s)
  | .array items => (itemsJson? items).map .array
  | .object ms => (membersJson? ms).map .object
  | .call .. => none

def itemsJson? : List Argument → Option (List Json)
  | [] => some []
  | a :: rest => do return (← json? a) :: (← itemsJson? rest)

def membersJson? : List (String × Argument) → Option (List (String × Json))
  | [] => some []
  | (k, a) :: rest => do return (k, ← json? a) :: (← membersJson? rest)

end

mutual

/-- Equality, with numbers compared as numbers. -/
def same : Argument → Argument → Bool
  | .null, .null => true
  | .bool a, .bool b => a == b
  | .number x, .number y => x.same y
  | .string s, .string t => s == t
  | .array as, .array bs => sameItems as bs
  | .object ms, .object ns => sameMembers ms ns
  | .call f as, .call g bs => f == g && sameItems as bs
  | _, _ => false

def sameItems : List Argument → List Argument → Bool
  | [], [] => true
  | a :: as, b :: bs => same a b && sameItems as bs
  | _, _ => false

def sameMembers : List (String × Argument) → List (String × Argument) → Bool
  | [], [] => true
  | (k, a) :: ms, (l, b) :: ns => k == l && same a b && sameMembers ms ns
  | _, _ => false

end

mutual

/-- The syntax tree as data: a call is an object of its name and arguments, and what is no finite
number is null. -/
def tree : Argument → Json
  | .null => .null
  | .bool b => .bool b
  | .number x => if x.isFinite then .float x else .null
  | .string s => .string s
  | .array items => .array (treeItems items)
  | .object ms => .object (treeMembers ms)
  | .call name args => .object [("name", .string name), ("args", .array (treeItems args))]

def treeItems : List Argument → List Json
  | [] => []
  | a :: rest => tree a :: treeItems rest

def treeMembers : List (String × Argument) → List (String × Json)
  | [] => []
  | (k, a) :: rest => (k, tree a) :: treeMembers rest

end

end Argument

namespace Call

def same (a b : Call) : Bool := a.name == b.name && Argument.sameItems a.args b.args

def sameChain : List Call → List Call → Bool
  | [], [] => true
  | a :: as, b :: bs => a.same b && sameChain as bs
  | _, _ => false

def tree (c : Call) : Json := (Argument.call c.name c.args).tree

end Call

namespace Expression

/-- The names of the calls of both chains, in the order they are written. -/
def names (e : Expression) : List String := (e.success ++ e.reject).map (·.name)

def same (a b : Expression) : Bool :=
  Call.sameChain a.success b.success && Call.sameChain a.reject b.reject

def tree (e : Expression) : Json :=
  .object [("success_chain", .array (e.success.map Call.tree)),
    ("reject_chain", .array (e.reject.map Call.tree))]

end Expression

end ActionChain
