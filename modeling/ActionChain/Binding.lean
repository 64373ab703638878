import ActionChain.Fault

/-!
Arguments bound to an action. What is known when a chain is built is turned into JSON then; data
paths are read from the form each time the step runs.
-/
namespace ActionChain

inductive Bound
  | literal (value : Json)
  /-- What the form holds at a dotted path at the time. -/
  | dataValue (path : String)
  /-- An object with the one member `prefill`. -/
  | prefill (inner : Bound)
  | array (items : List Bound)
  | object (members : List (String × Bound))
  deriving Repr, Inhabited

namespace Bound

def segments? : Argument → Option (List String)
  | .string path => some (pathParts path)
  | .array items => items.mapM Argument.string?
  | _ => none

/-- The dotted path an argument of `getDataValue` names. -/
def dataPath (a : Argument) : Except Fault String :=
  match segments? a with
  | some segments =>
    if segments.isEmpty || segments.any (·.isEmpty) then
      .error (.badArguments Argument.getDataValue (.path a))
    else .ok (String.intercalate "." segments)
  | none => .error (.badArguments Argument.getDataValue (.path a))

def literalOf (action : String) (a : Argument) : Except Fault Bound :=
  match a.json? with
  | some v => .ok (.literal v)
  | none => .error (.badArguments action (.notJson a))

mutual

/-- Binds an argument of `action`. Parts without calls become literals as a whole; of several
faults the first from the left is reported, a function's name and arity before its argument. -/
def bind (action : String) : Argument → Except Fault Bound
  | .array items =>
    if (Argument.array items).containsCall then .array <$> bindItems action items
    else literalOf action (.array items)
  | .object ms =>
    if (Argument.object ms).containsCall then .object <$> bindMembers action ms
    else literalOf action (.object ms)
  | .call name args =>
    if name = Argument.getDataValue then
      match args with
      | [path] => .dataValue <$> dataPath path
      | _ => .error (.badArguments name (.count .exactlyOne args.length))
    else if name = Argument.prefill then
      match args with
      | [inner] => .prefill <$> bind action inner
      | _ => .error (.badArguments name (.count .exactlyOne args.length))
    else .error (.unknownAction name)
  | a => literalOf action a

def bindItems (action : String) : List Argument → Except Fault (List Bound)
  | [] => .ok []
  | a :: rest => do return (← bind action a) :: (← bindItems action rest)

def bindMembers (action : String) :
    List (String × Argument) → Except Fault (List (String × Bound))
  | [] => .ok []
  | (k, a) :: rest => do return (k, ← bind action a) :: (← bindMembers action rest)

end

mutual

def value (read : String → Option Json) : Bound → Json
  | .literal v => v
  | .dataValue path => (read path).getD .null
  | .prefill inner => .object [(Argument.prefill, value read inner)]
  | .array items => .array (valueItems read items)
  | .object ms => .object (valueMembers read ms)

def valueItems (read : String → Option Json) : List Bound → List Json
  | [] => []
  | b :: rest => value read b :: valueItems read rest

def valueMembers (read : String → Option Json) : List (String × Bound) → List (String × Json)
  | [] => []
  | (k, b) :: rest => (k, value read b) :: valueMembers read rest

end

def literal? : Bound → Option Json
  | .literal v => some v
  | _ => none

def string? (b : Bound) : Option String := b.literal?.bind Json.string?
def number? (b : Bound) : Option Binary64 := b.literal?.bind Json.number?

end Bound

end ActionChain
