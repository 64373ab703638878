import ActionChain.Json.Basic

/-!
Tables while a document is read. A table is written by a header, passed on the way to a deeper one,
or made by a dotted key; where it comes from decides who may add to it later.
-/
namespace ActionChain.Toml

inductive Origin
  | written
  | passed
  | dotted
  deriving DecidableEq, Repr

inductive Item
  | value (v : Json)
  | table (origin : Origin) (members : List (String × Item))
  | tables (all : List (List (String × Item)))
  deriving Repr, Inhabited

namespace Item

mutual

def toJson : Item → Json
  | .value v => v
  | .table _ ms => .object (membersToJson ms)
  | .tables all => .array (allToJson all)

def membersToJson : List (String × Item) → List (String × Json)
  | [] => []
  | (k, i) :: rest => (k, toJson i) :: membersToJson rest

def allToJson : List (List (String × Item)) → List Json
  | [] => []
  | ms :: rest => .object (membersToJson ms) :: allToJson rest

end

end Item

/-- A change of a table of known origin, unless it is not allowed. -/
abbrev Change := Origin → Members Item → Option (Members Item)

/-- Changes the table at a key, which is made if there is none; of several tables the last. A dotted
key does not reach into a table with a header of its own. -/
def below (dotted : Bool) (key : String) (change : Change) (ms : Members Item) :
    Option (Members Item) :=
  match ms.find? key with
  | none => do
    let origin := if dotted then .dotted else .passed
    return ms.put key (.table origin (← change origin []))
  | some (.table origin inner) =>
    if dotted && origin = .written then none
    else do return ms.put key (.table origin (← change origin inner))
  | some (.tables all) => do
    return ms.put key (.tables (all.dropLast ++ [← change .written (← all.getLast?)]))
  | some (.value _) => none

def atPath (dotted : Bool) : List String → Change → Change
  | [], change => change
  | key :: path, change => fun _ ms => below dotted key (atPath dotted path change) ms

/-- Sets a key at the end of a dotted path. The key must be new, and the table at the path one that
dotted keys have made. -/
def assign (path : List String) (key : String) (v : Json) (ms : Members Item) :
    Option (Members Item) :=
  atPath true path (fun origin ms =>
    if !path.isEmpty && origin ≠ .dotted then none
    else if (ms.find? key).isSome then none
    else some (ms.put key (.value v))) .written ms

/-- Opens a table by its header. It must be new, or only passed before. -/
def openTable (path : List String) (key : String) (root : Members Item) : Option (Members Item) :=
  atPath false path (fun _ ms =>
    match ms.find? key with
    | none => some (ms.put key (.table .written []))
    | some (.table .passed inner) => some (ms.put key (.table .written inner))
    | some _ => none) .written root

/-- Opens a further table of an array of tables. -/
def openFurther (path : List String) (key : String) (root : Members Item) : Option (Members Item) :=
  atPath false path (fun _ ms =>
    match ms.find? key with
    | none => some (ms.put key (.tables [[]]))
    | some (.tables all) => some (ms.put key (.tables (all ++ [[]])))
    | some _ => none) .written root

end ActionChain.Toml
