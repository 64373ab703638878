/-!
Members of objects: pairs of a key and a value, kept in ascending order of the keys, each key once.
Keys are compared by code points.
-/
namespace ActionChain

abbrev Members (α : Type u) := List (String × α)

namespace Members

variable {α : Type u}

def find? (key : String) (ms : Members α) : Option α := ms.lookup key

/-- Sets the value of a key, where the order wants it. -/
def put (key : String) (value : α) : Members α → Members α
  | [] => [(key, value)]
  | (k, v) :: rest =>
    if key < k then (key, value) :: (k, v) :: rest
    else if key = k then (key, value) :: rest
    else (k, v) :: put key value rest

/-- The members of a list of pairs; of several with one key the last counts. -/
def ofList (pairs : List (String × α)) : Members α :=
  pairs.foldl (fun ms (key, value) => put key value ms) []

def Sorted (ms : Members α) : Prop := ms.Pairwise (·.1 < ·.1)

end Members

end ActionChain
