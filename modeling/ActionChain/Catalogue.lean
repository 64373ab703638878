import ActionChain.Action.Basic

/-!
Catalogues of actions. A catalogue maps a name to a maker, which looks at the bound arguments of a
call and makes a step or refuses. What a step is, the catalogue does not know.
-/
namespace ActionChain

abbrev Maker (τ : Type) := List Bound → Except Fault τ

/-- Makers by name; a name has one. -/
structure Catalogue (τ : Type) where
  makers : Members (Maker τ)

namespace Catalogue

variable {τ : Type}

def empty : Catalogue τ := ⟨[]⟩

def register (c : Catalogue τ) (name : String) (maker : Maker τ) : Catalogue τ :=
  ⟨c.makers.put name maker⟩

def registerStep (c : Catalogue τ) (name : String) (step : τ) : Catalogue τ :=
  c.register name fun args =>
    if args.isEmpty then .ok step else .error (.badArguments name (.count .none args.length))

def find? (c : Catalogue τ) (name : String) : Option (Maker τ) := Members.find? name c.makers

def contains (c : Catalogue τ) (name : String) : Bool := (c.find? name).isSome

def create (c : Catalogue τ) (name : String) (args : List Bound) : Except Fault τ :=
  match c.find? name with
  | some maker => maker args
  | none => .error (.unknownAction name)

/-- The names in ascending order. -/
def names (c : Catalogue τ) : List String := c.makers.map (·.1)

def size (c : Catalogue τ) : Nat := c.makers.length

/-- All actions, as steps of a kind that embeds them. -/
def ofActions (embed : Action → τ) : Catalogue τ :=
  Action.names.foldl (fun c name => c.register name fun args => embed <$> Action.ofCall name args)
    empty

def actions : Catalogue Action := ofActions id

def text (c : Catalogue τ) : String :=
  "ActionRegistry \x7b actions: [" ++ String.intercalate ", " (c.names.map Text.quoted) ++ "] \x7d"

end Catalogue

end ActionChain
