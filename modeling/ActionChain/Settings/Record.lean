import ActionChain.Settings.DecodeFault

/-!
Records read from JSON, either from an object, its members in any order and unknown ones passed
over, or from an array of the fields in the order of their declaration.
-/
namespace ActionChain

/-- A field by name, and how its value is put into the record. -/
structure Field (ρ : Type) where
  name : String
  set : Json → ρ → Except DecodeFault ρ

structure Record (ρ : Type) where
  name : String
  fields : List (Field ρ)
  blank : ρ

namespace Record

variable {ρ : Type}

def described (r : Record ρ) : String := "struct " ++ r.name

def setMember (r : Record ρ) (value : ρ) (member : String × Json) : Except DecodeFault ρ :=
  match r.fields.find? (·.name = member.1) with
  | some f => f.set member.2 value
  | none => .ok value

/-- Reads the members in their order; only then a missing field is a fault. -/
def ofMembers (r : Record ρ) (ms : Members Json) : Except DecodeFault ρ := do
  let value ← ms.foldlM r.setMember r.blank
  match r.fields.find? fun f => (ms.find? f.name).isNone with
  | some f => .error (.missing f.name)
  | none => return value

/-- Reads as many items as there are fields; only then their number is a fault. -/
def ofItems (r : Record ρ) (items : List Json) : Except DecodeFault ρ := do
  let wanted := r.fields.length
  let value ← (r.fields.zip items).foldlM (fun value (f, v) => f.set v value) r.blank
  if items.length < wanted then
    .error (.length items.length (r.described ++ " with " ++ toString wanted ++ " elements"))
  else if wanted < items.length then
    .error (.length items.length "fewer elements in array")
  else return value

def read (r : Record ρ) : Json → Except DecodeFault ρ
  | .object ms => r.ofMembers ms
  | .array items => r.ofItems items
  | v => .error (.kind v r.described)

end Record

end ActionChain
