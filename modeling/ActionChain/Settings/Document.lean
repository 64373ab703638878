import ActionChain.Settings.Basic
import ActionChain.Settings.Record

/-!
Settings as JSON documents. A document that is laid over the defaults changes what it names and
keeps the rest: `Settings.ofLayer`.
-/
namespace ActionChain

-- Powers are those of core, whatever others are in scope; so literal exponents show their type.
attribute [local instance (high)] instPowNat

namespace Json

def readBool : Json → Except DecodeFault Bool
  | .bool b => .ok b
  | v => .error (.kind v "a boolean")

def readString : Json → Except DecodeFault String
  | .string s => .ok s
  | v => .error (.kind v "a string")

def readWord (v : Json) : Except DecodeFault UInt64 :=
  match v with
  | .int n =>
    if 0 ≤ n ∧ n < 2 ^ (64 : Nat) then .ok (UInt64.ofNat n.toNat) else .error (.range v "u64")
  | _ => .error (.kind v "u64")

def readMembers : Json → Except DecodeFault (Members Json)
  | .object ms => .ok ms
  | v => .error (.kind v "a map")

mutual

/-- Lays one value over another. Objects are merged member by member; anything else in the layer
takes the place of what was there. -/
def overlay : Json → Json → Json
  | .object ms, .object layer => .object (overlayMembers ms layer)
  | _, v => v

def overlayMembers (ms : Members Json) : List (String × Json) → Members Json
  | [] => ms
  | (k, v) :: rest =>
    let value := match ms.find? k with
      | some below => overlay below v
      | none => v
    overlayMembers (ms.put k value) rest

end

end Json

namespace Reentrancy

def ofName (name : String) : Except DecodeFault Reentrancy :=
  match ofName? name with
  | some policy => .ok policy
  | none => .error (.choice name (all.map text))

/-- A policy by its name, or as the only key of an object, with null. -/
def ofJson : Json → Except DecodeFault Reentrancy
  | .string name => ofName name
  | .object [(name, v)] => do
    let policy ← ofName name
    match v with
    | .null => return policy
    | v => .error (.kind v "unit")
  | .object ms => .error (.range (.object ms) "map with a single key")
  | v => .error (.kind v "string or map")

end Reentrancy

namespace ButtonSettings

def toJson (s : ButtonSettings) : Json :=
  .object (Members.ofList [
    ("auto_disable", .bool s.autoDisable),
    ("reentrancy", .string s.reentrancy.text),
    ("spinner_class", .string s.spinnerClass),
    ("okay_class", .string s.okayClass),
    ("bummer_class", .string s.bummerClass),
    ("okay_delay_ms", .int s.okayDelay.toNat),
    ("bummer_delay_ms", .int s.bummerDelay.toNat)])

def record : Record ButtonSettings where
  name := "ButtonSettings"
  fields := [
    ⟨"auto_disable", fun v s => do return { s with autoDisable := ← v.readBool }⟩,
    ⟨"reentrancy", fun v s => do return { s with reentrancy := ← Reentrancy.ofJson v }⟩,
    ⟨"spinner_class", fun v s => do return { s with spinnerClass := ← v.readString }⟩,
    ⟨"okay_class", fun v s => do return { s with okayClass := ← v.readString }⟩,
    ⟨"bummer_class", fun v s => do return { s with bummerClass := ← v.readString }⟩,
    ⟨"okay_delay_ms", fun v s => do return { s with okayDelay := ← v.readWord }⟩,
    ⟨"bummer_delay_ms", fun v s => do return { s with bummerDelay := ← v.readWord }⟩]
  blank := {}

end ButtonSettings

namespace Settings

def toJson (s : Settings) : Json :=
  .object (Members.ofList [
    ("debug", .bool s.debug),
    ("log_level", .string s.logLevel),
    ("button", s.button.toJson),
    ("extra", .object s.extra)])

def record : Record Settings where
  name := "FormsetSettings"
  fields := [
    ⟨"debug", fun v s => do return { s with debug := ← v.readBool }⟩,
    ⟨"log_level", fun v s => do return { s with logLevel := ← v.readString }⟩,
    ⟨"button", fun v s => do return { s with button := ← ButtonSettings.record.read v }⟩,
    ⟨"extra", fun v s => do return { s with extra := ← v.readMembers }⟩]
  blank := {}

def ofLayer (layer : Json) : Except DecodeFault Settings :=
  record.read (Json.overlay (toJson {}) layer)

end Settings

end ActionChain
