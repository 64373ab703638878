import ActionChain.Json.Basic

/-!
Events and those who listen to them. Listeners are called in the order in which they were added. A
callback is any value; what calling it does is said where an event is dispatched.
-/
namespace ActionChain

structure Event where
  type : String
  detail : Json
  deriving Repr, Inhabited

namespace Event

def anyType : String := "*"

def navigateType : String := "navigate"

def navigate (url : String) : Event := ⟨navigateType, .object [("url", .string url)]⟩

def navigationUrl? (e : Event) : Option String :=
  if e.type = navigateType then (e.detail.member? "url").bind Json.string? else none

end Event

/-- A callback for events of a type. No two listeners share both type and name. -/
structure Listener (κ : Type) where
  type : String
  id : String
  callback : κ
  deriving Repr

namespace Listener

variable {κ : Type}

def isFor (l : Listener κ) (type id : String) : Bool := l.type = type && l.id = id

def hears (l : Listener κ) (type : String) : Bool := l.type = type || l.type = Event.anyType

end Listener

structure EventTarget (κ : Type) where
  listeners : List (Listener κ) := []

namespace EventTarget

variable {κ σ : Type}

/-- Puts a listener in the place of the one with its type and name, or else at the end. -/
def place (l : Listener κ) : List (Listener κ) → List (Listener κ)
  | [] => [l]
  | m :: rest => if m.isFor l.type l.id then l :: rest else m :: place l rest

def add (t : EventTarget κ) (type id : String) (callback : κ) : EventTarget κ :=
  ⟨place ⟨type, id, callback⟩ t.listeners⟩

/-- The target without a listener, and whether there was one to remove. -/
def remove (t : EventTarget κ) (type id : String) : EventTarget κ × Bool :=
  (⟨t.listeners.filter fun l => !l.isFor type id⟩, t.listeners.any (·.isFor type id))

/-- How many listeners there are for exactly this type. -/
def count (t : EventTarget κ) (type : String) : Nat := t.listeners.countP (·.type = type)

/-- The callbacks an event of this type reaches, in order. -/
def callbacks (t : EventTarget κ) (type : String) : List κ :=
  (t.listeners.filter (·.hears type)).map (·.callback)

/-- Calls the callbacks that an event reaches when it is dispatched, one after the other, and counts
them. What a callback does to the target has no influence on this dispatch. -/
def dispatch (call : κ → Event → σ → σ) (t : EventTarget κ) (e : Event) (s : σ) : σ × Nat :=
  let reached := t.callbacks e.type
  (reached.foldl (fun s k => call k e s) s, reached.length)

def text (t : EventTarget κ) : String :=
  "EventTarget \x7b listeners: " ++ toString t.listeners.length ++ " \x7d"

end EventTarget

end ActionChain
