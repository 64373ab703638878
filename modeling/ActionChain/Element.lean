import ActionChain.Event
import ActionChain.Text.Blank

/-!
The element of a button: its classes, whether it is disabled, and the page it is on.
-/
namespace ActionChain

/-- The classes of an element, in order, each once. -/
abbrev ClassList := List String

namespace ClassList

def add (c : String) (cs : ClassList) : ClassList := if c ∈ cs then cs else cs ++ [c]

def remove (c : String) (cs : ClassList) : ClassList := cs.filter (· ≠ c)

def toggle (c : String) (cs : ClassList) : ClassList := if c ∈ cs then cs.erase c else cs ++ [c]

/-- Whether toggling a class puts it on. -/
def togglesOn (c : String) (cs : ClassList) : Bool := c ∉ cs

/-- The words of a class attribute; a repeated word counts where it stands first. -/
def ofText (s : String) : ClassList :=
  ((Text.words s.toList).map String.ofList).foldl (fun cs c => add c cs) []

def text (cs : ClassList) : String := String.intercalate " " cs

end ClassList

structure Element (κ : Type) where
  id : String
  classes : ClassList := []
  disabled : Bool := false
  /-- The address of the page, as last navigated to. -/
  location : String := ""
  target : EventTarget κ := {}

end ActionChain
