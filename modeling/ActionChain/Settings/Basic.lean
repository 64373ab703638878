import ActionChain.Fault
import ActionChain.Text.Blank
import ActionChain.Text.LowerCase

/-!
Settings of buttons and of the whole, with their defaults. Settings are fixed once: by configuring
them before anyone has read them, or by the first reading.
-/
namespace ActionChain

/-- What happens when a button is activated while an activation of it is pending. -/
inductive Reentrancy
  | allow
  | ignore
  deriving DecidableEq, Repr

namespace Reentrancy

def text : Reentrancy → String
  | .allow => "allow"
  | .ignore => "ignore"

def all : List Reentrancy := [.allow, .ignore]

def ofName? (name : String) : Option Reentrancy := all.find? (·.text = name)

/-- The policy a text names, in any case and with blanks around it. -/
def read (s : String) : Except ConfigFault Reentrancy :=
  let name := Text.lower (String.ofList (Text.trim s.toList))
  match ofName? name with
  | some policy => .ok policy
  | none => .error (.policy name)

end Reentrancy

structure ButtonSettings where
  /-- Whether the button is disabled while its form is invalid. -/
  autoDisable : Bool := false
  reentrancy : Reentrancy := .allow
  spinnerClass : String := "dj-submitting"
  okayClass : String := "dj-okay"
  bummerClass : String := "dj-bummer"
  /-- The pause of `okay()` without an argument, in milliseconds. -/
  okayDelay : UInt64 := 0
  bummerDelay : UInt64 := 0
  deriving DecidableEq, Repr

/-- The classes that `okay` and `bummer` take off before they put theirs on. -/
def ButtonSettings.decorators (s : ButtonSettings) : List String :=
  [s.spinnerClass, s.okayClass, s.bummerClass]

structure Settings where
  debug : Bool := true
  logLevel : String := "info"
  button : ButtonSettings := {}
  /-- Whatever else the host keeps here. -/
  extra : Members Json := []
  deriving Repr

/-- Settings, or none yet. -/
structure SettingsCell where
  settled : Option Settings

namespace SettingsCell

def fresh : SettingsCell := ⟨none⟩

def isConfigured (c : SettingsCell) : Bool := c.settled.isSome

def configure? (c : SettingsCell) (s : Settings) : Option SettingsCell :=
  match c.settled with
  | none => some ⟨some s⟩
  | some _ => none

def read (c : SettingsCell) : Settings × SettingsCell :=
  let s := c.settled.getD {}
  (s, ⟨some s⟩)

end SettingsCell

end ActionChain
