import ActionChain.Json.Reader
import ActionChain.Settings.Document
import ActionChain.Toml.Document

/-!
Settings from a file and the environment. The file is laid over the defaults; a variable that is set
has the last word.
-/
namespace ActionChain

abbrev Environment := String → Option String

/-- A file as it is found: its path, and its text or the reason why it cannot be read. -/
structure SettingsFile where
  path : String
  content : Except String String

namespace Format

/-- The last part of a path, unless that is a directory above. -/
def fileName (path : String) : List Char :=
  let parts := (Text.split '/' path.toList).filter fun part => part ≠ [] && part ≠ ['.']
  match parts.getLast? with
  | some ['.', '.'] | none => []
  | some name => name

/-- What follows the last dot of a file name, if something stands before that dot. -/
def extension (path : String) : Option (List Char) :=
  match Text.split '.' (fileName path) with
  | [] | [_] | [[], _] => none
  | parts => parts.getLast?

def ofPath? (path : String) : Option Format :=
  match extension path with
  | some ['t', 'o', 'm', 'l'] => some .toml
  | some ['j', 's', 'o', 'n'] => some .json
  | _ => none

def read? : Format → String → Option Json
  | .toml => Toml.read?
  | .json => Json.read?

end Format

namespace Settings

def ofText (format : Format) (text : String) : Except ConfigFault Settings :=
  match format.read? text with
  | none => .error (.invalid format)
  | some layer => match ofLayer layer with
    | .ok s => .ok s
    | .error why => .error (.unusable format why)

def ofFile (file : SettingsFile) : Except ConfigFault Settings :=
  match Format.ofPath? file.path, file.content with
  | none, _ => .error (.unsupported file.path)
  | some format, .error reason => .error (.unreadable format file.path reason)
  | some format, .ok text => ofText format text

def debugVariable : String := "FORMSET_DEBUG"
def logLevelVariable : String := "FORMSET_LOG_LEVEL"
def autoDisableVariable : String := "FORMSET_AUTO_DISABLE"
def reentrancyVariable : String := "FORMSET_REENTRANCY"

def variableNames : List String :=
  [debugVariable, logLevelVariable, autoDisableVariable, reentrancyVariable]

/-- Three words stand for true, in any case; everything else for false. -/
def isTrueWord (s : String) : Bool := ["true", "1", "yes"].contains (Text.lower s)

/-- Lets the variables that are set replace what they stand for. -/
def withEnvironment (env : Environment) (s : Settings) : Except ConfigFault Settings := do
  let s := match env debugVariable with
    | some v => { s with debug := isTrueWord v }
    | none => s
  let s := match env logLevelVariable with
    | some v => { s with logLevel := v }
    | none => s
  let s := match env autoDisableVariable with
    | some v => { s with button := { s.button with autoDisable := isTrueWord v } }
    | none => s
  match env reentrancyVariable with
  | some v => match Reentrancy.read v with
    | .ok policy => return { s with button := { s.button with reentrancy := policy } }
    | .error why => .error (.environment reentrancyVariable why)
  | none => return s

def load (file : Option SettingsFile) (env : Environment) : Except ConfigFault Settings := do
  let s ← match file with
    | some f => ofFile f
    | none => pure {}
  s.withEnvironment env

end Settings

end ActionChain
