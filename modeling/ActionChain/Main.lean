import ActionChain.CommandLine.Run
import ActionChain.CommandLine.Usage
import ActionChain.Settings.Load

/-!
The program. It reads its arguments, the settings file and the environment, runs the command, and
writes the report. The exit status is 1 after a fault and 2 when the arguments are refused.
-/
namespace ActionChain

/-- The variables that override settings, with their values. -/
def readEnvironment : IO Environment := do
  let found ← Settings.variableNames.mapM fun name => return (name, ← IO.getEnv name)
  return fun name => (found.lookup name).join

def readSettings (path : String) : IO SettingsFile := do
  let content ← try
      Except.ok <$> IO.FS.readFile path
    catch
      | .noFileOrDirectory .. => pure (.error "No such file or directory (os error 2)")
      | e => pure (.error (toString e))
  return ⟨path, content⟩

def runInvocation (inv : Invocation) : IO UInt32 := do
  let file ← inv.settings.mapM readSettings
  match Settings.load file (← readEnvironment) with
  | .error why =>
    IO.eprintln (Fault.configuration why).message
    return 1
  | .ok _ =>
    let report := inv.run CommandName.all
    IO.print report.text
    match report.fault with
    | some f =>
      IO.eprintln f.message
      return 1
    | none => return 0

end ActionChain

open ActionChain in
def main (args : List String) : IO UInt32 := do
  match Invocation.ofArgs args with
  | .ok inv => runInvocation inv
  | .error why =>
    if why.isWanted then
      IO.print why.text
      return 0
    else
      IO.eprint why.text
      return 2
