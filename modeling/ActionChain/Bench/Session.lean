import ActionChain.Bench.Stage
import ActionChain.Button

/-!
Sessions: a button on a stage, tried out step by step. After each step all that can run has run, and
what is new is reported.
-/
namespace ActionChain.Bench

structure Setup where
  id : String
  className : String
  location : String
  source : String
  settings : ButtonSettings
  /-- Whether the steps that leave marks are known. -/
  probes : Bool
  form : BenchForm
  /-- The type of the events that are logged, and the name of the listener that logs them. -/
  watch : String
  logId : String
  noteId : String

inductive SessionStep
  | activate (count : Nat)
  | advance (milliseconds : Nat)
  | drop (number : Nat)
  | act (a : HostAct)

inductive Answered
  | returned (r : Returned)
  | settled

/-- What is reported after a step. All but the state of the element is new since the last report. -/
structure Entry where
  answer : Answered
  clock : Nat
  className : String
  disabled : Bool
  location : String
  running : Bool
  events : List NotedEvent
  marks : List Mark
  settled : List (Nat × Ending)
  calls : List FormCall
  form : BenchForm

structure Session where
  fixed : Fixed
  button : Button Callback Stage fixed
  log : Nat
  reported : Nat := 0

namespace Session

/-- How deep listeners may call each other. -/
def depth : Nat := 10000

variable {fixed : Fixed}

def listening : React Callback Stage fixed := react depth

def catalogue (probes : Bool) : Catalogue (Step (BenchWorld fixed)) :=
  let actions := Catalogue.ofActions (Action.run listening)
  if probes then
    let rejects (text : String) : StepResult := .error (.rejected (.error (text ++ " rejected")))
    (((actions.register "mark" (labelStep "mark" fun _ input => .ok input)).register
      "fail" (labelStep "fail" fun text _ => rejects text)).register
      "halt" (labelStep "halt" fun _ _ => .error .aborted)).registerStep "probe" lookStep
  else actions

/-- Attaches the log, makes the button, and only then attaches the listener that notes events. -/
def start (s : Setup) : Except Fault Session := do
  let element : Element Callback :=
    { id := s.id, classes := .ofText s.className, location := s.location }
  let button ← Button.create s.settings element ⟨s.form, [], [], []⟩ (catalogue s.probes) s.source
  let (world, log) := attachLog s.logId s.watch button.world
  let target := world.element.target.add Event.anyType s.noteId .note
  return { fixed := _, button := { button with world := world.setTarget target }, log }

def doStep (s : Session) : SessionStep → Session × Answered
  | .activate count =>
    ({ s with button := (Nat.repeat Button.activate count s.button).settle }, .returned .nothing)
  | .advance ms => ({ s with button := s.button.advance ms }, .returned .nothing)
  | .drop n =>
    let (button, dropped) := s.button.drop n
    ({ s with button }, if dropped then .returned .nothing else .settled)
  | .act a =>
    let (world, r) := perform listening a s.button.world
    ({ s with button := { s.button with world }.settle }, .returned r)

def page (s : Session) : Stage := s.button.world.page

def calls (s : Session) : List FormCall :=
  match s.page.form with
  | .scripted f => f.calls
  | .routed _ => []

def report (s : Session) (answer : Answered) : Session × Entry :=
  let world := s.button.world
  let entry : Entry :=
    { answer
      clock := world.clock
      className := world.element.classes.text
      disabled := world.element.disabled
      location := world.element.location
      running := s.button.isRunning
      events := world.page.noted
      marks := world.page.marks
      settled := s.button.endings.mergeSort fun a b => a.1 ≤ b.1
      calls := s.calls.drop s.reported
      form := world.page.form }
  let world := { world with page := { world.page with noted := [], marks := [] } }
  ({ s with button := { s.button with world, endings := [] }, reported := s.calls.length }, entry)

def step (s : Session) (x : SessionStep) : Session × Entry :=
  let (s, answer) := s.doStep x
  s.report answer

def run (s : Session) : List SessionStep → Session × List Entry
  | [] => (s, [])
  | x :: rest =>
    let (s, entry) := s.step x
    let (s, entries) := run s rest
    (s, entry :: entries)

def eventLog (s : Session) : EventLog := s.page.logs.getD s.log []

/-- The session after its end: activations that have not ended are dropped. -/
def finish (s : Session) : Session := { s with button := s.button.dropAll }

end Session

end ActionChain.Bench
