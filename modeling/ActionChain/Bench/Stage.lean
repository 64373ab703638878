import ActionChain.Bench.EventLog
import ActionChain.Bench.RoutedForm
import ActionChain.Bench.ScriptedForm
import ActionChain.Catalogue

/-!
The stage a button is tried out on: a form, logs of the events of its element, and marks that steps
leave. The page may change anything at any time, also from within a listener.
-/
namespace ActionChain.Bench

inductive BenchForm
  | scripted (f : ScriptedForm)
  | routed (f : RoutedForm)

namespace BenchForm

def mapScripted (change : ScriptedForm → ScriptedForm) : BenchForm → BenchForm
  | .scripted f => .scripted (change f)
  | f => f

def mapRouted (change : RoutedForm → RoutedForm) : BenchForm → BenchForm
  | .routed f => .routed (change f)
  | f => f

instance : Form BenchForm where
  value?
    | .scripted f => Form.value? f
    | .routed f => Form.value? f
  submit
    | .scripted f, extra => let (f, r) := Form.submit f extra; (.scripted f, r)
    | .routed f, extra => let (f, r) := Form.submit f extra; (.routed f, r)
  reset
    | .scripted f => .scripted (Form.reset f)
    | .routed f => .routed (Form.reset f)
  clearErrors
    | .scripted f => .scripted (Form.clearErrors f)
    | .routed f => .routed (Form.clearErrors f)
  abort
    | .scripted f => .scripted (Form.abort f)
    | .routed f => .routed (Form.abort f)

end BenchForm

/-- What the page does to a button from outside. -/
inductive HostAct
  | abort
  | cancelSleep
  | autoDisable (valid : Bool)
  | setClass (text : String)
  | addClass (name : String)
  | removeClass (name : String)
  | setDisabled (disabled : Bool)
  | navigate (url : String)
  | dispatch (e : Event)
  | listen (type id : String) (acts : List HostAct)
  | unlisten (type id : String)
  | setData (value : Json)
  | pushReply (r : ScriptedReply)
  | setField (name : String) (value : Json)
  | setValid (valid : Bool)
  deriving Inhabited

inductive Callback
  | log (number : Nat)
  /-- Notes it with the look of the element. -/
  | note
  | acts (all : List HostAct)

structure NotedEvent where
  event : Event
  className : String
  disabled : Bool

inductive Mark
  | label (text : String)
  /-- The look of the element, and the input of the step. -/
  | look (className : String) (disabled : Bool) (initial : String) (input : Option Response)

structure Stage where
  form : BenchForm
  logs : List EventLog := []
  noted : List NotedEvent := []
  marks : List Mark := []

abbrev BenchWorld := World Callback Stage

instance : Form Stage where
  value? s := Form.value? s.form
  submit s extra := let (form, r) := Form.submit s.form extra; ({ s with form }, r)
  reset s := { s with form := Form.reset s.form }
  clearErrors s := { s with form := Form.clearErrors s.form }
  abort s := { s with form := Form.abort s.form }

inductive Returned
  | nothing
  | flag (b : Bool)
  | count (n : Nat)

variable {fixed : Fixed}

def mapForm (change : BenchForm → BenchForm) (w : BenchWorld fixed) : BenchWorld fixed :=
  { w with page := { w.page with form := change w.page.form } }

def perform (react : React Callback Stage fixed) (a : HostAct) (w : BenchWorld fixed) :
    BenchWorld fixed × Returned :=
  match a with
  | .abort => (w.abort, .nothing)
  | .cancelSleep => let (w, b) := w.cancelSleep; (w, .flag b)
  | .autoDisable valid => (w.autoDisable valid, .nothing)
  | .setClass text => (w.setClasses (.ofText text), .nothing)
  | .addClass c => (w.changeClasses (·.add c), .nothing)
  | .removeClass c => (w.changeClasses (·.remove c), .nothing)
  | .setDisabled disabled => (w.setDisabled disabled, .nothing)
  | .navigate url => (w.navigate react url, .nothing)
  | .dispatch e => let (w, n) := w.dispatch react e; (w, .count n)
  | .listen type id acts => (w.setTarget (w.element.target.add type id (.acts acts)), .nothing)
  | .unlisten type id =>
    let (target, b) := w.element.target.remove type id
    (w.setTarget target, .flag b)
  | .setData value => (mapForm (.mapScripted fun f => { f with data := value }) w, .nothing)
  | .pushReply r => (mapForm (.mapScripted (·.pushReply r)) w, .nothing)
  | .setField name value => (mapForm (.mapRouted (·.setField name value)) w, .nothing)
  | .setValid valid => (mapForm (.mapRouted fun f => { f with valid }) w, .nothing)

def note (e : Event) (w : BenchWorld fixed) : BenchWorld fixed :=
  let noted : NotedEvent := ⟨e, w.element.classes.text, w.element.disabled⟩
  { w with page := { w.page with noted := w.page.noted ++ [noted] } }

def writeLog (number : Nat) (e : Event) (w : BenchWorld fixed) : BenchWorld fixed :=
  { w with page := { w.page with logs := w.page.logs.modify number (· ++ [e]) } }

/-- Calls a callback. Listeners that act may call each other, so deep at most. -/
def react : Nat → React Callback Stage fixed
  | _, .log number, e, w => writeLog number e w
  | _, .note, e, w => note e w
  | 0, .acts _, _, w => w
  | depth + 1, .acts all, _, w => all.foldl (fun w a => (perform (react depth) a w).1) w

/-- Starts a log of the events of a type. A log attached before for the same type ends. -/
def attachLog (id type : String) (w : BenchWorld fixed) : BenchWorld fixed × Nat :=
  let number := w.page.logs.length
  let w := { w with page := { w.page with logs := w.page.logs ++ [[]] } }
  (w.setTarget (w.element.target.add type id (.log number)), number)

def mark (m : Mark) (w : BenchWorld fixed) : BenchWorld fixed :=
  { w with page := { w.page with marks := w.page.marks ++ [m] } }

/-- A step that leaves a label, and how it ends. -/
def labelStep (name : String) (ending : String → Option Response → StepResult) :
    Maker (Step (BenchWorld fixed)) := fun args =>
  match args with
  | [b] =>
    let text := b.string?.getD ""
    .ok fun input w => (mark (.label text) w, .settled (ending text input))
  | _ => .error (.badArguments name .label)

/-- A step that leaves the look of the element and hands its input on. -/
def lookStep : Step (BenchWorld fixed) := fun input w =>
  (mark (.look w.element.classes.text w.element.disabled fixed.initialClass input) w,
    .settled (.ok input))

end ActionChain.Bench
