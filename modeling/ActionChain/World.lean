import ActionChain.Action.Basic
import ActionChain.Activation
import ActionChain.Element
import ActionChain.Settings.Basic

/-!
What the steps of a button act on: its element, the page around it with its form, and the waits that
are pending. Time is counted in whole milliseconds.

A sleep takes the slot, and only the sleep in the slot can be cancelled. An abort cancels it, and all
submissions that wait for an answer. What has been woken is resumed later, in order.
-/
namespace ActionChain

/-- The answer to a submission: a response, or none when nothing was sent. -/
abbrev Answer := Except Fault (Option Response)

/-- When a submission is answered. An abort ends the wait. -/
inductive Reply
  | now (answer : Answer)
  | later (milliseconds : Nat) (answer : Answer)
  | never

class Form (η : Type) where
  value? : η → String → Option Json
  submit : η → Option Json → η × Reply
  reset : η → η
  clearErrors : η → η
  abort : η → η

inductive WaitKind
  | sleep
  | submission
  deriving DecidableEq, Repr

structure Wait where
  ticket : Ticket
  kind : WaitKind
  due : Option Nat
  deriving DecidableEq, Repr

/-- What is fixed when a button is made. No step can change it. -/
structure Fixed where
  settings : ButtonSettings
  /-- The class attribute that every activation restores at its end. -/
  initialClass : String

/-- The waits that are pending ascend by their tickets. -/
structure World (κ η : Type) (fixed : Fixed) where
  element : Element κ
  page : η
  clock : Nat := 0
  nextTicket : Ticket := 0
  pending : List Wait := []
  slot : Option Ticket := none
  woken : List (Ticket × Signal) := []

abbrev React (κ η : Type) (fixed : Fixed) := κ → Event → World κ η fixed → World κ η fixed

namespace World

variable {κ η : Type} {fixed : Fixed}

section Element

def setClasses (w : World κ η fixed) (cs : ClassList) : World κ η fixed :=
  { w with element := { w.element with classes := cs } }

def changeClasses (change : ClassList → ClassList) (w : World κ η fixed) : World κ η fixed :=
  w.setClasses (change w.element.classes)

def setDisabled (w : World κ η fixed) (disabled : Bool) : World κ η fixed :=
  { w with element := { w.element with disabled } }

def setTarget (w : World κ η fixed) (target : EventTarget κ) : World κ η fixed :=
  { w with element := { w.element with target } }

def dispatch (react : React κ η fixed) (e : Event) (w : World κ η fixed) : World κ η fixed × Nat :=
  w.element.target.dispatch react e w

def navigate (react : React κ η fixed) (url : String) (w : World κ η fixed) : World κ η fixed :=
  ({ w with element := { w.element with location := url } }.dispatch react (.navigate url)).1

/-- Gives the element back the look it had before any activation, and enables it. -/
def restore (w : World κ η fixed) : World κ η fixed :=
  (w.setClasses (.ofText fixed.initialClass)).setDisabled false

/-- Follows the validity of the form, if the settings want it. -/
def autoDisable (w : World κ η fixed) (valid : Bool) : World κ η fixed :=
  if fixed.settings.autoDisable then w.setDisabled !valid else w

end Element

section Waits

def wait (kind : WaitKind) (milliseconds : Option Nat) (w : World κ η fixed) : World κ η fixed :=
  { w with
    pending := w.pending ++ [⟨w.nextTicket, kind, milliseconds.map (w.clock + ·)⟩]
    nextTicket := w.nextTicket + 1 }

/-- The first whole millisecond at which a pause is over. -/
def milliseconds (pause : Micros) : Nat := (pause + 999) / 1000

def afterSleep (value : Option Response) : Signal → StepResult
  | .expired => .ok value
  | .cancelled => .error .aborted

/-- Pauses, then hands a value on. A pause of no length takes the slot and leaves it at once. -/
def sleep (pause : Micros) (value : Option Response) (w : World κ η fixed) :
    World κ η fixed × Progress (World κ η fixed) :=
  if pause = 0 then ({ w with slot := none, nextTicket := w.nextTicket + 1 }, .settled (.ok value))
  else
    ({ w.wait .sleep (some (milliseconds pause)) with slot := some w.nextTicket },
      .waits w.nextTicket fun signal w => (w, afterSleep value signal))

/-- Cancels the sleep in the slot, and says whether there was one. -/
def cancelSleep (w : World κ η fixed) : World κ η fixed × Bool :=
  match w.slot with
  | none => (w, false)
  | some t =>
    if w.pending.any (·.ticket = t) then
      ({ w with
        slot := none
        pending := w.pending.filter (·.ticket ≠ t)
        woken := w.woken ++ [(t, .cancelled)] }, true)
    else ({ w with slot := none }, false)

def cancelSubmissions (w : World κ η fixed) : World κ η fixed :=
  let cancelled := w.pending.filter (·.kind = .submission)
  { w with
    pending := w.pending.filter (·.kind ≠ .submission)
    woken := w.woken ++ cancelled.map fun p => (p.ticket, .cancelled) }

/-- Aborts what is going on: the sleep in the slot, and the submissions of the form. -/
def abort [Form η] (w : World κ η fixed) : World κ η fixed :=
  let w := w.cancelSleep.1
  { w with page := Form.abort w.page }.cancelSubmissions

def isDue (now : Nat) (p : Wait) : Bool := p.due.any (· ≤ now)

def expire (w : World κ η fixed) : World κ η fixed :=
  let ended := w.pending.filter (isDue w.clock)
  { w with
    pending := w.pending.filter fun p => !isDue w.clock p
    slot := w.slot.filter fun t => !ended.any (·.ticket = t)
    woken := w.woken ++ ended.map fun p => (p.ticket, .expired) }

/-- Forgets a wait that nobody waits for any more. The slot is left as it is. -/
def forget (ticket : Ticket) (w : World κ η fixed) : World κ η fixed :=
  { w with
    pending := w.pending.filter (·.ticket ≠ ticket)
    woken := w.woken.filter (·.1 ≠ ticket) }

def nextDue? (limit : Nat) (w : World κ η fixed) : Option Nat :=
  ((w.pending.filterMap (·.due)).filter (· ≤ limit)).min?

end Waits

/-- What a submission makes of its answer. Every status but 200 rejects. -/
def concluded : Answer → StepResult
  | .ok (some r) => if r.isOk then .ok (some r) else .error (.rejected (.response r))
  | .ok none => .error (.rejected .noResponse)
  | .error f => .error f.failure

def answered (answer : Answer) : Signal → StepResult
  | .expired => concluded answer
  | .cancelled => .error .aborted

def submit [Form η] (extra : Option Json) (w : World κ η fixed) :
    World κ η fixed × Progress (World κ η fixed) :=
  let (page, reply) := Form.submit w.page extra
  let w := { w with page }
  let waiting (due : Option Nat) (answer : Answer) : World κ η fixed × Progress (World κ η fixed) :=
    (w.wait .submission due, .waits w.nextTicket fun signal w => (w, answered answer signal))
  match reply with
  | .now answer => (w, .settled (concluded answer))
  | .later ms answer => if ms = 0 then (w, .settled (concluded answer)) else waiting (some ms) answer
  | .never => waiting none (.error .aborted)

end World

end ActionChain
