import ActionChain.Action.Run
import ActionChain.Chain

/-!
Buttons. A button has its chains and the world they run in. Its activations may overlap; each is
numbered when it is started, runs until it waits, and restores the element once, when it ends.
-/
namespace ActionChain

inductive Ending
  | outcome (o : Outcome)
  | dropped
  deriving Repr

structure Running (σ : Type) where
  number : Nat
  paused : Paused σ

structure Button (κ η : Type) (fixed : Fixed) where
  chains : Chains (Step (World κ η fixed))
  world : World κ η fixed
  /-- How many activations are neither settled nor dropped. -/
  inFlight : Nat := 0
  started : Nat := 0
  running : List (Running (World κ η fixed)) := []
  /-- The activations that are over, in the order of their ends. -/
  endings : List (Nat × Ending) := []

namespace Button

variable {κ η : Type} {fixed : Fixed}

/-- A button for an element, as it is before anything has happened to it. -/
def ofChains (settings : ButtonSettings) (element : Element κ) (page : η)
    (chains : Chains (Step (World κ η ⟨settings, element.classes.text⟩))) :
    Button κ η ⟨settings, element.classes.text⟩ :=
  { chains, world := { element, page } }

def create (settings : ButtonSettings) (element : Element κ) (page : η)
    (catalogue : Catalogue (Step (World κ η ⟨settings, element.classes.text⟩)))
    (source : String) : Except Fault (Button κ η ⟨settings, element.classes.text⟩) :=
  match catalogue.compile source with
  | .ok chains => .ok (ofChains settings element page chains)
  | .error f => .error (.construction element.id f)

def success (b : Button κ η fixed) : List (Step (World κ η fixed)) :=
  b.chains.success.map (·.step)

def reject (b : Button κ η fixed) : List (Step (World κ η fixed)) :=
  b.chains.reject.map (·.step)

def isRunning (b : Button κ η fixed) : Bool := 0 < b.inFlight

def change (f : World κ η fixed → World κ η fixed) (b : Button κ η fixed) : Button κ η fixed :=
  { b with world := f b.world }

/-- Numbers a call that starts an activation, and counts it in. -/
def enter (b : Button κ η fixed) : Button κ η fixed :=
  { b with started := b.started + 1, inFlight := b.inFlight + 1 }

def skip (b : Button κ η fixed) : Button κ η fixed :=
  { b with started := b.started + 1, endings := b.endings ++ [(b.started, .outcome .skipped)] }

def putAside (number : Nat) (p : Paused (World κ η fixed)) (b : Button κ η fixed) :
    Button κ η fixed :=
  { b with running := b.running ++ [⟨number, p⟩] }

def takeUp (number : Nat) (b : Button κ η fixed) : Button κ η fixed :=
  { b with running := b.running.filter (·.number ≠ number) }

/-- Counts an activation out that was in flight. -/
def leave (number : Nat) (ending : Ending) (b : Button κ η fixed) : Button κ η fixed :=
  { b with inFlight := b.inFlight - 1, endings := b.endings ++ [(number, ending)] }

/-- Ends an activation that was in flight: the element is restored before it is counted out. -/
def finish (number : Nat) (ending : Ending) (b : Button κ η fixed) : Button κ η fixed :=
  (b.change World.restore).leave number ending

/-- Puts an activation where it belongs after it has run: aside, or to those that are over. -/
def place (number : Nat) (r : World κ η fixed × Status (World κ η fixed))
    (b : Button κ η fixed) : Button κ η fixed :=
  let b := b.change fun _ => r.1
  match r.2 with
  | .paused p => b.putAside number p
  | .ended o => b.finish number (.outcome o)

def isBusy (b : Button κ η fixed) : Bool := fixed.settings.reentrancy = .ignore && b.isRunning

def activate (b : Button κ η fixed) : Button κ η fixed :=
  if b.isBusy then b.skip
  else b.enter.place b.started (Activation.start b.success b.reject b.world)

def resume (ticket : Ticket) (signal : Signal) (b : Button κ η fixed) : Button κ η fixed :=
  match b.running.find? (·.paused.ticket = ticket) with
  | none => b
  | some r =>
    (b.takeUp r.number).place r.number (Activation.resume b.reject r.paused signal b.world)

/-- Gives up an activation that has not ended; says whether there was one. -/
def drop (number : Nat) (b : Button κ η fixed) : Button κ η fixed × Bool :=
  match b.running.find? (·.number = number) with
  | none => (b, false)
  | some r =>
    (((b.takeUp number).change (·.forget r.paused.ticket)).finish number .dropped, true)

-- The sum starts at the zero of core, whatever other zero is in scope.
attribute [local instance (high)] Zero.ofOfNat0

/-- How many waits there can be from now on, without further activations. -/
def waitsLeft (b : Button κ η fixed) : Nat :=
  b.running.length + (b.running.map fun r => Activation.stepsLeft b.reject r.paused).sum

/-- Resumes what has been woken, so many times at most. -/
def resumeWoken : Nat → Button κ η fixed → Button κ η fixed
  | 0, b => b
  | fuel + 1, b =>
    match b.world.woken with
    | [] => b
    | (ticket, signal) :: rest =>
      resumeWoken fuel ((b.change fun w => { w with woken := rest }).resume ticket signal)

/-- Resumes all that has been woken, in order, until every activation waits. -/
def settle (b : Button κ η fixed) : Button κ η fixed :=
  b.resumeWoken (b.world.woken.length + b.waitsLeft)

/-- Lets time pass from one end of a wait to the next, over so many of them at most. -/
def passTo (time : Nat) : Nat → Button κ η fixed → Button κ η fixed
  | 0, b => b.change fun w => { w with clock := time }
  | fuel + 1, b =>
    match b.world.nextDue? time with
    | none => b.change fun w => { w with clock := time }
    | some t => passTo time fuel (b.change fun w => { w with clock := t }.expire).settle

def advance (milliseconds : Nat) (b : Button κ η fixed) : Button κ η fixed :=
  b.passTo (b.world.clock + milliseconds) (b.waitsLeft + 1)

/-- Drops all activations that have not ended, in the order of their start. -/
def dropAll (b : Button κ η fixed) : Button κ η fixed :=
  ((b.running.map (·.number)).mergeSort).foldl (fun b n => (b.drop n).1) b

end Button

end ActionChain
