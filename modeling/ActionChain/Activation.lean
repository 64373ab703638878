import ActionChain.Response

/-!
Activations: the run of a success chain and, when that is rejected, of a reject chain. A step works
on a state that it shares with everything else. It is done at once, or it waits; then the activation
is put aside as a value, and goes on when the wait has ended.
-/
namespace ActionChain

/-- The number of a wait. Later waits have higher numbers. -/
abbrev Ticket := Nat

inductive Signal
  /-- What was waited for has come. -/
  | expired
  | cancelled
  deriving DecidableEq, Repr

inductive Progress (σ : Type) where
  | settled (r : StepResult)
  | waits (ticket : Ticket) (resume : Signal → σ → σ × StepResult)

abbrev Step (σ : Type) := Option Response → σ → σ × Progress σ

inductive Outcome
  | fulfilled (value : Option Response)
  | recovered (value : Option Response)
  | rejected (why : Rejection)
  | aborted
  /-- It was not started, because another one was pending. -/
  | skipped
  deriving Repr

namespace Outcome

def text : Outcome → String
  | .fulfilled _ => "fulfilled"
  | .recovered _ => "recovered"
  | .rejected _ => "rejected"
  | .aborted => "aborted"
  | .skipped => "skipped"

def isFulfilled : Outcome → Bool
  | .fulfilled _ => true
  | _ => false

/-- What the chain that was completed has handed on. -/
def response? : Outcome → Option Response
  | .fulfilled v | .recovered v => v
  | _ => none

end Outcome

inductive Phase
  | success
  | reject
  deriving DecidableEq, Repr

def Phase.completed : Phase → Option Response → Outcome
  | .success => .fulfilled
  | .reject => .recovered

/-- An activation put aside while a step of it waits. -/
structure Paused (σ : Type) where
  phase : Phase
  ticket : Ticket
  resume : Signal → σ → σ × StepResult
  /-- The steps of the same chain after the one that waits. -/
  rest : List (Step σ)

inductive Status (σ : Type) where
  | paused (p : Paused σ)
  | ended (o : Outcome)

namespace Activation

variable {σ : Type}

/-- Runs a chain until a step waits or fails, each step on the output of the one before. -/
def runChain (phase : Phase) (onReject : Rejection → σ → σ × Status σ) :
    List (Step σ) → Option Response → σ → σ × Status σ
  | [], value, s => (s, .ended (phase.completed value))
  | step :: rest, value, s =>
    match step value s with
    | (s, .waits ticket resume) => (s, .paused ⟨phase, ticket, resume, rest⟩)
    | (s, .settled (.ok value)) => runChain phase onReject rest value s
    | (s, .settled (.error .aborted)) => (s, .ended .aborted)
    | (s, .settled (.error (.rejected why))) => onReject why s

/-- A rejection in the success chain is handed to the reject chain, if there is one; in the reject
chain it is final. -/
def rejected (reject : List (Step σ)) : Phase → Rejection → σ → σ × Status σ
  | .reject, why, s => (s, .ended (.rejected why))
  | .success, why, s =>
    if reject.isEmpty then (s, .ended (.rejected why))
    else runChain .reject (fun why s => (s, .ended (.rejected why))) reject why.input s

def start (success reject : List (Step σ)) (s : σ) : σ × Status σ :=
  runChain .success (rejected reject .success) success none s

def resume (reject : List (Step σ)) (p : Paused σ) (signal : Signal) (s : σ) : σ × Status σ :=
  match p.resume signal s with
  | (s, .ok value) => runChain p.phase (rejected reject p.phase) p.rest value s
  | (s, .error .aborted) => (s, .ended .aborted)
  | (s, .error (.rejected why)) => rejected reject p.phase why s

/-- How many steps may still be run after the one that waits. -/
def stepsLeft (reject : List (Step σ)) (p : Paused σ) : Nat :=
  p.rest.length + match p.phase with
    | .success => reject.length
    | .reject => 0

end Activation

end ActionChain
