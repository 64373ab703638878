import ActionChain.Event

/-!
Rehearsals of an event target: listeners note what they hear, and then may add and remove listeners
and dispatch events themselves.
-/
namespace ActionChain.Bench

inductive Cue
  /-- Adds a listener that notes events under a tag and then acts. -/
  | add (type id tag : String) (acts : List Cue)
  | remove (type id : String)
  | dispatch (e : Event)
  | count (type : String)
  | describe
  deriving Inhabited

/-- What a listener of a rehearsal does: note under a tag, then act. -/
structure Part where
  tag : String
  acts : List Cue

structure Heard where
  tag : String
  event : Event

structure Rehearsal where
  target : EventTarget Part := {}
  heard : List Heard := []

inductive CueAnswer
  | nothing
  | flag (b : Bool)
  | count (n : Nat)
  | text (s : String)

namespace Rehearsal

def follow (call : Part → Event → Rehearsal → Rehearsal) (c : Cue) (r : Rehearsal) :
    Rehearsal × CueAnswer :=
  match c with
  | .add type id tag acts => ({ r with target := r.target.add type id ⟨tag, acts⟩ }, .nothing)
  | .remove type id =>
    let (target, b) := r.target.remove type id
    ({ r with target }, .flag b)
  | .dispatch e => let (r, n) := r.target.dispatch call e r; (r, .count n)
  | .count type => (r, .count (r.target.count type))
  | .describe => (r, .text r.target.text)

/-- Plays a part. Parts may set each other off, so deep at most. -/
def play : Nat → Part → Event → Rehearsal → Rehearsal
  | depth, part, e, r =>
    let r := { r with heard := r.heard ++ [⟨part.tag, e⟩] }
    match depth with
    | 0 => r
    | depth + 1 => part.acts.foldl (fun r c => (follow (play depth) c r).1) r

def depth : Nat := 10000

/-- Follows one cue; answers with what it returns and what was heard. -/
def step (c : Cue) (r : Rehearsal) : Rehearsal × CueAnswer × List Heard :=
  let (r, answer) := follow (play depth) c r
  ({ r with heard := [] }, answer, r.heard)

def run (r : Rehearsal) : List Cue → List (CueAnswer × List Heard)
  | [] => []
  | c :: rest =>
    let (r, entry) := r.step c
    entry :: run r rest

end Rehearsal

def rehearse (cues : List Cue) : List (CueAnswer × List Heard) := Rehearsal.run {} cues

end ActionChain.Bench
