import ActionChain.World

/-!
A form that answers from a queue of scripted replies and records every call made on it.
-/
namespace ActionChain.Bench

inductive FormCall
  | submit (extra : Option Json)
  | reset
  | abort
  | clearErrors
  deriving Repr

inductive ScriptedReply
  | respond (r : Response)
  | nothing
  | fail (reason : String)
  | slow (milliseconds : Nat) (r : Response)
  | hang
  deriving Repr

namespace ScriptedReply

def empty : ScriptedReply := .respond ⟨200, .emptyObject⟩

def reply : ScriptedReply → Reply
  | .respond r => .now (.ok (some r))
  | .nothing => .now (.ok none)
  | .fail reason => .now (.error (.submission reason))
  | .slow ms r => .later ms (.ok (some r))
  | .hang => .never

end ScriptedReply

structure ScriptedForm where
  replies : List ScriptedReply := []
  calls : List FormCall := []
  data : Json := .emptyObject

namespace ScriptedForm

def record (c : FormCall) (f : ScriptedForm) : ScriptedForm := { f with calls := f.calls ++ [c] }

def pushReply (r : ScriptedReply) (f : ScriptedForm) : ScriptedForm :=
  { f with replies := f.replies ++ [r] }

/-- Takes the first reply of the queue. An empty queue gives an empty success. -/
def submit (f : ScriptedForm) (extra : Option Json) : ScriptedForm × Reply :=
  let reply := f.replies.headD .empty
  ({ f.record (.submit extra) with replies := f.replies.tail }, reply.reply)

instance : Form ScriptedForm where
  value? f path := f.data.atPath? path
  submit := submit
  reset := record .reset
  clearErrors := record .clearErrors
  abort := record .abort

def submissions (f : ScriptedForm) : List (Option Json) :=
  f.calls.filterMap fun
    | .submit extra => some extra
    | _ => none

def abortCount (f : ScriptedForm) : Nat :=
  f.calls.countP fun
    | .abort => true
    | _ => false

end ScriptedForm

end ActionChain.Bench
