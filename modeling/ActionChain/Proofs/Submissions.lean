import ActionChain.Proofs.Effects
import ActionChain.Proofs.Suspense
import Mathlib.Data.List.ReduceOption

/-!
Submissions to a scripted form that is shared by many. Main statement `submissions_served`: the
replies go to the submissions in order, each to one; all calls are on record; and a submission is
aborted if and only if there is an abort after its start and before its answer.
-/
namespace ActionChain.Bench

variable {κ : Type} {fixed : Fixed}

namespace FormUse

def call? : FormUse → Option FormCall
  | .submit extra => some (.submit extra)
  | .abort => some .abort
  | .reset => some .reset
  | .clearErrors => some .clearErrors
  | .pushReply _ | .pass _ | .take _ | .sleep _ => none

def submission? : FormUse → Option (Option Json)
  | .submit extra => some extra
  | _ => none

def isAbort : FormUse → Bool
  | .abort => true
  | _ => false

def pushed? : FormUse → Option ScriptedReply
  | .pushReply r => some r
  | _ => none

/-- The replies that submissions have taken from the queue, in order; one that has found it empty
has taken none. -/
def taken : FormWorld κ fixed → List FormUse → List (Option ScriptedReply)
  | _, [] => []
  | w, .submit extra :: rest => w.page.replies.head? :: taken (act w (.submit extra)) rest
  | w, u :: rest => taken (act w u) rest

section Page

/-- What a use makes of the form itself. -/
def page (f : ScriptedForm) : FormUse → ScriptedForm
  | .submit extra => (f.submit extra).1
  | .abort => f.record .abort
  | .reset => f.record .reset
  | .clearErrors => f.record .clearErrors
  | .pushReply r => f.pushReply r
  | .pass _ | .take _ | .sleep _ => f

variable (w : FormWorld κ fixed)

theorem act_page (u : FormUse) : (act w u).page = u.page w.page := by
  cases u with
  | submit extra => exact (w.submit_frame extra).2
  | abort =>
    rcases w.cancelSleep_cases with ⟨-, same⟩ | ⟨t, -, -, same⟩ <;>
      simp [act, World.abort, World.cancelSubmissions, same, page, Form.abort]
  | sleep pause =>
    rw [act, World.sleep]
    split <;> rfl
  | _ => rfl

theorem page_calls (f : ScriptedForm) (u : FormUse) :
    (u.page f).calls = f.calls ++ u.call?.toList := by
  cases u <;> simp [page, call?, ScriptedForm.record, ScriptedForm.submit, ScriptedForm.pushReply]

theorem actAll_calls (uses : List FormUse) :
    (actAll w uses).page.calls = w.page.calls ++ uses.filterMap call? := by
  induction uses generalizing w with
  | nil => simp [actAll]
  | cons u rest ih =>
    have step : (act w u).page.calls = w.page.calls ++ u.call?.toList := by
      rw [act_page, page_calls]
    rw [actAll, List.foldl_cons, ← actAll, ih, step]
    cases called : u.call? <;> simp [called]

/-- Only a submission takes a reply. -/
theorem taken_cons (u : FormUse) (rest : List FormUse) : taken w (u :: rest) =
    (u.submission?.map fun _ => w.page.replies.head?).toList ++ taken (act w u) rest := by
  cases u <;> rfl

theorem taken_append (uses more : List FormUse) :
    taken w (uses ++ more) = taken w uses ++ taken (actAll w uses) more := by
  induction uses generalizing w with
  | nil => rfl
  | cons u rest ih =>
    rw [List.cons_append, taken_cons, ih, taken_cons, List.append_assoc]
    rfl

/-- A use adds to the end of the queue, or takes from its front. -/
theorem page_replies (f : ScriptedForm) (u : FormUse) :
    (u.submission?.bind fun _ => f.replies.head?).toList ++ (u.page f).replies =
      f.replies ++ u.pushed?.toList := by
  cases u with
  | submit extra => cases queue : f.replies <;> simp [page, ScriptedForm.submit, queue, submission?,
      pushed?, ScriptedForm.record]
  | _ => simp [page, submission?, pushed?, ScriptedForm.record, ScriptedForm.pushReply]

/-- What has been taken and what is left are what was there and what has been pushed, in order. -/
theorem taken_replies (uses : List FormUse) :
    (taken w uses).reduceOption ++ (actAll w uses).page.replies =
      w.page.replies ++ uses.filterMap pushed? := by
  induction uses generalizing w with
  | nil => simp [taken, actAll]
  | cons u rest ih =>
    have first : (u.submission?.map fun _ => w.page.replies.head?).toList.reduceOption =
        (u.submission?.bind fun _ => w.page.replies.head?).toList := by
      cases u.submission? <;> cases w.page.replies.head? <;> rfl
    calc (taken w (u :: rest)).reduceOption ++ (actAll w (u :: rest)).page.replies
        = (u.submission?.bind fun _ => w.page.replies.head?).toList ++
            ((taken (act w u) rest).reduceOption ++ (actAll (act w u) rest).page.replies) := by
          rw [taken_cons, List.reduceOption_append, first, List.append_assoc]
          rfl
      _ = (w.page.replies ++ u.pushed?.toList) ++ rest.filterMap pushed? := by
          rw [ih, ← List.append_assoc, act_page, page_replies]
      _ = w.page.replies ++ (u :: rest).filterMap pushed? := by
          cases pushed : u.pushed? <;> simp [pushed]

end Page

theorem actAll_tidy {w : FormWorld κ fixed} (tidy : w.Tidy) (uses : List FormUse) :
    (actAll w uses).Tidy := by
  induction uses generalizing w with
  | nil => exact tidy
  | cons u rest ih => exact ih (act_tidy tidy u)

end FormUse

section Served

open FormUse

/-- In the course of the uses since its start, a submission that waits is woken, and what it then
gives is this. -/
def Gives (w : FormWorld κ fixed) (extra : Option Json) (since : List FormUse)
    (result : StepResult) : Prop :=
  ∃ resume, (w.submit extra).2 = .waits w.nextTicket resume ∧
    ∃ part signal, part <+: since ∧
      (w.nextTicket, signal) ∈ (actAll w (.submit extra :: part)).woken ∧
      ∀ v, (resume signal v).2 = result

/-- A submission that has got this reply, and has to wait for the answer. -/
structure Awaited (w : FormWorld κ fixed) (extra : Option Json) (since : List FormUse)
    (due : Option Nat) : Prop where
  aborted_iff : Gives w extra since (.error .aborted) ↔
    ∃ before rest, since = before ++ .abort :: rest ∧ Lasting w.nextTicket due before
  /-- What is not aborted gives what the reply says, and that is never an abort. -/
  answered_iff : ∀ result, result ≠ .error .aborted → (Gives w extra since result ↔
    result = World.concluded w.page.nextReply.answer ∧
      ∃ before ms rest, since = before ++ .pass ms :: rest ∧ Lasting w.nextTicket due before ∧
        .abort ∉ before ∧ ∃ d ∈ due, d ≤ passed before + ms)
  pending_iff : (∃ p ∈ (actAll w (.submit extra :: since)).pending, p.ticket = w.nextTicket) ↔
    Lasting w.nextTicket due since ∧ .abort ∉ since

section Awaited

variable {w : FormWorld κ fixed} {extra : Option Json} {since : List FormUse} {due : Option Nat}

theorem holds_since (tidy : w.Tidy) (waits : w.page.nextReply.wait? = some due)
    (extra : Option Json) (part : List FormUse) :
    (Suspense.after w.nextTicket (.waits due) part).Holds w.nextTicket
      (actAll w (.submit extra :: part)) := by
  have first := Suspense.holds_started tidy extra waits
  refine first.actAll (act_tidy tidy _) ?_ part
  rw [act, ScriptedForm.submit_eq, waits]
  exact Nat.lt_succ_self _

/-- What it gives is decided by how its wait ends. -/
theorem gives_iff (tidy : w.Tidy) (waits : w.page.nextReply.wait? = some due)
    (result : StepResult) : Gives w extra since result ↔
      ∃ signal, Suspense.Ends w.nextTicket due since signal ∧
        World.answered w.page.nextReply.answer signal = result := by
  have submitted : (w.submit extra).2 = .waits w.nextTicket fun signal v =>
      (v, World.answered w.page.nextReply.answer signal) := by
    simp only [ScriptedForm.submit_eq, waits]
  have woken_iff (part : List FormUse) (signal : Signal) :=
    (holds_since tidy waits extra part).woken_iff signal
  constructor
  · rintro ⟨resume, same, part, signal, early, woken, gives⟩
    obtain rfl := (Progress.waits.inj (submitted.symm.trans same)).2
    exact ⟨signal, ⟨part, early, (woken_iff part signal).mp woken⟩, gives w⟩
  · rintro ⟨signal, ⟨part, early, ended⟩, gives⟩
    exact ⟨_, submitted, part, signal, early, (woken_iff part signal).mpr ended, fun _ => gives⟩

theorem awaited (tidy : w.Tidy) (waits : w.page.nextReply.wait? = some due) :
    Awaited w extra since due := by
  have some := ScriptedReply.wait?_pos waits
  have conclusive (d : Nat) (mem : d ∈ due) :
      World.concluded w.page.nextReply.answer ≠ .error .aborted := by
    obtain rfl := mem
    exact ScriptedReply.concluded_answer (by simp [waits])
  refine ⟨?_, fun result other => ?_, ?_⟩
  · rw [gives_iff tidy waits, ← Suspense.ends_cancelled_iff some]
    constructor
    · rintro ⟨_ | _, ended, gives⟩
      · obtain ⟨-, -, -, -, -, -, d, mem, -⟩ := (Suspense.ends_expired_iff some).mp ended
        exact absurd gives (conclusive d mem)
      · exact ended
    · exact fun ended => ⟨.cancelled, ended, rfl⟩
  · rw [gives_iff tidy waits, ← Suspense.ends_expired_iff some]
    constructor
    · rintro ⟨_ | _, ended, rfl⟩
      · exact ⟨rfl, ended⟩
      · exact absurd rfl other
    · rintro ⟨rfl, ended⟩
      exact ⟨.expired, ended, rfl⟩
  · rw [(holds_since tidy waits extra since).pending_iff]
    simp [Suspense.after_waits_iff some]

end Awaited

/-- What a submission gets that is started in this world, and what has become of it after the uses
since then. -/
structure Served (w : FormWorld κ fixed) (extra : Option Json) (since : List FormUse) : Prop where
  queue : (w.submit extra).1.page.replies = w.page.replies.tail
  reply : w.page.nextReply = w.page.replies.head?.getD (.respond ⟨200, .emptyObject⟩)
  /-- Without a wait it has its answer at once. -/
  prompt : w.page.nextReply.wait? = none →
    (w.submit extra).2 = .settled (World.concluded w.page.nextReply.answer) ∧
      World.concluded w.page.nextReply.answer ≠ .error .aborted
  waiting : ∀ due, w.page.nextReply.wait? = some due → Awaited w extra since due

theorem served {w : FormWorld κ fixed} (tidy : w.Tidy) (extra : Option Json)
    (since : List FormUse) : Served w extra since where
  queue := congrArg (·.replies) (w.submit_frame extra).2
  reply := List.headD_eq_head?_getD
  prompt now := by
    have given : (w.submit extra).2 = .settled (World.concluded w.page.nextReply.answer) := by
      simp only [ScriptedForm.submit_eq, now]
    exact ⟨given, ScriptedReply.concluded_answer (by simp [now])⟩
  waiting _ waits := awaited tidy waits

/-- An abort reaches every submission that waits, and leaves none waiting. -/
theorem abort_reaches (w : FormWorld κ fixed) :
    (∀ p ∈ w.pending, p.kind = .submission → (p.ticket, .cancelled) ∈ w.abort.woken) ∧
      ∀ p ∈ w.abort.pending, p.kind ≠ .submission := by
  constructor
  · intro p pending kind
    exact (World.mem_woken_abort _ _).mpr (.inr ⟨rfl, p, pending, rfl, .inr kind⟩)
  · intro p still
    exact ((World.mem_pending_abort p).mp still).2.2

/-- What is true of a form after any uses by any number of users, from the start on. -/
structure Shared (start : FormWorld κ fixed) (uses : List FormUse) : Prop where
  /-- No reply is lost, used twice or out of its turn. -/
  queue : (taken start uses).reduceOption ++ (actAll start uses).page.replies =
    uses.filterMap pushed?
  left : (actAll start uses).page.replies.length =
    (uses.filterMap pushed?).length - (taken start uses).reduceOption.length
  calls : (actAll start uses).page.calls = uses.filterMap call?
  submissions : (actAll start uses).page.submissions = uses.filterMap submission?
  abortCount : (actAll start uses).page.abortCount = uses.countP isAbort
  served : ∀ before extra since, uses = before ++ .submit extra :: since →
    taken start uses = taken start before ++ (actAll start before).page.replies.head? ::
        taken (actAll start (before ++ [.submit extra])) since ∧
      Served (actAll start before) extra since
  reached : ∀ before rest, uses = before ++ .abort :: rest →
    (∀ p ∈ (actAll start before).pending, p.kind = .submission →
        (p.ticket, .cancelled) ∈ (actAll start (before ++ [.abort])).woken) ∧
      ∀ p ∈ (actAll start (before ++ [.abort])).pending, p.kind ≠ .submission

theorem submissions_served (element : Element κ) (data : Json) (uses : List FormUse) :
    Shared ({ element, page := { data } } : FormWorld κ fixed) uses := by
  set start : FormWorld κ fixed := { element, page := { data } }
  have queue : (taken start uses).reduceOption ++ (actAll start uses).page.replies =
      uses.filterMap pushed? := taken_replies start uses
  have calls : (actAll start uses).page.calls = uses.filterMap call? := actAll_calls start uses
  have tidy : start.Tidy := World.Unused.tidy ⟨rfl, rfl⟩
  refine ⟨queue, ?_, calls, ?_, ?_, ?_, ?_⟩
  · simp [← queue]
  · rw [ScriptedForm.submissions, calls, List.filterMap_filterMap]
    refine List.filterMap_congr fun u _ => ?_
    cases u <;> rfl
  · rw [ScriptedForm.abortCount, calls, List.countP_filterMap]
    refine List.countP_congr fun u _ => ?_
    cases u <;> rfl
  · rintro before extra since rfl
    refine ⟨?_, served (actAll_tidy tidy before) extra since⟩
    rw [taken_append, taken_cons, actAll_append]
    rfl
  · rintro before rest rfl
    rw [actAll_append]
    exact abort_reaches _

end Served

end ActionChain.Bench
