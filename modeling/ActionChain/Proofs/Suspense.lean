import ActionChain.Bench.ScriptedForm
import ActionChain.Proofs.Notes
import Mathlib.Data.List.Induction

/-!
What becomes of a submission to a scripted form that has to wait for its answer, while the form is
shared by many. It follows from what has been done since its start: an abort ends it, time ends it
when its answer is due, and nothing else does.
-/
namespace ActionChain

namespace World

variable {κ η : Type} {fixed : Fixed} {w : World κ η fixed}

theorem mem_pending_cancelSleep (p : Wait) :
    p ∈ w.cancelSleep.1.pending ↔ p ∈ w.pending ∧ w.slot ≠ some p.ticket := by
  rcases w.cancelSleep_cases with ⟨dead, same⟩ | ⟨t, slot, -, same⟩ <;> rw [same]
  · exact ⟨fun member => ⟨member, fun held => dead _ held p member rfl⟩, And.left⟩
  · rw [List.mem_filter, decide_eq_true_iff, slot, ne_eq, ne_eq, Option.some.injEq]
    exact and_congr_right' (not_congr eq_comm)

theorem mem_woken_cancelSleep (t : Ticket) (s : Signal) : (t, s) ∈ w.cancelSleep.1.woken ↔
    (t, s) ∈ w.woken ∨ s = .cancelled ∧ w.slot = some t ∧ ∃ p ∈ w.pending, p.ticket = t := by
  rcases w.cancelSleep_cases with ⟨dead, same⟩ | ⟨u, slot, there, same⟩ <;> rw [same]
  · refine (or_iff_left ?_).symm
    rintro ⟨-, held, p, member, mine⟩
    exact dead t held p member mine
  · rw [List.mem_append, List.mem_singleton, Prod.mk.injEq, slot, Option.some.injEq]
    refine or_congr_right ⟨?_, ?_⟩
    · rintro ⟨rfl, rfl⟩
      exact ⟨rfl, rfl, there⟩
    · rintro ⟨rfl, rfl, -⟩
      exact ⟨rfl, rfl⟩

variable [Form η]

theorem mem_pending_abort (p : Wait) : p ∈ w.abort.pending ↔
    p ∈ w.pending ∧ w.slot ≠ some p.ticket ∧ p.kind ≠ .submission := by
  have kept : p ∈ w.abort.pending ↔ p ∈ w.cancelSleep.1.pending ∧ p.kind ≠ .submission :=
    List.mem_filter.trans (and_congr_right' decide_eq_true_iff)
  rw [kept, mem_pending_cancelSleep, and_assoc]

/-- An abort wakes the sleep in the slot and all submissions. -/
theorem mem_woken_abort (t : Ticket) (s : Signal) : (t, s) ∈ w.abort.woken ↔ (t, s) ∈ w.woken ∨
    s = .cancelled ∧ ∃ p ∈ w.pending, p.ticket = t ∧ (w.slot = some t ∨ p.kind = .submission) := by
  have woken : (t, s) ∈ w.abort.woken ↔ (t, s) ∈ w.cancelSleep.1.woken ∨
      s = .cancelled ∧ ∃ p ∈ w.cancelSleep.1.pending, p.ticket = t ∧ p.kind = .submission := by
    have parts : w.abort.woken = w.cancelSleep.1.woken ++
        (w.cancelSleep.1.pending.filter (·.kind = .submission)).map
          fun p => (p.ticket, .cancelled) := rfl
    simp only [parts, List.mem_append, List.mem_map, List.mem_filter, decide_eq_true_eq,
      Prod.mk.injEq]
    refine or_congr_right ⟨?_, ?_⟩
    · rintro ⟨p, ⟨member, kind⟩, mine, rfl⟩
      exact ⟨rfl, p, member, mine, kind⟩
    · rintro ⟨rfl, p, member, mine, kind⟩
      exact ⟨p, ⟨member, kind⟩, mine, rfl⟩
  simp only [woken, mem_woken_cancelSleep, mem_pending_cancelSleep]
  constructor
  · rintro ((earlier | ⟨rfl, slot, p, member, mine⟩) | ⟨rfl, p, ⟨member, -⟩, mine, kind⟩)
    · exact .inl earlier
    · exact .inr ⟨rfl, p, member, mine, .inl slot⟩
    · exact .inr ⟨rfl, p, member, mine, .inr kind⟩
  · rintro (earlier | ⟨rfl, p, member, rfl, slot | kind⟩)
    · exact .inl (.inl earlier)
    · exact .inl (.inr ⟨rfl, slot, p, member, rfl⟩)
    · by_cases slot : w.slot = some p.ticket
      · exact .inl (.inr ⟨rfl, slot, p, member, rfl⟩)
      · exact .inr ⟨rfl, p, ⟨member, slot⟩, rfl, kind⟩

end World

namespace Bench

variable {κ : Type} {fixed : Fixed}

/-- What is done with a form that is shared, and what else moves those who wait for it. -/
inductive FormUse
  | submit (extra : Option Json)
  | abort
  | reset
  | clearErrors
  | pushReply (r : ScriptedReply)
  | pass (milliseconds : Nat)
  /-- The one who holds the ticket goes on, or is given up. -/
  | take (ticket : Ticket)
  | sleep (pause : Micros)

abbrev FormWorld (κ : Type) (fixed : Fixed) := World κ ScriptedForm fixed

namespace FormUse

def act (w : FormWorld κ fixed) : FormUse → FormWorld κ fixed
  | .submit extra => (w.submit extra).1
  | .abort => w.abort
  | .reset => { w with page := Form.reset w.page }
  | .clearErrors => { w with page := Form.clearErrors w.page }
  | .pushReply r => { w with page := w.page.pushReply r }
  | .pass ms => w.passTo (w.clock + ms)
  | .take ticket => w.forget ticket
  | .sleep pause => (w.sleep pause none).1

def actAll (w : FormWorld κ fixed) (uses : List FormUse) : FormWorld κ fixed := uses.foldl act w

def passed : List FormUse → Nat
  | [] => 0
  | .pass ms :: rest => ms + passed rest
  | _ :: rest => passed rest

theorem actAll_append (w : FormWorld κ fixed) (uses more : List FormUse) :
    actAll w (uses ++ more) = actAll (actAll w uses) more := List.foldl_append

end FormUse

namespace ScriptedReply

def answer : ScriptedReply → Answer
  | .respond r | .slow _ r => .ok (some r)
  | .nothing => .ok none
  | .fail reason => .error (.submission reason)
  | .hang => .error .aborted

/-- How long there is to wait for the answer, if there is; it may be forever. -/
def wait? : ScriptedReply → Option (Option Nat)
  | .slow ms _ => if ms = 0 then none else some (some ms)
  | .hang => some none
  | .respond _ | .nothing | .fail _ => none

theorem wait?_pos {r : ScriptedReply} {due : Option Nat} (waits : r.wait? = some due) :
    ∀ d ∈ due, 0 < d := by
  cases r with
  | slow ms answer =>
    rw [wait?] at waits
    split at waits
    · cases waits
    · rename_i some
      obtain rfl := Option.some.inj waits
      simpa using Nat.pos_of_ne_zero some
  | hang =>
    obtain rfl := Option.some.inj waits
    simp
  | respond | nothing | fail => cases waits

/-- Only one who waits forever gets no answer of his own. -/
theorem concluded_answer {r : ScriptedReply} (ends : r.wait? ≠ some none) :
    World.concluded r.answer ≠ .error .aborted := by
  refine World.concluded_not_aborted ?_
  cases r with
  | hang => exact absurd rfl ends
  | respond | nothing | fail | slow => simp [answer]

end ScriptedReply

namespace ScriptedForm

/-- The reply that a submission gets now. -/
def nextReply (f : ScriptedForm) : ScriptedReply := f.replies.headD .empty

/-- A submission is answered at once, or it waits, by the reply that it gets. -/
theorem submit_eq (w : FormWorld κ fixed) (extra : Option Json) :
    let r := w.page.nextReply
    let there : FormWorld κ fixed := { w with page := (w.page.submit extra).1 }
    w.submit extra = match r.wait? with
      | none => (there, .settled (World.concluded r.answer))
      | some due => (there.wait .submission due,
        .waits w.nextTicket fun signal w => (w, World.answered r.answer signal)) := by
  intro r there
  have replied : Form.submit w.page extra = ((w.page.submit extra).1, r.reply) := rfl
  rw [World.submit, replied]
  cases r with
  | slow ms answer => by_cases none : ms = 0 <;> simp [ScriptedReply.reply, ScriptedReply.wait?,
      ScriptedReply.answer, none, there]
  | respond | nothing | fail | hang => rfl

end ScriptedForm

section Waits

open FormUse

variable {w : FormWorld κ fixed}

namespace FormUse

/-- What a use of the form notes about waits. -/
def notes (w : FormWorld κ fixed) : FormUse → List Note
  | .submit _ => match w.page.nextReply.wait? with
    | none => []
    | some due => [.submits 0 due]
  | .abort => [.aborts]
  | .pass ms => [.passes (w.clock + ms)]
  | .take ticket => [.frees ticket]
  | .sleep pause => [.sleeps 0 pause]
  | .reset | .clearErrors | .pushReply _ => []

theorem act_noted (w : FormWorld κ fixed) (u : FormUse) :
    (w.undergoAll (u.notes w)).waits = (act w u).waits := by
  cases u with
  | submit extra =>
    rw [act, ScriptedForm.submit_eq, notes]
    cases w.page.nextReply.wait? <;> rfl
  | _ => rfl

theorem act_tidy (tidy : w.Tidy) (u : FormUse) : (act w u).Tidy :=
  (tidy.undergoAll _).congr (act_noted w u)

theorem act_nextTicket (w : FormWorld κ fixed) (u : FormUse) :
    w.nextTicket ≤ (act w u).nextTicket := by
  obtain ⟨-, next, -⟩ := World.waits_eq_iff.mp (act_noted w u)
  rw [← next, World.undergoAll_nextTicket]
  exact Nat.le_add_right _ _

end FormUse

/-- What may become of a submission that waits. -/
inductive Suspense
  /-- The answer comes after so many more milliseconds, or never. -/
  | waits (left : Option Nat)
  /-- It has ended, and the one who has waited has not gone on yet. -/
  | ended (signal : Signal)
  | gone

namespace Suspense

def next (ticket : Ticket) : Suspense → FormUse → Suspense
  | .waits _, .abort => .ended .cancelled
  | .waits (some left), .pass ms => if left ≤ ms then .ended .expired else .waits (some (left - ms))
  | .waits left, .take t => if t = ticket then .gone else .waits left
  | .ended signal, .take t => if t = ticket then .gone else .ended signal
  | x, _ => x

def after (ticket : Ticket) (x : Suspense) (uses : List FormUse) : Suspense :=
  uses.foldl (next ticket) x

/-- What a suspense means for the waits of a world. -/
def Holds (t : Ticket) (w : FormWorld κ fixed) : Suspense → Prop
  | .waits left => ⟨t, .submission, left.map (w.clock + ·)⟩ ∈ w.pending ∧ ∀ s, (t, s) ∉ w.woken
  | .ended signal => (∀ p ∈ w.pending, p.ticket ≠ t) ∧ ∀ s, (t, s) ∈ w.woken ↔ s = signal
  | .gone => (∀ p ∈ w.pending, p.ticket ≠ t) ∧ ∀ s, (t, s) ∉ w.woken

variable {t : Ticket} {x : Suspense} {v : FormWorld κ fixed}

theorem Holds.congr (holds : x.Holds t v) (same : v.waits = w.waits) : x.Holds t w := by
  obtain ⟨clock, -, pending, -, woken⟩ := World.waits_eq_iff.mp same
  cases x <;> simpa [Holds, clock, pending, woken] using holds

/-- A wait that is added belongs to somebody else. -/
theorem Holds.added (holds : x.Holds t w) (issued : t < w.nextTicket) (kind : WaitKind)
    (length : Option Nat) : x.Holds t (w.wait kind length) := by
  have later : w.nextTicket ≠ t := Nat.ne_of_gt issued
  cases x with
  | waits left => exact ⟨List.mem_append_left _ holds.1, holds.2⟩
  | ended signal => simpa [Holds, World.wait, or_imp, forall_and, later] using holds
  | gone => simpa [Holds, World.wait, or_imp, forall_and, later] using holds

theorem Holds.slot (holds : x.Holds t w) (issued : t < w.nextTicket) (pause : Micros) :
    x.Holds t (w.sleep pause none).1 := by
  rw [World.sleep]
  split
  · cases x <;> exact holds
  · have added := holds.added issued .sleep (some (World.milliseconds pause))
    cases x <;> exact added

/-- What is over stays as it is, as long as nobody else is woken in its place. -/
theorem Holds.settled (holds : x.Holds t w) (ended : ∀ left, x ≠ .waits left)
    (fewer : ∀ p ∈ v.pending, p ∈ w.pending)
    (kept : (∀ p ∈ w.pending, p.ticket ≠ t) → ∀ s, (t, s) ∈ v.woken ↔ (t, s) ∈ w.woken) :
    x.Holds t v := by
  cases x with
  | waits left => exact absurd rfl (ended left)
  | ended signal =>
    obtain ⟨others, woken⟩ := holds
    exact ⟨fun p member => others p (fewer p member), fun s => (kept others s).trans (woken s)⟩
  | gone =>
    obtain ⟨others, silent⟩ := holds
    exact ⟨fun p member => others p (fewer p member), fun s => (kept others s).not.mpr (silent s)⟩

theorem Holds.abort (holds : x.Holds t w) (once : w.tickets.Nodup) :
    (x.next t .abort).Holds t w.abort := by
  have fewer (p : Wait) (member : p ∈ w.abort.pending) : p ∈ w.pending :=
    ((World.mem_pending_abort p).mp member).1
  have kept (others : ∀ p ∈ w.pending, p.ticket ≠ t) (s : Signal) :
      (t, s) ∈ w.abort.woken ↔ (t, s) ∈ w.woken := by
    rw [World.mem_woken_abort, or_iff_left]
    rintro ⟨-, p, member, mine, -⟩
    exact others p member mine
  cases x with
  | waits left =>
    obtain ⟨pending, silent⟩ := holds
    refine ⟨fun p member mine => ?_, fun s => ?_⟩
    · obtain ⟨member, -, other⟩ := (World.mem_pending_abort p).mp member
      have same := List.inj_on_of_nodup_map once.of_append_left member pending mine
      exact other (same ▸ rfl)
    · rw [World.mem_woken_abort, or_iff_right (silent s)]
      exact and_iff_left ⟨_, pending, rfl, .inr rfl⟩
  | ended signal => exact holds.settled (by simp) fewer kept
  | gone => exact holds.settled (by simp) fewer kept

theorem Holds.pass (holds : x.Holds t w) (once : w.tickets.Nodup) (ms : Nat) :
    (x.next t (.pass ms)).Holds t (w.passTo (w.clock + ms)) := by
  have fewer (p : Wait) (member : p ∈ (w.passTo (w.clock + ms)).pending) : p ∈ w.pending :=
    ((World.mem_pending_passTo _ p).mp member).1
  have kept (others : ∀ p ∈ w.pending, p.ticket ≠ t) (s : Signal) :
      (t, s) ∈ (w.passTo (w.clock + ms)).woken ↔ (t, s) ∈ w.woken := by
    rw [World.mem_woken_passTo, or_iff_left]
    rintro ⟨⟨p, member, -, mine⟩, -⟩
    exact others p member mine
  cases x with
  | waits left =>
    obtain ⟨pending, silent⟩ := holds
    have alone (p : Wait) (member : p ∈ w.pending) (mine : p.ticket = t) :
        p = ⟨t, .submission, left.map (w.clock + ·)⟩ :=
      List.inj_on_of_nodup_map once.of_append_left member pending mine
    have lasting (still : World.isDue (w.clock + ms) ⟨t, .submission, left.map (w.clock + ·)⟩ =
        false) : ⟨t, .submission, left.map (w.clock + ·)⟩ ∈ (w.passTo (w.clock + ms)).pending ∧
        ∀ s, (t, s) ∉ (w.passTo (w.clock + ms)).woken := by
      refine ⟨(World.mem_pending_passTo _ _).mpr ⟨pending, still⟩, fun s woken => ?_⟩
      rcases (World.mem_woken_passTo _ s).mp woken with earlier | ⟨⟨p, member, ended, mine⟩, -⟩
      · exact silent s earlier
      · rw [alone p member mine, still] at ended
        exact absurd ended (by decide)
    cases left with
    | none => exact lasting rfl
    | some left =>
      rw [next]
      split
      · rename_i ended
        have isDue : World.isDue (w.clock + ms) ⟨t, .submission, some (w.clock + left)⟩ = true := by
          simpa [World.isDue] using ended
        refine ⟨fun p member mine => ?_, fun s => ?_⟩
        · obtain ⟨member, still⟩ := (World.mem_pending_passTo _ p).mp member
          rw [alone p member mine] at still
          exact absurd (still.symm.trans isDue) (by decide)
        · rw [World.mem_woken_passTo, or_iff_right (silent s),
            and_iff_right ⟨_, pending, isDue, rfl⟩]
      · rename_i early
        obtain ⟨still, quiet⟩ := lasting (by simpa [World.isDue] using early)
        have same : (w.passTo (w.clock + ms)).clock + (left - ms) = w.clock + left := by
          show w.clock + ms + (left - ms) = w.clock + left
          omega
        refine ⟨?_, quiet⟩
        simpa only [Option.map_some, same] using still
  | ended signal => exact holds.settled (by simp) fewer kept
  | gone => exact holds.settled (by simp) fewer kept

theorem Holds.take (holds : x.Holds t w) (u : Ticket) :
    (x.next t (.take u)).Holds t (w.forget u) := by
  by_cases same : u = t
  · cases x <;> simp_all [Holds, next, World.forget]
  · have apart : t ≠ u := Ne.symm same
    cases x <;> simp_all [Holds, next, World.forget]

/-- What becomes of a submission is what the use makes of it. -/
theorem Holds.act (holds : x.Holds t w) (tidy : w.Tidy) (issued : t < w.nextTicket) (u : FormUse) :
    (x.next t u).Holds t (FormUse.act w u) := by
  have unmoved (other : ∀ y : Suspense, y.next t u = y) (same : w.waits = (FormUse.act w u).waits) :
      (x.next t u).Holds t (FormUse.act w u) := by
    rw [other]
    exact holds.congr same
  cases u with
  | submit extra =>
    have other : x.next t (.submit extra) = x := by rcases x with (_ | _) | _ | _ <;> rfl
    rw [other, FormUse.act, ScriptedForm.submit_eq]
    cases w.page.nextReply.wait? with
    | none => exact holds.congr rfl
    | some due =>
      have added := holds.added issued .submission due
      exact added.congr rfl
  | abort => exact holds.abort tidy.once
  | pass ms => exact holds.pass tidy.once ms
  | take u => exact holds.take u
  | sleep pause =>
    have other : x.next t (.sleep pause) = x := by rcases x with (_ | _) | _ | _ <;> rfl
    rw [other]
    exact holds.slot issued pause
  | reset | clearErrors | pushReply =>
    refine unmoved (fun y => ?_) rfl
    rcases y with (_ | _) | _ | _ <;> rfl

theorem Holds.actAll (holds : x.Holds t w) (tidy : w.Tidy) (issued : t < w.nextTicket)
    (uses : List FormUse) : (x.after t uses).Holds t (FormUse.actAll w uses) := by
  induction uses generalizing x w with
  | nil => exact holds
  | cons u rest ih =>
    exact ih (holds.act tidy issued u) (act_tidy tidy u)
      (Nat.lt_of_lt_of_le issued (act_nextTicket w u))

theorem Holds.woken_iff (holds : x.Holds t w) (s : Signal) : (t, s) ∈ w.woken ↔ x = .ended s := by
  cases x with
  | waits left => simpa using holds.2 s
  | ended signal => simpa [eq_comm] using holds.2 s
  | gone => simpa using holds.2 s

theorem Holds.pending_iff (holds : x.Holds t w) :
    (∃ p ∈ w.pending, p.ticket = t) ↔ ∃ left, x = .waits left := by
  cases x with
  | waits left => exact iff_of_true ⟨_, holds.1, rfl⟩ ⟨left, rfl⟩
  | ended signal => simpa using holds.1
  | gone => simpa using holds.1

theorem holds_started (tidy : w.Tidy) (extra : Option Json) {due : Option Nat}
    (waits : w.page.nextReply.wait? = some due) :
    (Suspense.waits due).Holds w.nextTicket (FormUse.act w (.submit extra)) := by
  have fresh (s : Signal) : (w.nextTicket, s) ∉ w.woken := by
    intro woken
    have held : w.nextTicket ∈ w.tickets :=
      List.mem_append_right _ (List.mem_map_of_mem (f := (·.1)) woken)
    exact Nat.lt_irrefl _ (tidy.issued _ held)
  rw [FormUse.act, ScriptedForm.submit_eq, waits]
  exact ⟨List.mem_append_right _ (List.mem_singleton_self _), fresh⟩

end Suspense

end Waits

section Histories

variable {t : Ticket} {due : Option Nat} {uses more : List FormUse}

open FormUse

theorem FormUse.passed_append (uses more : List FormUse) :
    passed (uses ++ more) = passed uses + passed more := by
  induction uses with
  | nil => simp [passed]
  | cons u rest ih => cases u <;> simp [passed, ih, Nat.add_assoc]

/-- Its answer has not come by these uses, and the one who waits has not given up. -/
structure Lasting (t : Ticket) (due : Option Nat) (uses : List FormUse) : Prop where
  unanswered : ∀ d ∈ due, passed uses < d
  awaited : .take t ∉ uses

theorem lasting_append_iff : Lasting t due (uses ++ more) ↔
    Lasting t due uses ∧ Lasting t (due.map (· - passed uses)) more := by
  constructor
  · rintro ⟨unanswered, awaited⟩
    rw [passed_append] at unanswered
    rw [List.mem_append, not_or] at awaited
    refine ⟨⟨fun d mem => ?_, awaited.1⟩, ⟨?_, awaited.2⟩⟩
    · exact Nat.lt_of_le_of_lt (Nat.le_add_right _ _) (unanswered d mem)
    · rintro _ left
      obtain ⟨d, mem, rfl⟩ := Option.map_eq_some_iff.mp left
      exact Nat.lt_sub_iff_add_lt'.mpr (unanswered d mem)
  · rintro ⟨earlier, later⟩
    refine ⟨fun d mem => ?_, ?_⟩
    · rw [passed_append]
      exact Nat.lt_sub_iff_add_lt'.mp (later.unanswered _ (Option.mem_map_of_mem _ mem))
    · rw [List.mem_append, not_or]
      exact ⟨earlier.awaited, later.awaited⟩

theorem Lasting.left_pos (lasting : Lasting t due uses) :
    ∀ d ∈ due.map (· - passed uses), 0 < d := by
  rintro _ left
  obtain ⟨d, mem, rfl⟩ := Option.map_eq_some_iff.mp left
  exact Nat.sub_pos_of_lt (lasting.unanswered d mem)

namespace Suspense

theorem after_snoc (x : Suspense) (uses : List FormUse) (u : FormUse) :
    x.after t (uses ++ [u]) = (x.after t uses).next t u := List.foldl_append

/-- What has ended can only be taken. -/
theorem next_ended (signal : Signal) (u : FormUse) :
    (ended signal).next t u = .ended signal ∨ (ended signal).next t u = .gone := by
  cases u with
  | take u => by_cases same : u = t <;> simp [next, same]
  | _ => exact .inl rfl

theorem next_gone (u : FormUse) : gone.next t u = .gone := by
  cases u <;> rfl

theorem next_waits_iff (some : ∀ d ∈ due, 0 < d) (u : FormUse) {left : Option Nat} :
    (waits due).next t u = .waits left ↔ Lasting t due [u] ∧ u ≠ .abort ∧
      left = due.map (· - passed [u]) := by
  have lasting_iff : Lasting t due [u] ↔ (∀ d ∈ due, passed [u] < d) ∧ u ≠ .take t :=
    ⟨fun l => ⟨l.unanswered, fun same => l.awaited (by simp [same])⟩,
      fun ⟨unanswered, other⟩ => ⟨unanswered, by simpa [eq_comm] using other⟩⟩
  rw [lasting_iff]
  cases u with
  | pass ms =>
    cases due with
    | none => simp [next, eq_comm]
    | some d =>
      by_cases ended : d ≤ ms
      · simp [next, ended, passed, Nat.not_lt_of_le ended]
      · simp [next, ended, passed, eq_comm, Nat.lt_of_not_le ended]
  | take u => cases due <;> by_cases same : u = t <;> simp_all [next, passed, eq_comm]
  | abort => cases due <;> simp [next]
  | _ => cases due <;> simp_all [next, passed, eq_comm]

/-- An abort ends it, and time when the answer is due. -/
theorem next_ended_iff (u : FormUse) (s : Signal) : (waits due).next t u = .ended s ↔
    u = .abort ∧ s = .cancelled ∨ ∃ ms, u = .pass ms ∧ s = .expired ∧ ∃ d ∈ due, d ≤ ms := by
  cases u with
  | abort => cases due <;> simp [next, eq_comm]
  | pass ms =>
    cases due with
    | none => simp [next]
    | some d => by_cases ended : d ≤ ms <;> simp [next, ended, eq_comm]
  | take u => cases due <;> by_cases same : u = t <;> simp [next, same]
  | _ => cases due <;> simp [next]

/-- It waits as long as it lasts and there is no abort. -/
theorem after_waits_iff (some : ∀ d ∈ due, 0 < d) {left : Option Nat} :
    (waits due).after t uses = .waits left ↔
      Lasting t due uses ∧ .abort ∉ uses ∧ left = due.map (· - passed uses) := by
  induction uses using List.reverseRecOn generalizing left with
  | nil =>
    have start : Lasting t due [] := ⟨some, by simp⟩
    simp [after, start, passed, eq_comm]
  | append_singleton uses u ih =>
    have shorter : due.map (· - passed (uses ++ [u])) =
        (due.map (· - passed uses)).map (· - passed [u]) := by
      simp [passed_append, Nat.sub_add_eq, Function.comp_def]
    rw [after_snoc, lasting_append_iff, shorter]
    constructor
    · intro still
      obtain ⟨earlier, waited⟩ : ∃ earlier, (waits due).after t uses = .waits earlier := by
        cases before : (waits due).after t uses with
        | waits left => exact ⟨left, rfl⟩
        | ended signal =>
          rw [before] at still
          rcases next_ended (t := t) signal u with done | done <;> cases done.symm.trans still
        | gone =>
          rw [before, next_gone] at still
          cases still
      obtain ⟨lasting, quiet, rfl⟩ := ih.mp waited
      rw [waited, next_waits_iff lasting.left_pos] at still
      obtain ⟨now, other, rfl⟩ := still
      exact ⟨⟨lasting, now⟩, by simp [quiet, other.symm], rfl⟩
    · rintro ⟨⟨lasting, now⟩, quiet, rfl⟩
      rw [List.mem_append, not_or] at quiet
      have waited := ih.mpr ⟨lasting, quiet.1, rfl⟩
      rw [waited, next_waits_iff lasting.left_pos]
      exact ⟨now, fun same => quiet.2 (by simp [same]), rfl⟩

/-- It has ended once, by a use that was made while it waited. -/
theorem ended_after {s : Signal} (ended : (waits due).after t uses = .ended s) :
    ∃ before left u rest, uses = before ++ u :: rest ∧ (waits due).after t before = .waits left ∧
      (waits left).next t u = .ended s := by
  induction uses using List.reverseRecOn with
  | nil => exact Suspense.noConfusion ended
  | append_singleton uses u ih =>
    rw [after_snoc] at ended
    cases earlier : (waits due).after t uses with
    | waits left => exact ⟨uses, left, u, [], rfl, earlier, earlier ▸ ended⟩
    | ended signal =>
      have same : signal = s := by
        rw [earlier] at ended
        rcases next_ended (t := t) signal u with done | done
        · exact Suspense.ended.inj (done.symm.trans ended)
        · cases done.symm.trans ended
      obtain ⟨before, left, v, rest, rfl, waited, now⟩ := ih (same ▸ earlier)
      exact ⟨before, left, v, rest ++ [u], by simp, waited, now⟩
    | gone =>
      rw [earlier, next_gone] at ended
      cases ended

/-- At some time in the course of the uses it has ended like this. -/
def Ends (t : Ticket) (due : Option Nat) (uses : List FormUse) (s : Signal) : Prop :=
  ∃ part, part <+: uses ∧ (waits due).after t part = .ended s

/-- What ends a wait is the use that ends it, made while it lasts and before any abort. -/
theorem ends_iff (some : ∀ d ∈ due, 0 < d) {s : Signal} : Ends t due uses s ↔
    ∃ before u rest, uses = before ++ u :: rest ∧ Lasting t due before ∧ .abort ∉ before ∧
      (waits (due.map (· - passed before))).next t u = .ended s := by
  constructor
  · rintro ⟨part, ⟨later, rfl⟩, ended⟩
    obtain ⟨before, left, u, rest, rfl, waited, now⟩ := ended_after ended
    obtain ⟨lasting, quiet, rfl⟩ := (after_waits_iff some).mp waited
    exact ⟨before, u, rest ++ later, by simp, lasting, quiet, now⟩
  · rintro ⟨before, u, rest, rfl, lasting, quiet, now⟩
    refine ⟨before ++ [u], ⟨rest, by simp⟩, ?_⟩
    rw [after_snoc, (after_waits_iff some).mpr ⟨lasting, quiet, rfl⟩, now]

/-- It is cancelled if there is an abort while it lasts. -/
theorem ends_cancelled_iff (some : ∀ d ∈ due, 0 < d) : Ends t due uses .cancelled ↔
    ∃ before rest, uses = before ++ .abort :: rest ∧ Lasting t due before := by
  rw [ends_iff some]
  constructor
  · rintro ⟨before, u, rest, rfl, lasting, -, now⟩
    rcases (next_ended_iff u _).mp now with ⟨rfl, -⟩ | ⟨ms, -, other, -⟩
    · exact ⟨before, rest, rfl, lasting⟩
    · cases other
  · rintro ⟨before, rest, rfl, lasting⟩
    -- the first abort is the one that cancels
    by_cases earlier : .abort ∈ before
    · obtain ⟨first, others, rfl, quiet⟩ := List.eq_append_cons_of_mem earlier
      have part : Lasting t due first := (lasting_append_iff.mp lasting).1
      exact ⟨first, .abort, others ++ .abort :: rest, by simp, part, quiet,
        (next_ended_iff _ _).mpr (.inl ⟨rfl, rfl⟩)⟩
    · exact ⟨before, .abort, rest, rfl, lasting, earlier,
        (next_ended_iff _ _).mpr (.inl ⟨rfl, rfl⟩)⟩

/-- It is answered if time passes its due while it lasts, and there is no abort before. -/
theorem ends_expired_iff (some : ∀ d ∈ due, 0 < d) : Ends t due uses .expired ↔
    ∃ before ms rest, uses = before ++ .pass ms :: rest ∧ Lasting t due before ∧
      .abort ∉ before ∧ ∃ d ∈ due, d ≤ passed before + ms := by
  rw [ends_iff some]
  constructor
  · rintro ⟨before, u, rest, rfl, lasting, quiet, now⟩
    rcases (next_ended_iff u _).mp now with ⟨-, other⟩ | ⟨ms, rfl, -, left, mem, reached⟩
    · cases other
    · obtain ⟨d, due, rfl⟩ := Option.map_eq_some_iff.mp mem
      exact ⟨before, ms, rest, rfl, lasting, quiet, d, due, Nat.sub_le_iff_le_add'.mp reached⟩
  · rintro ⟨before, ms, rest, rfl, lasting, quiet, d, due, reached⟩
    refine ⟨before, .pass ms, rest, rfl, lasting, quiet, (next_ended_iff _ _).mpr (.inr ?_)⟩
    exact ⟨ms, rfl, rfl, _, Option.mem_map_of_mem _ due, Nat.sub_le_iff_le_add'.mpr reached⟩

end Suspense

end Histories

end Bench

end ActionChain
