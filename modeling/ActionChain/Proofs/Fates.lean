import ActionChain.Proofs.Waits

/-!
The fate of a sleep. From its start on it is pending, has ended or is gone, and which of these
follows from what has been noted since: an abort ends it as long as no other sleep has been started,
time ends it when it is due, and nothing else ends it. Main statement `Fate.after_holds`.
-/
namespace ActionChain

/-- What may become of a sleep. -/
inductive Fate
  /-- It lasts, and may be the one that was started last. -/
  | asleep (latest : Bool)
  /-- It has ended, and its activation has not gone on yet. -/
  | ended (signal : Signal)
  | gone
  deriving DecidableEq

namespace Fate

/-- How the fate of a sleep goes on, by its ticket and the time at which it is due. An abort ends it
if no other sleep has been started since; time ends it when it is due, and nothing else does. -/
def next (ticket : Ticket) (due : Nat) : Fate → Note → Fate
  | .asleep _, .sleeps .. => .asleep false
  | .asleep true, .aborts => .ended .cancelled
  | .asleep latest, .passes time => if due ≤ time then .ended .expired else .asleep latest
  | .asleep latest, .frees t => if t = ticket then .gone else .asleep latest
  | .ended signal, .frees t => if t = ticket then .gone else .ended signal
  | f, _ => f

def after (ticket : Ticket) (due : Nat) (notes : List Note) : Fate :=
  notes.foldl (next ticket due) (.asleep true)

theorem after_append (t : Ticket) (due : Nat) (notes more : List Note) :
    after t due (notes ++ more) = more.foldl (next t due) (after t due notes) := List.foldl_append

/-- As long as no ticket is issued, a sleep stays the one that was started last. -/
theorem after_latest {t : Ticket} {due : Nat} {notes : List Note}
    (none_issued : issuing notes = []) : after t due notes ≠ .asleep false := by
  have kept (f : Fate) (latest : f ≠ .asleep false) :
      notes.foldl (next t due) f ≠ .asleep false := by
    induction notes generalizing f with
    | nil => exact latest
    | cons x rest ih =>
      have still : next t due f x ≠ .asleep false := by
        cases x <;> rcases f with (_ | _) | _ | _ <;> simp_all [next, issuing, Note.issues] <;>
          split <;> simp
      refine ih ?_ _ still
      cases issues : x.issues <;> simp_all [issuing]
  exact kept _ (by decide)

variable {κ η : Type} {fixed : Fixed}

/-- What a fate means for the waits of a world. -/
def Holds (t : Ticket) (due : Nat) (w : World κ η fixed) : Fate → Prop
  | .asleep latest => ⟨t, .sleep, some due⟩ ∈ w.pending ∧ (∀ s, (t, s) ∉ w.woken) ∧
      (w.slot = some t ↔ latest = true)
  | .ended signal => (∀ p ∈ w.pending, p.ticket ≠ t) ∧ (∀ s, (t, s) ∈ w.woken ↔ s = signal) ∧
      w.slot ≠ some t
  | .gone => (∀ p ∈ w.pending, p.ticket ≠ t) ∧ ∀ s, (t, s) ∉ w.woken

variable {t : Ticket} {due : Nat} {f : Fate} {v w : World κ η fixed}

theorem Holds.congr (holds : f.Holds t due v) (same : v.waits = w.waits) : f.Holds t due w := by
  obtain ⟨-, -, pending, slot, woken⟩ := World.waits_eq_iff.mp same
  cases f <;> simpa [Holds, pending, slot, woken] using holds

theorem holds_started [Form η] (tidy : w.Tidy) (n : Nat) {pause : Micros} (some : pause ≠ 0) :
    (Fate.asleep true).Holds w.nextTicket (w.clock + World.milliseconds pause)
      (w.undergo (.sleeps n pause)) := by
  have fresh (s : Signal) : (w.nextTicket, s) ∉ w.woken := by
    intro woken
    have held : w.nextTicket ∈ w.tickets :=
      List.mem_append_right _ (List.mem_map_of_mem (f := (·.1)) woken)
    exact Nat.lt_irrefl _ (tidy.issued _ held)
  simpa [Holds, World.undergo, World.sleep, World.wait, some] using fresh

theorem Holds.wait (holds : f.Holds t due w) (issued : t < w.nextTicket) (n : Nat)
    (length : Option Nat) [Form η] : f.Holds t due (w.undergo (.submits n length)) := by
  have later : w.nextTicket ≠ t := Nat.ne_of_gt issued
  cases f with
  | asleep latest => exact ⟨List.mem_append_left _ holds.1, holds.2⟩
  | ended signal => simpa [Holds, World.undergo, World.wait, or_imp, forall_and, later] using holds
  | gone => simpa [Holds, World.undergo, World.wait, or_imp, forall_and, later] using holds

theorem Holds.sleep [Form η] (holds : f.Holds t due w) (issued : t < w.nextTicket) (n : Nat)
    (pause : Micros) :
    (f.next t due (.sleeps n pause)).Holds t due (w.undergo (.sleeps n pause)) := by
  have later : w.nextTicket ≠ t := Nat.ne_of_gt issued
  cases f <;> by_cases zero : pause = 0 <;>
    simp_all [Holds, next, World.undergo, World.sleep, World.wait, or_imp]

theorem Holds.cancelSleep (holds : f.Holds t due w) :
    (f.next t due .aborts).Holds t due w.cancelSleep.1 := by
  rcases w.cancelSleep_cases with ⟨dead, same⟩ | ⟨u, slot, ⟨p, member, mine⟩, same⟩ <;> rw [same]
  · cases f with
    | asleep latest =>
      obtain ⟨pending, silent, latest_iff⟩ := holds
      have older : latest = false := by
        rw [← Bool.not_eq_true, ← latest_iff]
        exact fun slot => dead t slot _ pending rfl
      simpa [Holds, next, older] using ⟨pending, silent⟩
    | ended signal => exact ⟨holds.1, holds.2.1, by simp⟩
    | gone => exact holds
  · by_cases this_one : u = t
    · subst this_one
      cases f with
      | asleep latest =>
        obtain rfl : latest = true := holds.2.2.mp slot
        have silent := holds.2.1
        simp [Holds, next, silent]
      | ended signal => exact absurd slot holds.2.2
      | gone => exact absurd mine (holds.1 p member)
    · have apart : t ≠ u := Ne.symm this_one
      cases f with
      | asleep latest =>
        have older : latest = false := by simpa [slot, this_one] using holds.2.2
        simpa [Holds, next, older, apart] using ⟨holds.1, holds.2.1⟩
      | ended signal =>
        simpa [Holds, next, apart] using ⟨fun p member _ => holds.1 p member, holds.2.1⟩
      | gone => simpa [Holds, next, apart] using ⟨fun p member _ => holds.1 p member, holds.2⟩

theorem Holds.cancelSubmissions (holds : f.Holds t due w) (once : w.tickets.Nodup) :
    f.Holds t due w.cancelSubmissions := by
  have apart : (∀ p ∈ w.pending, p.kind = .submission → p.ticket ≠ t) →
      ∀ s, (t, s) ∈ w.cancelSubmissions.woken ↔ (t, s) ∈ w.woken := by
    intro others s
    simp only [World.cancelSubmissions, List.mem_append, List.mem_map, or_iff_left_iff_imp]
    rintro ⟨p, member, same⟩
    have filtered := List.mem_filter.mp member
    exact absurd (congrArg Prod.fst same) (others p filtered.1 (of_decide_eq_true filtered.2))
  cases f with
  | asleep latest =>
    obtain ⟨pending, silent, slot⟩ := holds
    have woken := apart fun p member kind same => by
      have equal := List.inj_on_of_nodup_map once.of_append_left member pending same
      simp [equal] at kind
    refine ⟨List.mem_filter.mpr ⟨pending, by simp⟩, fun s => ?_, slot⟩
    rw [woken]
    exact silent s
  | ended signal =>
    have woken := apart fun p member _ => holds.1 p member
    refine ⟨fun p member => holds.1 p (List.mem_filter.mp member).1, fun s => ?_, holds.2.2⟩
    rw [woken]
    exact holds.2.1 s
  | gone =>
    have woken := apart fun p member _ => holds.1 p member
    refine ⟨fun p member => holds.1 p (List.mem_filter.mp member).1, fun s => ?_⟩
    rw [woken]
    exact holds.2 s

theorem Holds.passTo (holds : f.Holds t due w) (once : w.tickets.Nodup) (time : Nat) :
    (f.next t due (.passes time)).Holds t due (w.passTo time) := by
  have unaffected (others : ∀ p ∈ w.pending, World.isDue time p = true → p.ticket ≠ t) :
      (∀ s, (t, s) ∈ (w.passTo time).woken ↔ (t, s) ∈ w.woken) ∧
        ((w.passTo time).slot = some t ↔ w.slot = some t) := by
    refine ⟨fun s => ?_, (World.slot_passTo time).trans (and_iff_left others)⟩
    rw [World.mem_woken_passTo, or_iff_left]
    rintro ⟨⟨p, member, ended, same⟩, -⟩
    exact others p member ended same
  have fewer (p : Wait) (member : p ∈ (w.passTo time).pending) : p ∈ w.pending :=
    ((World.mem_pending_passTo time p).mp member).1
  cases f with
  | asleep latest =>
    obtain ⟨pending, silent, slot⟩ := holds
    have alone (p : Wait) (member : p ∈ w.pending) (same : p.ticket = t) :
        p = ⟨t, .sleep, some due⟩ :=
      List.inj_on_of_nodup_map once.of_append_left member pending same
    by_cases ended : due ≤ time
    · have isDue : World.isDue time ⟨t, .sleep, some due⟩ = true := by
        simpa [World.isDue] using ended
      rw [next, if_pos ended]
      refine ⟨fun p member same => ?_, fun s => ?_, fun still => ?_⟩
      · obtain ⟨member, lasting⟩ := (World.mem_pending_passTo time p).mp member
        rw [alone p member same, isDue] at lasting
        exact absurd lasting (by decide)
      · rw [World.mem_woken_passTo, or_iff_right (silent s), and_iff_right ⟨_, pending, isDue, rfl⟩]
      · exact ((World.slot_passTo time).mp still).2 _ pending isDue rfl
    · have lasting : World.isDue time ⟨t, .sleep, some due⟩ = false := by
        simpa [World.isDue] using ended
      have others (p : Wait) (member : p ∈ w.pending) (isDue : World.isDue time p = true) :
          p.ticket ≠ t := by
        intro same
        rw [alone p member same, lasting] at isDue
        exact absurd isDue (by decide)
      obtain ⟨woken, kept⟩ := unaffected others
      rw [next, if_neg ended]
      have still := (World.mem_pending_passTo time _).mpr ⟨pending, lasting⟩
      refine ⟨still, fun s => ?_, kept.trans slot⟩
      rw [woken]
      exact silent s
  | ended signal =>
    obtain ⟨woken, kept⟩ := unaffected fun p member _ => holds.1 p member
    refine ⟨fun p member => holds.1 p (fewer p member), fun s => ?_, kept.not.mpr holds.2.2⟩
    rw [woken]
    exact holds.2.1 s
  | gone =>
    obtain ⟨woken, -⟩ := unaffected fun p member _ => holds.1 p member
    refine ⟨fun p member => holds.1 p (fewer p member), fun s => ?_⟩
    rw [woken]
    exact holds.2 s

theorem Holds.forget (holds : f.Holds t due w) (u : Ticket) :
    (f.next t due (.frees u)).Holds t due (w.forget u) := by
  by_cases same : u = t
  · cases f <;> simp_all [Holds, next, World.forget]
  · have apart : t ≠ u := Ne.symm same
    cases f <;> simp_all [Holds, next, World.forget]

/-- A sleep meets its fate. -/
theorem Holds.undergo [Form η] (holds : f.Holds t due w) (tidy : w.Tidy) (issued : t < w.nextTicket)
    (x : Note) : (f.next t due x).Holds t due (w.undergo x) := by
  cases x with
  | enters n | leaves n =>
    cases f with
    | asleep latest => cases latest <;> exact holds
    | ended | gone => exact holds
  | sleeps n pause => exact holds.sleep issued n pause
  | submits n length =>
    have same : f.next t due (.submits n length) = f := by
      cases f with
      | asleep latest => cases latest <;> rfl
      | ended | gone => rfl
    rw [same]
    exact holds.wait issued n length
  | aborts =>
    have once := (World.cancelSleep_tickets tidy).nodup_iff.mpr tidy.once
    exact Holds.cancelSubmissions (w := { w.cancelSleep.1 with page := _ }) holds.cancelSleep once
  | passes time => exact holds.passTo tidy.once time
  | frees u => exact holds.forget u

theorem Holds.undergoAll [Form η] (holds : f.Holds t due w) (tidy : w.Tidy)
    (issued : t < w.nextTicket) (notes : List Note) :
    (notes.foldl (next t due) f).Holds t due (w.undergoAll notes) := by
  induction notes generalizing f w with
  | nil => exact holds
  | cons x rest ih =>
    refine ih (holds.undergo tidy issued x) (tidy.undergo x) ?_
    rw [World.undergo_nextTicket]
    exact Nat.lt_add_right _ issued

/-- From its start on, whatever happens, a sleep meets its fate. -/
theorem after_holds [Form η] (tidy : w.Tidy) (n : Nat) {pause : Micros} (some : pause ≠ 0)
    (notes : List Note) :
    (after w.nextTicket (w.clock + World.milliseconds pause) notes).Holds w.nextTicket
      (w.clock + World.milliseconds pause) (w.undergoAll (.sleeps n pause :: notes)) := by
  refine (holds_started tidy n some).undergoAll (tidy.undergo _) ?_ notes
  rw [World.undergo_nextTicket]
  exact Nat.lt_succ_self _

/-- A later sleep keeps an abort from an earlier one. -/
example : after 0 5 [.sleeps 1 2, .aborts, .passes 5] = .ended .expired := rfl

end Fate

end ActionChain
