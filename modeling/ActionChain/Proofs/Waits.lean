import ActionChain.Proofs.History
import Mathlib.Data.List.Nodup

/-!
What becomes of the waits of a world, note by note. A note is anything that happens to a button as
far as waits are concerned. Main statement `Tidy.undergoAll`: whatever is noted, no ticket is ever
held twice.
-/
namespace ActionChain

/-- What can be noted down in the history of a button as far as it matters to waits. -/
inductive Note
  | enters (number : Nat)
  /-- An activation starts a sleep, which may be of no length. -/
  | sleeps (number : Nat) (pause : Micros)
  /-- An activation starts to wait for an answer, due after so many milliseconds or never. -/
  | submits (number : Nat) (due : Option Nat)
  | aborts
  | passes (time : Nat)
  /-- The one who waited goes on, or is given up. -/
  | frees (ticket : Ticket)
  | leaves (number : Nat)

/-- Whether a ticket is issued. -/
def Note.issues : Note → Bool
  | .sleeps .. | .submits .. => true
  | _ => false

/-- The notes that have issued tickets, in the order of the tickets. -/
def issuing (notes : List Note) : List Note := notes.filter (·.issues)

/-- The tickets that are held by waits or by ends not yet taken, after it. -/
def Note.held (next : Ticket) (tickets : List Ticket) : Note → List Ticket
  | .sleeps _ pause => if pause = 0 then tickets else next :: tickets
  | .submits .. => next :: tickets
  | .frees t => tickets.filter (· ≠ t)
  | _ => tickets

namespace World

variable {κ η : Type} {fixed : Fixed}

def waits (w : World κ η fixed) :
    Nat × Ticket × List Wait × Option Ticket × List (Ticket × Signal) :=
  (w.clock, w.nextTicket, w.pending, w.slot, w.woken)

def tickets (w : World κ η fixed) : List Ticket := w.pending.map (·.ticket) ++ w.woken.map (·.1)

def undergo [Form η] (w : World κ η fixed) : Note → World κ η fixed
  | .enters _ | .leaves _ => w
  | .sleeps _ pause => (w.sleep pause none).1
  | .submits _ due => w.wait .submission due
  | .aborts => w.abort
  | .passes time => w.passTo time
  | .frees ticket => w.forget ticket

def undergoAll [Form η] (w : World κ η fixed) (notes : List Note) : World κ η fixed :=
  notes.foldl undergo w

/-- No ticket is held twice, and all have been issued. -/
structure Tidy (w : World κ η fixed) : Prop where
  once : w.tickets.Nodup
  issued : ∀ t ∈ w.tickets, t < w.nextTicket

/-- No ticket has been issued yet. -/
structure Unused (w : World κ η fixed) : Prop where
  nextTicket : w.nextTicket = 0
  tickets : w.tickets = []

section Waits

variable {v w : World κ η fixed}

theorem waits_eq_iff : v.waits = w.waits ↔ v.clock = w.clock ∧ v.nextTicket = w.nextTicket ∧
    v.pending = w.pending ∧ v.slot = w.slot ∧ v.woken = w.woken := by
  simp [waits]

theorem tickets_congr (same : v.waits = w.waits) : v.tickets = w.tickets := by
  obtain ⟨-, -, pending, -, woken⟩ := waits_eq_iff.mp same
  rw [tickets, tickets, pending, woken]

theorem Tidy.congr (tidy : v.Tidy) (same : v.waits = w.waits) : w.Tidy := by
  obtain ⟨-, next, -⟩ := waits_eq_iff.mp same
  have tickets := tickets_congr same
  exact ⟨tickets ▸ tidy.once, tickets ▸ next ▸ tidy.issued⟩

/-- A pause is over in its last millisecond, and not before. -/
theorem milliseconds_tight (pause : Nat) :
    pause ≤ 1000 * milliseconds pause ∧ 1000 * milliseconds pause < pause + 1000 := by
  have rounded : milliseconds pause = (pause + 999) / 1000 := rfl
  omega

/-- Cancelling empties the slot; if the sleep in it is still pending, that one is over. -/
theorem cancelSleep_cases (w : World κ η fixed) :
    ((∀ t ∈ w.slot, ∀ p ∈ w.pending, p.ticket ≠ t) ∧ w.cancelSleep.1 = { w with slot := none }) ∨
      ∃ t, w.slot = some t ∧ (∃ p ∈ w.pending, p.ticket = t) ∧ w.cancelSleep.1 =
        { w with
          slot := none
          pending := w.pending.filter (·.ticket ≠ t)
          woken := w.woken ++ [(t, .cancelled)] } := by
  obtain ⟨_, _, _, _, waits, slot, _⟩ := w
  cases slot with
  | none => exact .inl ⟨by simp, rfl⟩
  | some t =>
    by_cases pending : waits.any (·.ticket = t) = true
    · exact .inr ⟨t, rfl, by simpa using pending, congrArg Prod.fst (if_pos pending)⟩
    · exact .inl ⟨by simpa using pending, congrArg Prod.fst (if_neg pending)⟩

/-- What a note does to the waits depends on nothing else. -/
theorem abort_element [Form η] (w : World κ η fixed) : w.abort.element = w.element := by
  have slept : w.cancelSleep.1.element = w.element := by
    rcases w.cancelSleep_cases with ⟨-, same⟩ | ⟨t, -, -, same⟩ <;> rw [same]
  exact slept

theorem undergo_congr [Form η] (same : v.waits = w.waits) (x : Note) :
    (v.undergo x).waits = (w.undergo x).waits := by
  obtain ⟨_, _, clock, next, pending, slot, woken⟩ := v
  obtain ⟨_, _, clock', next', pending', slot', woken'⟩ := w
  obtain ⟨rfl, rfl, rfl, rfl, rfl⟩ : clock = clock' ∧ next = next' ∧ pending = pending' ∧
    slot = slot' ∧ woken = woken' := waits_eq_iff.mp same
  cases x with
  | sleeps n pause =>
    by_cases zero : pause = 0 <;> simp [undergo, sleep, waits, wait, zero]
  | aborts =>
    cases slot with
    | none => rfl
    | some t =>
      simp only [undergo, abort, cancelSleep]
      split <;> rfl
  | _ => rfl

theorem undergoAll_congr [Form η] (same : v.waits = w.waits) (notes : List Note) :
    (v.undergoAll notes).waits = (w.undergoAll notes).waits := by
  induction notes generalizing v w with
  | nil => exact same
  | cons x rest ih => exact ih (undergo_congr same x)

theorem undergoAll_append [Form η] (w : World κ η fixed) (as bs : List Note) :
    w.undergoAll (as ++ bs) = (w.undergoAll as).undergoAll bs := List.foldl_append

theorem undergo_nextTicket [Form η] (w : World κ η fixed) (x : Note) :
    (w.undergo x).nextTicket = w.nextTicket + x.issues.toNat := by
  cases x with
  | sleeps n pause => by_cases zero : pause = 0 <;> simp [undergo, sleep, wait, zero, Note.issues]
  | aborts =>
    have kept : w.cancelSleep.1.nextTicket = w.nextTicket := by
      rcases w.cancelSleep_cases with ⟨-, same⟩ | ⟨t, -, -, same⟩ <;> rw [same]
    exact kept
  | _ => rfl

end Waits

section Tickets

variable {w : World κ η fixed}

theorem perm_of_parted (p : Wait → Bool) (ws : List Wait) (ts : List Ticket) :
    ((ws.filter fun x => !p x).map (·.ticket) ++ (ts ++ (ws.filter p).map (·.ticket))).Perm
      (ws.map (·.ticket) ++ ts) := by
  have parted := (List.filter_append_perm p ws).map (·.ticket)
  rw [List.map_append] at parted
  rw [← List.append_assoc]
  refine List.perm_append_comm.trans ?_
  rw [← List.append_assoc]
  exact parted.append_right ts

theorem cancelSleep_tickets (tidy : w.Tidy) : w.cancelSleep.1.tickets.Perm w.tickets := by
  rcases w.cancelSleep_cases with ⟨-, same⟩ | ⟨t, -, ⟨p, member, mine⟩, same⟩ <;> rw [same]
  · exact .refl _
  · have held : t ∈ w.pending.map (·.ticket) := List.mem_map.mpr ⟨p, member, mine⟩
    have one : (w.pending.filter (·.ticket = t)).map (·.ticket) = [t] := by
      have single := List.count_eq_one_of_mem tidy.once.of_append_left held
      have filtered := List.filter_eq (l := w.pending.map (·.ticket)) t
      rw [single, List.filter_map] at filtered
      exact filtered
    have perm := perm_of_parted (·.ticket = t) w.pending (w.woken.map (·.1))
    simpa [tickets, one] using perm

theorem cancelSubmissions_tickets (w : World κ η fixed) :
    w.cancelSubmissions.tickets.Perm w.tickets := by
  have perm := perm_of_parted (·.kind = .submission) w.pending (w.woken.map (·.1))
  simpa [tickets, cancelSubmissions, Function.comp_def] using perm

theorem expire_tickets (w : World κ η fixed) : w.expire.tickets.Perm w.tickets := by
  have perm := perm_of_parted (isDue w.clock) w.pending (w.woken.map (·.1))
  simpa [tickets, expire, Function.comp_def] using perm

theorem forget_tickets (t : Ticket) (w : World κ η fixed) :
    (w.forget t).tickets = w.tickets.filter (· ≠ t) := by
  simp [tickets, forget, List.filter_map, Function.comp_def]

theorem undergo_tickets [Form η] (tidy : w.Tidy) (x : Note) :
    (w.undergo x).tickets.Perm (x.held w.nextTicket w.tickets) := by
  cases x with
  | enters n | leaves n => exact .refl _
  | sleeps n pause =>
    by_cases zero : pause = 0
    · simp [undergo, sleep, zero, Note.held, tickets]
    · simp [undergo, sleep, zero, Note.held, tickets, wait]
  | submits n due => simp [undergo, wait, tickets, Note.held]
  | aborts => exact (cancelSubmissions_tickets _).trans (cancelSleep_tickets tidy)
  | passes time => exact expire_tickets _
  | frees t => exact .of_eq (forget_tickets t w)

theorem Tidy.held (tidy : w.Tidy) (x : Note) : (x.held w.nextTicket w.tickets).Nodup ∧
    ∀ t ∈ x.held w.nextTicket w.tickets, t < w.nextTicket + x.issues.toNat := by
  have fresh : w.nextTicket ∉ w.tickets := fun held => Nat.lt_irrefl _ (tidy.issued _ held)
  have added : (w.nextTicket :: w.tickets).Nodup ∧
      ∀ t ∈ w.nextTicket :: w.tickets, t < w.nextTicket + 1 := by
    refine ⟨List.nodup_cons.mpr ⟨fresh, tidy.once⟩, fun t member => ?_⟩
    rcases List.mem_cons.mp member with rfl | earlier
    · exact Nat.lt_succ_self _
    · exact Nat.lt_succ_of_lt (tidy.issued t earlier)
  have kept (more : Nat) : ∀ t ∈ w.tickets, t < w.nextTicket + more :=
    fun t held => Nat.lt_add_right more (tidy.issued t held)
  cases x with
  | sleeps n pause =>
    by_cases zero : pause = 0
    · simpa [Note.held, zero] using ⟨tidy.once, kept 1⟩
    · rw [Note.held, if_neg zero]
      exact added
  | submits n due => exact added
  | frees t =>
    exact ⟨tidy.once.filter _, fun u member => tidy.issued u (List.mem_filter.mp member).1⟩
  | enters | leaves | aborts | passes => exact ⟨tidy.once, kept 0⟩

theorem forget_first (tidy : w.Tidy) {t : Ticket} {signal : Signal} {rest : List (Ticket × Signal)}
    (woken : w.woken = (t, signal) :: rest) : w.forget t = { w with woken := rest } := by
  have once := tidy.once
  rw [tickets, woken, List.map_cons] at once
  have fresh := (List.nodup_cons.mp (List.nodup_middle.mp once)).1
  have pending : w.pending.filter (·.ticket ≠ t) = w.pending := by
    refine List.filter_eq_self.mpr fun p member => decide_eq_true fun same => ?_
    exact fresh (List.mem_append_left _ (List.mem_map.mpr ⟨p, member, same⟩))
  have others : rest.filter (·.1 ≠ t) = rest := by
    refine List.filter_eq_self.mpr fun e member => decide_eq_true fun same => ?_
    exact fresh (List.mem_append_right _ (List.mem_map.mpr ⟨e, member, same⟩))
  rw [forget, pending, woken, List.filter_cons_of_neg (by simp), others]

theorem Tidy.undergo [Form η] (tidy : w.Tidy) (x : Note) : (w.undergo x).Tidy where
  once := (undergo_tickets tidy x).nodup_iff.mpr (tidy.held x).1
  issued t held := by
    rw [undergo_nextTicket]
    exact (tidy.held x).2 t ((undergo_tickets tidy x).mem_iff.mp held)

theorem Tidy.undergoAll [Form η] (tidy : w.Tidy) (notes : List Note) :
    (w.undergoAll notes).Tidy := by
  induction notes generalizing w with
  | nil => exact tidy
  | cons x rest ih => exact ih (tidy.undergo x)

theorem undergoAll_nextTicket [Form η] (w : World κ η fixed) (notes : List Note) :
    (w.undergoAll notes).nextTicket = w.nextTicket + (issuing notes).length := by
  induction notes generalizing w with
  | nil => rfl
  | cons x rest ih =>
    have counted : (issuing (x :: rest)).length = x.issues.toNat + (issuing rest).length := by
      cases issues : x.issues <;> simp [issuing, issues, Nat.add_comm]
    rw [counted, ← Nat.add_assoc, ← undergo_nextTicket]
    exact ih (w.undergo x)

theorem Unused.tidy (unused : w.Unused) : w.Tidy := by
  constructor <;> simp [unused.tickets]

theorem Unused.next [Form η] (unused : w.Unused) (notes : List Note) :
    (w.undergoAll notes).nextTicket = (issuing notes).length := by
  rw [undergoAll_nextTicket, unused.nextTicket, Nat.zero_add]

/-- Only an abort cancels. -/
theorem cancelled_undergoAll [Form η] {t : Ticket} {notes : List Note}
    (cancelled : (t, .cancelled) ∈ (w.undergoAll notes).woken) :
    (t, .cancelled) ∈ w.woken ∨ .aborts ∈ notes := by
  induction notes generalizing w with
  | nil => exact .inl cancelled
  | cons x rest ih =>
    rcases ih cancelled with now | later
    · cases x with
      | aborts => exact .inr (List.mem_cons_self ..)
      | sleeps n pause =>
        refine .inl ?_
        by_cases zero : pause = 0 <;> simpa [World.undergo, sleep, wait, zero] using now
      | passes time => exact .inl (by simpa [World.undergo, passTo, expire] using now)
      | frees u => exact .inl (List.mem_filter.mp now).1
      | enters | leaves | submits => exact .inl now
    · exact .inr (List.mem_cons_of_mem _ later)

theorem cancelSleep_pending (w : World κ η fixed) : w.cancelSleep.1.pending ⊆ w.pending := by
  rcases w.cancelSleep_cases with ⟨-, same⟩ | ⟨t, -, -, same⟩ <;> rw [same]
  · exact List.Subset.refl _
  · exact List.filter_subset_self _

/-- Nothing is pending but what has been noted. -/
theorem pending_noted [Form η] {notes : List Note} {p : Wait}
    (pending : p ∈ (w.undergoAll notes).pending) (kind : p.kind = .sleep) :
    p ∈ w.pending ∨ ∃ before n pause since, notes = before ++ .sleeps n pause :: since ∧ pause ≠ 0 ∧
      p.ticket = (w.undergoAll before).nextTicket := by
  induction notes generalizing w with
  | nil => exact .inl pending
  | cons x rest ih =>
    rcases ih pending with now | ⟨before, n, pause, since, rfl, some, issued⟩
    · cases x with
      | enters | leaves => exact .inl now
      | sleeps n pause =>
        by_cases zero : pause = 0
        · refine .inl ?_
          simpa [World.undergo, sleep, zero] using now
        · have added : p ∈ w.pending ∨
              p = ⟨w.nextTicket, .sleep, some (w.clock + milliseconds pause)⟩ := by
            simpa [World.undergo, sleep, wait, zero] using now
          rcases added with earlier | rfl
          · exact .inl earlier
          · exact .inr ⟨[], n, pause, rest, rfl, zero, rfl⟩
      | submits n due =>
        rcases List.mem_append.mp now with earlier | added
        · exact .inl earlier
        · rw [List.mem_singleton.mp added] at kind
          cases kind
      | aborts =>
        exact .inl (cancelSleep_pending w (List.mem_filter.mp now).1)
      | passes | frees => exact .inl (List.mem_filter.mp now).1
    · exact .inr ⟨x :: before, n, pause, since, rfl, some, issued⟩

end Tickets

section Ends

variable {t : Ticket} {w : World κ η fixed}

theorem mem_woken_passTo (time : Nat) (s : Signal) : (t, s) ∈ (w.passTo time).woken ↔
    (t, s) ∈ w.woken ∨ (∃ p ∈ w.pending, isDue time p = true ∧ p.ticket = t) ∧ s = .expired := by
  simp only [passTo, expire, List.mem_append, List.mem_map, List.mem_filter,
    Prod.mk.injEq]
  refine or_congr_right ⟨?_, ?_⟩
  · rintro ⟨p, ⟨member, ended⟩, same, rfl⟩
    exact ⟨⟨p, member, ended, same⟩, rfl⟩
  · rintro ⟨⟨p, member, ended, same⟩, rfl⟩
    exact ⟨p, ⟨member, ended⟩, same, rfl⟩

theorem mem_pending_passTo (time : Nat) (p : Wait) :
    p ∈ (w.passTo time).pending ↔ p ∈ w.pending ∧ isDue time p = false := by
  simp [passTo, expire]

theorem slot_passTo (time : Nat) : (w.passTo time).slot = some t ↔
    w.slot = some t ∧ ∀ p ∈ w.pending, isDue time p = true → p.ticket ≠ t := by
  simp [passTo, expire, Option.filter_eq_some_iff]

/-- The wait is not over by itself. -/
def Endless (t : Ticket) (w : World κ η fixed) : Prop :=
  (∀ p ∈ w.pending, p.ticket = t → p.due = none) ∧ (t, .expired) ∉ w.woken

theorem endless_submits [Form η] (tidy : w.Tidy) (n : Nat) :
    (w.undergo (.submits n none)).Endless w.nextTicket := by
  have fresh : w.nextTicket ∉ w.tickets := fun held => Nat.lt_irrefl _ (tidy.issued _ held)
  refine ⟨fun p member mine => ?_, fun woken => fresh ?_⟩
  · rcases List.mem_append.mp member with earlier | now
    · exact absurd (mine ▸ List.mem_append_left _ (List.mem_map_of_mem earlier)) fresh
    · rw [List.mem_singleton.mp now]
      rfl
  · exact List.mem_append_right _ (List.mem_map_of_mem (f := (·.1)) woken)

theorem Endless.cancelSleep (endless : w.Endless t) : w.cancelSleep.1.Endless t := by
  rcases w.cancelSleep_cases with ⟨-, same⟩ | ⟨u, -, -, same⟩ <;> rw [same]
  · exact endless
  · refine ⟨fun p member => endless.1 p (List.mem_filter.mp member).1, fun woken => ?_⟩
    rcases List.mem_append.mp woken with earlier | now
    · exact endless.2 earlier
    · simp at now

theorem Endless.undergo [Form η] (endless : w.Endless t) (issued : t < w.nextTicket) (x : Note) :
    (w.undergo x).Endless t := by
  have later : w.nextTicket ≠ t := Nat.ne_of_gt issued
  have waiting (kind : WaitKind) (due : Option Nat) (p : Wait)
      (member : p ∈ w.pending ++ [⟨w.nextTicket, kind, due⟩]) (mine : p.ticket = t) :
      p.due = none := by
    rcases List.mem_append.mp member with earlier | now
    · exact endless.1 p earlier mine
    · rw [List.mem_singleton.mp now] at mine
      exact absurd mine later
  cases x with
  | enters n | leaves n => exact endless
  | sleeps n pause =>
    by_cases zero : pause = 0
    · simpa [Endless, World.undergo, sleep, zero] using endless
    · simp only [Endless, World.undergo, sleep, wait, if_neg zero]
      exact ⟨waiting .sleep _, endless.2⟩
  | submits n due => exact ⟨waiting .submission _, endless.2⟩
  | aborts =>
    have slept := endless.cancelSleep
    refine ⟨fun p member => slept.1 p (List.mem_filter.mp member).1, fun woken => ?_⟩
    rcases List.mem_append.mp woken with earlier | now
    · exact slept.2 earlier
    · simp at now
  | passes time =>
    refine ⟨fun p member => endless.1 p ((mem_pending_passTo time p).mp member).1, ?_⟩
    simp only [World.undergo, mem_woken_passTo]
    rintro (earlier | ⟨⟨p, member, ended, mine⟩, -⟩)
    · exact endless.2 earlier
    · simp [isDue, endless.1 p member mine] at ended
  | frees u =>
    exact ⟨fun p member => endless.1 p (List.mem_filter.mp member).1,
      fun woken => endless.2 (List.mem_filter.mp woken).1⟩

theorem Endless.undergoAll [Form η] (endless : w.Endless t) (issued : t < w.nextTicket)
    (notes : List Note) : (w.undergoAll notes).Endless t := by
  induction notes generalizing w with
  | nil => exact endless
  | cons x rest ih =>
    refine ih (endless.undergo issued x) ?_
    rw [undergo_nextTicket]
    exact Nat.lt_add_right _ issued

end Ends

end World

end ActionChain
