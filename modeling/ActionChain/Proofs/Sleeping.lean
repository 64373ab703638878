import ActionChain.Proofs.Incidents

/-!
Sleeps of overlapping activations. Main statement `sleeps_fated`: an abort cancels the sleep that
was started last if it is still pending, and no other one; its activation then settles as aborted;
every other sleep lasts its full time, and its activation goes on.
-/
namespace ActionChain.Button

variable {κ η : Type} {fixed : Fixed} [Form η] {script : Script κ η fixed} {plan : Plan κ η fixed}

/-- What becomes of a sleep of an activation, up to a button `c`, if it was started on the way from
`b` between the notes `before` and `since`. -/
structure Slept (script : Script κ η fixed) (plan : Plan κ η fixed) (b c : Button κ η fixed)
    (before : List Note) (number : Nat) (ticket : Ticket) (due : Nat) (pause : Micros)
    (since : List Note) : Prop where
  /-- It is due at the first whole millisecond at which its pause is over. -/
  measured : pause ≤ 1000 * (due - (b.world.undergoAll before).clock) ∧
    1000 * (due - (b.world.undergoAll before).clock) < pause + 1000
  /-- At all times on the way. -/
  fated : ∀ part, part <+: since → (Fate.after ticket due part).Holds ticket due
    (b.world.undergoAll (before ++ .sleeps number pause :: part))
  now : (Fate.after ticket due since).Holds ticket due c.world
  kept : Fate.after ticket due since ≠ .gone →
    ∃ r ∈ c.running, r.number = number ∧ r.paused.ticket = ticket
  /-- While it lasts, it is not given up, unless its activation is dropped. -/
  lasting : ∀ part rest latest, since = part ++ .frees ticket :: rest →
    Fate.after ticket due part = .asleep latest → (number, .dropped) ∈ c.endings
  /-- Cancelled, its activation ends, and nothing else is done. -/
  aborted : Fate.after ticket due since = .ended .cancelled →
    c.meet (.wake ticket) =
        ((c.change (·.forget ticket)).takeUp number).finish number (.outcome .aborted) ∧
      c.notes script plan (.wake ticket) = [.frees ticket, .leaves number]
  /-- Over, its activation goes on with the steps that are left, on the value it was given. -/
  resumed : Fate.after ticket due since = .ended .expired → ∃ r ∈ c.running, ∃ value,
    r.number = number ∧ r.paused.ticket = ticket ∧
      (∀ w, r.paused.resume .expired w = (w, .ok value)) ∧
      c.meet (.wake ticket) =
        ((c.change (·.forget ticket)).takeUp number).place number
          (Activation.runChain r.paused.phase (Activation.rejected c.reject r.paused.phase)
            r.paused.rest value (c.world.forget ticket))
  /-- Where activations in flight are respected, an abort always finds it. -/
  respected : fixed.settings.reentrancy = .ignore →
    ∀ latest, Fate.after ticket due since = .asleep latest →
      Fate.after ticket due (since ++ [.aborts]) = .ended .cancelled

section Sleep

variable {first : World κ η fixed} {h before since : List Note} {b c : Button κ η fixed} {n : Nat}
  {pause : Micros}

theorem Kept.sleeper (kept : Kept script plan first h [] c)
    (whole : h = before ++ .sleeps n pause :: since)
    (held : (first.undergoAll before).nextTicket ∈ c.world.tickets) :
    ∃ r ∈ c.running, r.number = n ∧ r.paused.ticket = (first.undergoAll before).nextTicket ∧
      ∃ value, r.paused.resume = fun signal w => (w, World.afterSleep value signal) := by
  obtain ⟨r, member, mine⟩ := kept.waiter held
  obtain ⟨x, found, starts⟩ := (kept.waiting r member).started
  have slept : (issuing h)[r.paused.ticket]? = some (.sleeps n pause) := by
    rw [mine, kept.begun.next, whole]
    exact issuing_at rfl before since
  obtain rfl : x = .sleeps n pause := Option.some.inj (found.symm.trans slept)
  refine ⟨r, member, ?_⟩
  generalize r.paused.resume = resume at starts ⊢
  cases starts with
  | sleep value some => exact ⟨rfl, mine, value, rfl⟩

theorem Kept.slept (kept : Kept script plan b.world h [] c)
    (frees : ∀ part rest t, h = part ++ .frees t :: rest →
      ∃ d, Kept script plan b.world part [] d ∧ ((∃ signal, (t, signal) ∈ d.world.woken) ∨
        ∃ r ∈ d.running, r.paused.ticket = t ∧ (r.number, .dropped) ∈ c.endings))
    (whole : h = before ++ .sleeps n pause :: since) (some : pause ≠ 0) :
    Slept script plan b c before n (b.world.undergoAll before).nextTicket
      ((b.world.undergoAll before).clock + World.milliseconds pause) pause since := by
  generalize ticket : (b.world.undergoAll before).nextTicket = t
  generalize ready : (b.world.undergoAll before).clock + World.milliseconds pause = due
  have fated (part : List Note) : (Fate.after t due part).Holds t due
      (b.world.undergoAll (before ++ .sleeps n pause :: part)) := by
    rw [World.undergoAll_append, ← ticket, ← ready]
    exact Fate.after_holds (kept.begun.tidy.undergoAll before) n some part
  have now : (Fate.after t due since).Holds t due c.world := by
    have held := fated since
    rw [← whole] at held
    exact held.congr kept.accounted
  have sleeper (held : t ∈ c.world.tickets) :
      ∃ r ∈ c.running, r.number = n ∧ r.paused.ticket = t ∧
        ∃ value, r.paused.resume = fun signal w => (w, World.afterSleep value signal) := by
    subst ticket
    exact kept.sleeper whole held
  have slept {signal : Signal} (fate : Fate.after t due since = .ended signal) :
      ∃ r ∈ c.running, r.number = n ∧ r.paused.ticket = t ∧ (t, signal) ∈ c.world.woken ∧
        ∃ value, r.paused.resume = fun signal w => (w, World.afterSleep value signal) := by
    rw [fate] at now
    have woken : (t, signal) ∈ c.world.woken := (now.2.1 signal).mpr rfl
    have held : t ∈ c.world.tickets :=
      List.mem_append_right _ (List.mem_map_of_mem (f := (·.1)) woken)
    obtain ⟨r, member, number, mine, resumes⟩ := sleeper held
    exact ⟨r, member, number, mine, woken, resumes⟩
  constructor
  case measured =>
    rw [← ready, Nat.add_sub_cancel_left]
    exact World.milliseconds_tight pause
  case fated => exact fun part _ => fated part
  case now => exact now
  case kept =>
    intro there
    have held : t ∈ c.world.tickets := by
      cases fate : Fate.after t due since with
      | asleep latest =>
        rw [fate] at now
        exact List.mem_append_left _ (List.mem_map_of_mem now.1)
      | ended signal =>
        obtain ⟨r, -, -, -, woken, -⟩ := slept fate
        exact List.mem_append_right _ (List.mem_map_of_mem (f := (·.1)) woken)
      | gone => exact absurd fate there
    obtain ⟨r, member, number, mine, -⟩ := sleeper held
    exact ⟨r, member, number, mine⟩
  case lasting =>
    intro part rest latest parts asleep
    obtain ⟨d, then_kept, freed⟩ := frees (before ++ .sleeps n pause :: part) rest t
      (by simp [whole, parts])
    have then_asleep := (fated part).congr then_kept.accounted
    rw [asleep] at then_asleep
    rcases freed with ⟨signal, woken⟩ | ⟨r, member, mine, dropped⟩
    · exact absurd woken (then_asleep.2.1 signal)
    · have held := List.mem_append_left (d.world.woken.map (·.1))
        (List.mem_map_of_mem (f := (·.ticket)) then_asleep.1)
      subst ticket
      obtain ⟨s, other, number, same, -⟩ := then_kept.sleeper rfl held
      have once := then_kept.held.nodup_iff.mp then_kept.tidy.once
      rw [← number, ← List.inj_on_of_nodup_map once member other (mine.trans same.symm)]
      exact dropped
  case aborted =>
    intro fate
    obtain ⟨r, member, rfl, rfl, woken, value, resumes⟩ := slept fate
    obtain ⟨meets, notes⟩ := kept.woken member woken
    have did : r.paused.resume .cancelled (c.world.forget r.paused.ticket) =
        (c.world.forget r.paused.ticket, .error .aborted) := by rw [resumes]; rfl
    obtain ⟨nothing, stopped⟩ := resumed_aborted did c.reject
    rw [meets, notes, nothing, stopped]
    exact ⟨rfl, rfl⟩
  case resumed =>
    intro fate
    obtain ⟨r, member, rfl, rfl, woken, value, resumes⟩ := slept fate
    obtain ⟨meets, -⟩ := kept.woken member woken
    refine ⟨r, member, value, rfl, rfl, fun w => by rw [resumes]; rfl, ?_⟩
    rw [meets, Activation.resume, resumes]
    rfl
  case respected =>
    intro ignoring latest asleep
    rw [asleep] at now
    obtain ⟨r, member, -, mine, -⟩ :=
      sleeper (List.mem_append_left _ (List.mem_map_of_mem now.1))
    have none_issued : issuing since = [] := by
      have last := kept.last ignoring r member
      rw [mine, kept.next, whole, issuing_append, List.length_append, ← ticket,
        kept.begun.next] at last
      have one : (issuing (.sleeps n pause :: since)).length = 1 := (Nat.add_left_cancel last).symm
      exact List.eq_nil_of_length_eq_zero (Nat.succ.inj one)
    obtain rfl : latest = true := by
      cases latest with
      | true => rfl
      | false => exact absurd asleep (Fate.after_latest none_issued)
    rw [Fate.after_append, asleep]
    rfl

end Sleep

/-- In whatever order activations are started, go on and are dropped, time passes and aborts are
made: the waits are what the notes make of them, every sleep meets its fate at its due time, nothing
sleeps unnoted, and no activation of plain chains settles as aborted unless there was an abort during
its life. To go on with all that can go on is one such order. -/
theorem sleeps_fated (settings : ButtonSettings) (element : Element κ) (page : η)
    (script : Script κ η ⟨settings, element.classes.text⟩)
    (plan : Plan κ η ⟨settings, element.classes.text⟩)
    (incidents : List (Incident κ η ⟨settings, element.classes.text⟩)) :
    let b := ofChains settings element page (plan.chains script)
    let h := b.log script plan incidents
    let c := b.meetAll incidents
    (b.world.undergoAll h).waits = c.world.waits ∧
      (∀ before number pause since, h = before ++ .sleeps number pause :: since → pause ≠ 0 →
        ∃ due, Slept script plan b c before number (b.world.undergoAll before).nextTicket due pause
          since) ∧
      (∀ p ∈ c.world.pending, p.kind = .sleep →
        ∃ before number pause since, h = before ++ .sleeps number pause :: since ∧ pause ≠ 0 ∧
          p.ticket = (b.world.undergoAll before).nextTicket) ∧
      (plan.Plain → ∀ number, (number, .outcome .aborted) ∈ c.endings → Felled number h) ∧
      ∃ tickets : List Ticket, c.settle = c.meetAll (tickets.map .wake) := by
  intro b h c
  have new : Kept script plan b.world [] [] b := kept_new ⟨rfl, rfl⟩ rfl rfl rfl rfl
  have kept : Kept script plan b.world h [] c := by simpa using new.meetAll incidents
  refine ⟨kept.accounted, ?_, ?_, kept.aborted, kept.resumeWoken_met _⟩
  · intro before number pause since whole some
    refine ⟨_, kept.slept (fun part rest t noted => ?_) whole some⟩
    obtain ⟨d, then_kept, freed⟩ := new.frees_all noted
    exact ⟨d, by simpa using then_kept, freed⟩
  · intro p pending kind
    obtain ⟨-, -, same, -, -⟩ := World.waits_eq_iff.mp kept.accounted
    rcases World.pending_noted (same ▸ pending) kind with absent | noted
    · exact absurd absent List.not_mem_nil
    · exact noted

end ActionChain.Button
