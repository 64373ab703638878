import ActionChain.Proofs.Notes

/-!
What happens to a button, and what is noted of it. Main statement `Kept.meetAll`: whatever happens,
the notes account for the waits, each wait is that of one activation which has entered and not left,
and where activations in flight are respected the last ticket is that of the one that waits.
-/
namespace ActionChain

variable {κ η : Type} {fixed : Fixed}

/-- What can happen to a button. -/
inductive Incident (κ η : Type) (fixed : Fixed)
  | activate
  /-- The activation that holds the ticket goes on, if its wait has ended. -/
  | wake (ticket : Ticket)
  | drop (number : Nat)
  | pass (milliseconds : Nat)
  | deed (d : Deed κ η fixed)

/-- The notes since an activation has entered, and those before. -/
structure Alive (number : Nat) (h before since : List Note) : Prop where
  whole : h = before ++ .enters number :: since
  once : .enters number ∉ since
  staying : .leaves number ∉ since

/-- The activation is over, and there was an abort during its life. -/
def Felled (number : Nat) (h : List Note) : Prop :=
  ∃ before life later, h = before ++ .enters number :: life ++ .leaves number :: later ∧
    .aborts ∈ life ∧ .enters number ∉ life ∧ .leaves number ∉ life

section Notes

variable {n : Nat} {h p q more : List Note}

theorem Alive.append (alive : Alive n h p q) (enters : .enters n ∉ more)
    (leaves : .leaves n ∉ more) : Alive n (h ++ more) p (q ++ more) where
  whole := by rw [alive.whole, List.append_assoc, List.cons_append]
  once := by simp [alive.once, enters]
  staying := by simp [alive.staying, leaves]

theorem Alive.felled (alive : Alive n h p q) (aborts : .aborts ∈ q) :
    Felled n (h ++ [.leaves n]) := by
  refine ⟨p, q, [], ?_, aborts, alive.once, alive.staying⟩
  rw [alive.whole, List.append_assoc]

theorem Felled.append (felled : Felled n h) (more : List Note) : Felled n (h ++ more) := by
  obtain ⟨before, life, later, rfl, rest⟩ := felled
  exact ⟨before, life, later ++ more, by simp, rest⟩

theorem issuing_append (p q : List Note) : issuing (p ++ q) = issuing p ++ issuing q :=
  List.filter_append ..

theorem issuing_at {x : Note} (issues : x.issues = true) (p q : List Note) :
    (issuing (p ++ x :: q))[(issuing p).length]? = some x := by
  simp [issuing, issues]

theorem split_of_issuing {t : Ticket} {x : Note} (found : (issuing h)[t]? = some x) :
    ∃ p q, h = p ++ x :: q ∧ (issuing p).length = t := by
  induction h generalizing t with
  | nil => simp [issuing] at found
  | cons y rest ih =>
    by_cases issues : y.issues = true
    · have split : issuing (y :: rest) = y :: issuing rest := List.filter_cons_of_pos issues
      rw [split] at found
      cases t with
      | zero =>
        obtain rfl : y = x := by simpa using found
        exact ⟨[], rest, rfl, rfl⟩
      | succ t =>
        obtain ⟨p, q, rfl, counted⟩ := ih (by simpa using found)
        refine ⟨y :: p, q, rfl, ?_⟩
        have split : issuing (y :: p) = y :: issuing p := List.filter_cons_of_pos issues
        rw [split, List.length_cons, counted]
    · have same : ∀ p, issuing (y :: p) = issuing p := fun p => List.filter_cons_of_neg issues
      rw [same] at found
      obtain ⟨p, q, rfl, counted⟩ := ih found
      exact ⟨y :: p, q, rfl, (congrArg _ (same p)).trans counted⟩

theorem first_of_cons {x y : Note} (parts : x :: more = p ++ y :: q) (once : y ∉ more) :
    p = [] ∧ x = y := by
  cases p with
  | nil => exact ⟨rfl, (List.cons.inj parts).1⟩
  | cons z p =>
    have later : more = p ++ y :: q := (List.cons.inj parts).2
    exact absurd (by simp [later]) once

end Notes

theorem find?_of_nodup_map {α κ : Type} [DecidableEq κ] (key : α → κ) {l : List α} {x : α}
    (once : (l.map key).Nodup) (member : x ∈ l) : l.find? (key · = key x) = some x := by
  cases found : l.find? (key · = key x) with
  | none => simpa using List.find?_eq_none.mp found x member
  | some y =>
    have same : key y = key x := by simpa using List.find?_some found
    rw [List.inj_on_of_nodup_map once (List.mem_of_find?_eq_some found) member same]

/-- How an activation that waits has come to it. -/
structure Waiting [Form η] (script : Script κ η fixed) (plan : Plan κ η fixed) (h : List Note)
    (r : Running (World κ η fixed)) : Prop where
  rest : r.paused.rest <:+ plan.steps script r.paused.phase
  started : ∃ x, (issuing h)[r.paused.ticket]? = some x ∧ Starts r.number x r.paused.resume
  alive : ∃ p q, Alive r.number h p q ∧ (issuing p).length ≤ r.paused.ticket

theorem Waiting.append [Form η] {script : Script κ η fixed} {plan : Plan κ η fixed}
    {h more : List Note} {r : Running (World κ η fixed)} (waiting : Waiting script plan h r)
    (enters : .enters r.number ∉ more) (leaves : .leaves r.number ∉ more) :
    Waiting script plan (h ++ more) r where
  rest := waiting.rest
  started := by
    obtain ⟨x, found, starts⟩ := waiting.started
    have early := (List.getElem?_eq_some_iff.mp found).1
    refine ⟨x, ?_, starts⟩
    rw [issuing_append, List.getElem?_append_left early]
    exact found
  alive := by
    obtain ⟨p, q, alive, early⟩ := waiting.alive
    exact ⟨p, q ++ more, alive.append enters leaves, early⟩

/-- An activation that goes on after its wait runs what is left, unless the wait was cancelled. -/
theorem Waiting.resumed_cases [Form η] {script : Script κ η fixed} {plan : Plan κ η fixed}
    {h : List Note} {r : Running (World κ η fixed)} (waiting : Waiting script plan h r)
    (signal : Signal) (w : World κ η fixed) :
    r.paused.resume signal w = (w, .error .aborted) ∨
      Ran script plan r.number w (plan.resumed script r.number r.paused signal w)
        (Activation.resume (plan.steps script .reject) r.paused signal w) := by
  obtain ⟨x, -, starts⟩ := waiting.started
  obtain ⟨result, did⟩ := starts.resumes signal w
  by_cases aborted : result = .error .aborted
  · exact .inl (aborted ▸ did)
  · exact .inr (resumed_ran waiting.rest did aborted)

namespace Button

variable [Form η]

def meet (b : Button κ η fixed) : Incident κ η fixed → Button κ η fixed
  | .activate => b.activate
  | .wake ticket => match b.world.woken.find? (·.1 = ticket) with
    | none => b
    | some (_, signal) => (b.change (·.forget ticket)).resume ticket signal
  | .drop number => (b.drop number).1
  | .pass milliseconds => b.change fun w => w.passTo (w.clock + milliseconds)
  | .deed d => b.change d.act

def meetAll (b : Button κ η fixed) (incidents : List (Incident κ η fixed)) : Button κ η fixed :=
  incidents.foldl meet b

omit [Form η] in
def leaving (number : Nat) : Status (World κ η fixed) → List Note
  | .paused _ => []
  | .ended _ => [.leaves number]

variable (script : Script κ η fixed) (plan : Plan κ η fixed)

/-- What is noted of an incident, if the chains are those of a plan. -/
def notes (b : Button κ η fixed) : Incident κ η fixed → List Note
  | .activate =>
    if b.isBusy then []
    else .enters b.started :: plan.started script b.started b.world ++
      leaving b.started (Activation.start b.success b.reject b.world).2
  | .wake ticket => match b.world.woken.find? (·.1 = ticket) with
    | none => []
    | some (_, signal) => .frees ticket :: match b.running.find? (·.paused.ticket = ticket) with
      | none => []
      | some r =>
        plan.resumed script r.number r.paused signal (b.world.forget ticket) ++
          leaving r.number (Activation.resume b.reject r.paused signal (b.world.forget ticket)).2
  | .drop number => match b.running.find? (·.number = number) with
    | none => []
    | some r => [.frees r.paused.ticket, .leaves number]
  | .pass milliseconds => [.passes (b.world.clock + milliseconds)]
  | .deed d => d.notes

def log (b : Button κ η fixed) : List (Incident κ η fixed) → List Note
  | [] => []
  | i :: rest => b.notes script plan i ++ (b.meet i).log rest

/-- What is true of a button after the notes `h`, while the activations `busy` are being run. -/
structure Kept (first : World κ η fixed) (h : List Note) (busy : List Nat)
    (b : Button κ η fixed) : Prop where
  begun : first.Unused
  chains : b.chains = plan.chains script
  accounted : (first.undergoAll h).waits = b.world.waits
  held : b.world.tickets.Perm (b.running.map (·.paused.ticket))
  numbers : (busy ++ b.running.map (·.number)).Nodup
  earlier : ∀ n ∈ busy ++ b.running.map (·.number), n < b.started
  counted : b.inFlight = busy.length + b.running.length
  waiting : ∀ r ∈ b.running, Waiting script plan h r
  lively : ∀ n ∈ busy, ∃ p q, Alive n h p q
  single : fixed.settings.reentrancy = .ignore → b.inFlight ≤ 1
  /-- Where activations in flight are respected, none starts a wait while another one waits. -/
  last : fixed.settings.reentrancy = .ignore →
    ∀ r ∈ b.running, r.paused.ticket + 1 = b.world.nextTicket
  aborted : plan.Plain → ∀ n, (n, .outcome .aborted) ∈ b.endings → Felled n h

variable {script plan}

section Acts

variable {first v : World κ η fixed} {h more : List Note} {busy : List Nat} {n : Nat}
  {b : Button κ η fixed}

theorem not_mem_quiet (quiet : ∀ x ∈ more, x.quiet = true) {x : Note} (loud : x.quiet = false) :
    x ∉ more := fun member => absurd ((quiet x member).symm.trans loud) (by decide)

theorem Kept.tidy (kept : Kept script plan first h busy b) : b.world.Tidy :=
  (kept.begun.tidy.undergoAll h).congr kept.accounted

theorem Kept.next (kept : Kept script plan first h busy b) :
    b.world.nextTicket = (issuing h).length := by
  obtain ⟨-, next, -⟩ := World.waits_eq_iff.mp kept.accounted
  rw [← next, kept.begun.next]

theorem Kept.extended (kept : Kept script plan first h busy b)
    (done : (b.world.undergoAll more).waits = v.waits) :
    (first.undergoAll (h ++ more)).waits = v.waits := by
  rw [World.undergoAll_append]
  exact (World.undergoAll_congr kept.accounted more).trans done

/-- Aborts, time and sleeps of no length leave those who wait where they are. -/
theorem Kept.quiet (kept : Kept script plan first h busy b)
    (quiet : ∀ x ∈ more, x.quiet = true) (done : (b.world.undergoAll more).waits = v.waits)
    (issuer : busy ≠ [] ∨ issuing more = []) :
    Kept script plan first (h ++ more) busy (b.change fun _ => v) where
  begun := kept.begun
  chains := kept.chains
  accounted := kept.extended done
  held := by
    have perm := World.undergoAll_tickets quiet (kept.tidy)
    rw [World.tickets_congr done] at perm
    exact perm.trans kept.held
  numbers := kept.numbers
  earlier := kept.earlier
  counted := kept.counted
  waiting r member :=
    (kept.waiting r member).append (not_mem_quiet quiet rfl) (not_mem_quiet quiet rfl)
  lively n member := by
    obtain ⟨p, q, alive⟩ := kept.lively n member
    exact ⟨p, _, alive.append (not_mem_quiet quiet rfl) (not_mem_quiet quiet rfl)⟩
  single := kept.single
  last ignoring r member := by
    rcases issuer with some | none
    -- The one that is being run is the only one in flight, so none waits.
    · have one := kept.single ignoring
      have counted := kept.counted
      have busy_pos := List.length_pos_iff.mpr some
      have running_pos : 0 < b.running.length := List.length_pos_of_mem member
      omega
    · obtain ⟨-, next, -⟩ := World.waits_eq_iff.mp done
      rw [World.undergoAll_nextTicket, none] at next
      exact (kept.last ignoring r member).trans next
  aborted plain n member := (kept.aborted plain n member).append more

theorem Kept.entered (kept : Kept script plan first h [] b) (free : b.isBusy = false) :
    Kept script plan first (h ++ [.enters b.started]) [b.started] b.enter where
  begun := kept.begun
  chains := kept.chains
  accounted := kept.extended rfl
  held := kept.held
  numbers := by
    refine List.nodup_cons.mpr ⟨fun member => ?_, kept.numbers⟩
    exact Nat.lt_irrefl _ (kept.earlier _ member)
  earlier n member := by
    rcases List.mem_cons.mp member with rfl | earlier
    · exact Nat.lt_succ_self _
    · exact Nat.lt_succ_of_lt (kept.earlier n earlier)
  counted := by
    have counted := kept.counted
    simp only [enter, counted, List.length_nil, List.length_singleton]
    omega
  waiting r member := by
    have apart : r.number ≠ b.started := by
      have earlier := kept.earlier _ (List.mem_map_of_mem (f := (·.number)) member)
      exact Nat.ne_of_lt earlier
    exact (kept.waiting r member).append (by simpa using apart) (by simp)
  lively n member := by
    obtain rfl := List.mem_singleton.mp member
    exact ⟨h, [], rfl, by simp, by simp⟩
  single ignoring := by
    have none_flying : b.inFlight = 0 := by simpa [isBusy, isRunning, ignoring] using free
    simp [enter, none_flying]
  last ignoring r member := kept.last ignoring r member
  aborted plain n member := (kept.aborted plain n member).append _

/-- Those that wait, but for one, are those with the other tickets. -/
theorem Kept.others (kept : Kept script plan first h busy b)
    {r : Running (World κ η fixed)} (member : r ∈ b.running) :
    (b.takeUp r.number).running = b.running.filter (·.paused.ticket ≠ r.paused.ticket) := by
  have tickets : (b.running.map (·.paused.ticket)).Nodup :=
    kept.held.nodup_iff.mp (kept.tidy).once
  have numbers : (b.running.map (·.number)).Nodup := kept.numbers.of_append_right
  refine List.filter_congr fun s other => decide_eq_decide.mpr (not_congr ⟨?_, ?_⟩) <;> intro same
  · rw [List.inj_on_of_nodup_map numbers other member same]
  · rw [List.inj_on_of_nodup_map tickets other member same]

theorem Kept.freed (kept : Kept script plan first h [] b)
    {r : Running (World κ η fixed)} (member : r ∈ b.running) :
    Kept script plan first (h ++ [.frees r.paused.ticket]) [r.number]
      ((b.change (·.forget r.paused.ticket)).takeUp r.number) where
  begun := kept.begun
  chains := kept.chains
  accounted := kept.extended rfl
  held := by
    have filtered := kept.held.filter (· ≠ r.paused.ticket)
    rw [List.filter_map, ← World.forget_tickets] at filtered
    have others := kept.others member
    exact filtered.trans (.of_eq (congrArg (List.map (·.paused.ticket)) others.symm))
  numbers := by
    refine List.nodup_cons.mpr ⟨by simp [takeUp], ?_⟩
    exact (List.filter_sublist.map _).nodup kept.numbers
  earlier n member' := by
    rcases List.mem_cons.mp member' with rfl | other
    · exact kept.earlier _ (List.mem_map_of_mem member)
    · exact kept.earlier n ((List.filter_sublist.map _).subset other)
  counted := by
    have counted : b.inFlight = b.running.length := kept.counted.trans (Nat.zero_add _)
    have taken := congrArg List.length (takeUp_numbers (n := r.number) kept.numbers)
    rw [List.length_erase_of_mem (List.mem_map_of_mem member), List.length_map,
      List.length_map] at taken
    have some : 0 < b.running.length := List.length_pos_of_mem member
    have rest : ((b.change (·.forget r.paused.ticket)).takeUp r.number).running.length =
        b.running.length - 1 := taken
    rw [rest]
    show b.inFlight = 1 + (b.running.length - 1)
    omega
  waiting s other :=
    (kept.waiting s (List.mem_filter.mp other).1).append (by simp) (by simp)
  lively n mine := by
    obtain rfl := List.mem_singleton.mp mine
    obtain ⟨p, q, alive, -⟩ := (kept.waiting r member).alive
    exact ⟨p, _, alive.append (by simp) (by simp)⟩
  single := kept.single
  last ignoring s other := kept.last ignoring s (List.mem_filter.mp other).1
  aborted plain n gone := (kept.aborted plain n gone).append _

theorem Kept.left (kept : Kept script plan first h [n] b) (e : Ending)
    (cause : plan.Plain → e = .outcome .aborted → ∃ p q, Alive n h p q ∧ .aborts ∈ q) :
    Kept script plan first (h ++ [.leaves n]) [] (b.finish n e) where
  begun := kept.begun
  chains := kept.chains
  accounted := kept.extended rfl
  held := kept.held
  numbers := kept.numbers.of_append_right
  earlier m member := kept.earlier m (List.mem_append_right _ member)
  counted := by
    have counted := kept.counted
    simp only [finish, leave, change, counted, List.length_singleton, List.length_nil]
    omega
  waiting r member := by
    have apart : r.number ≠ n := fun same => by
      have once := (List.nodup_cons.mp kept.numbers).1
      exact once (List.mem_map.mpr ⟨r, member, same⟩)
    exact (kept.waiting r member).append (by simp) (by simpa using apart)
  lively m member := absurd member List.not_mem_nil
  single ignoring := Nat.le_trans (Nat.sub_le ..) (kept.single ignoring)
  last := kept.last
  aborted plain m member := by
    rcases List.mem_append.mp member with earlier | now
    · exact (kept.aborted plain m earlier).append _
    · obtain ⟨rfl, rfl⟩ : m = n ∧ Ending.outcome .aborted = e := by simpa using now
      obtain ⟨p, q, alive, aborts⟩ := cause plain rfl
      exact alive.felled aborts

theorem Kept.paused (kept : Kept script plan first h [n] b) {x : Note} {p : Paused (World κ η fixed)}
    (done : (b.world.undergo x).waits = v.waits) (starts : Starts n x p.resume)
    (issued : p.ticket = b.world.nextTicket) (rest : p.rest <:+ plan.steps script p.phase) :
    Kept script plan first (h ++ [x]) [] ((b.change fun _ => v).putAside n p) where
  begun := kept.begun
  chains := kept.chains
  accounted := kept.extended done
  held := by
    have perm := World.undergo_tickets (kept.tidy) x
    rw [World.tickets_congr done, starts.held, ← issued] at perm
    refine perm.trans ((kept.held.cons _).trans ?_)
    rw [putAside, List.map_append]
    exact (List.perm_append_singleton ..).symm
  numbers := by
    have swapped := (List.perm_append_singleton n (b.running.map (·.number))).symm
    rw [putAside, List.map_append]
    exact swapped.nodup_iff.mp kept.numbers
  earlier m member := by
    refine kept.earlier m ?_
    simpa [putAside, change, or_comm] using member
  counted := by
    have counted := kept.counted
    simp only [putAside, change, counted, List.length_append, List.length_singleton,
      List.length_nil]
    omega
  waiting r member := by
    have apart {y : Note} (silent : y.issues = false) : y ∉ [x] := by
      rw [List.mem_singleton]
      rintro rfl
      exact absurd (starts.issues.symm.trans silent) (by decide)
    rcases List.mem_append.mp member with earlier | now
    · exact (kept.waiting r earlier).append (apart rfl) (apart rfl)
    · obtain rfl := List.mem_singleton.mp now
      obtain ⟨before, since, alive⟩ := kept.lively n (List.mem_singleton_self n)
      have counted : p.ticket = (issuing h).length := issued.trans kept.next
      have mine := alive.append (apart rfl) (apart rfl)
      refine ⟨rest, ⟨x, ?_, starts⟩, before, since ++ [x], mine, ?_⟩
      · simp only [counted]
        exact issuing_at starts.issues h []
      · simp only [counted, alive.whole, issuing_append, List.length_append]
        omega
  lively m member := absurd member List.not_mem_nil
  single := kept.single
  last ignoring r member := by
    have one := kept.single ignoring
    have counted : b.inFlight = 1 + b.running.length := kept.counted
    have alone : b.running = [] := List.eq_nil_of_length_eq_zero (by omega)
    obtain rfl : r = ⟨n, p⟩ := by simpa [putAside, change, alone] using member
    obtain ⟨-, next, -⟩ := World.waits_eq_iff.mp done
    rw [World.undergo_nextTicket, starts.issues] at next
    simp only [issued]
    exact next
  aborted plain m member := (kept.aborted plain m member).append _

theorem Kept.placed (kept : Kept script plan first h [n] b)
    {r : World κ η fixed × Status (World κ η fixed)} (ran : Ran script plan n b.world more r) :
    Kept script plan first (h ++ (more ++ leaving n r.2)) [] (b.place n r) := by
  rw [← List.append_assoc]
  cases ran with
  | ended accounted quiet other =>
    have worked := kept.quiet quiet accounted (.inl (by simp))
    refine worked.left _ fun plain aborted => ?_
    exact absurd (by simpa using aborted) (other plain)
  | @paused notes x v p accounted quiet starts issued rest =>
    have worked := kept.quiet quiet rfl (.inl (by simp))
    rw [World.undergoAll_append] at accounted
    have waits := worked.paused accounted starts issued rest
    rw [List.append_assoc] at waits
    rw [leaving, List.append_nil]
    exact waits

theorem Kept.skipped (kept : Kept script plan first h [] b) :
    Kept script plan first h [] b.skip where
  begun := kept.begun
  chains := kept.chains
  accounted := kept.accounted
  held := kept.held
  numbers := kept.numbers
  earlier n member := Nat.lt_succ_of_lt (kept.earlier n member)
  counted := kept.counted
  waiting := kept.waiting
  lively := kept.lively
  single := kept.single
  last := kept.last
  aborted plain n member := kept.aborted plain n (by simpa [skip] using member)

theorem Kept.steps (kept : Kept script plan first h busy b) :
    b.success = plan.steps script .success ∧ b.reject = plan.steps script .reject := by
  rw [success, reject, kept.chains]
  simp [Plan.chains, Plan.steps, Plan.items]

/-- What holds a ticket is waited for. -/
theorem Kept.waiter (kept : Kept script plan first h busy b) {t : Ticket}
    (held : t ∈ b.world.tickets) : ∃ r ∈ b.running, r.paused.ticket = t := by
  simpa using kept.held.mem_iff.mp held

theorem Kept.taken (kept : Kept script plan first h busy b) {t : Ticket} {e : Ticket × Signal}
    (found : b.world.woken.find? (·.1 = t) = some e) :
    ∃ r ∈ b.running, ∃ signal, r.paused.ticket = t ∧ (r.paused.ticket, signal) ∈ b.world.woken := by
  obtain ⟨u, signal⟩ := e
  obtain rfl : u = t := by simpa using List.find?_some found
  have woken := List.mem_of_find?_eq_some found
  obtain ⟨r, member, rfl⟩ := kept.waiter (List.mem_append_right _
    (List.mem_map_of_mem (f := (·.1)) woken))
  exact ⟨r, member, signal, rfl, woken⟩

theorem Kept.find (kept : Kept script plan first h busy b)
    {r : Running (World κ η fixed)} (member : r ∈ b.running) :
    b.running.find? (·.paused.ticket = r.paused.ticket) = some r :=
  find?_of_nodup_map (·.paused.ticket) (kept.held.nodup_iff.mp (kept.tidy).once) member

/-- A wait that ends in an abort has been aborted. -/
theorem Kept.cause (kept : Kept script plan first h [] b) {r : Running (World κ η fixed)}
    (member : r ∈ b.running) {signal : Signal} (woken : (r.paused.ticket, signal) ∈ b.world.woken)
    (plain : plan.Plain) {w : World κ η fixed}
    (aborted : (r.paused.resume signal w).2 = .error .aborted) :
    ∃ p q, Alive r.number h p q ∧ .aborts ∈ q := by
  obtain ⟨-, ⟨x, found, starts⟩, p, q, alive, early⟩ := kept.waiting r member
  obtain ⟨-, -, -, -, same⟩ := World.waits_eq_iff.mp kept.accounted
  have next := kept.begun.next
  rw [← same] at woken
  cases signal with
  | cancelled =>
    refine ⟨p, q, alive, ?_⟩
    rw [alive.whole, World.undergoAll_append] at woken
    rcases World.cancelled_undergoAll woken with before | noted
    · have held := List.mem_append_right ((first.undergoAll p).pending.map (·.ticket))
        (List.mem_map_of_mem (f := (·.1)) before)
      have issued := (kept.begun.tidy.undergoAll p).issued _ held
      rw [next] at issued
      exact absurd early (Nat.not_le_of_gt issued)
    · simpa using noted
  | expired =>
    exfalso
    generalize r.paused.resume = resume at starts aborted
    cases starts with
    | sleep value some => cases aborted
    | @submission due answer given =>
      rcases given with rfl | ⟨page, data, given⟩
      · obtain ⟨p, q, rfl, counted⟩ := split_of_issuing found
        have endless := World.endless_submits (kept.begun.tidy.undergoAll p) r.number
        rw [World.undergoAll_append] at woken
        rw [next, counted] at endless
        refine (endless.undergoAll ?_ q).2 woken
        rw [World.undergo_nextTicket, next, counted]
        exact Nat.lt_succ_self _
      · exact World.concluded_not_aborted (plain.forthright page data answer given) aborted

theorem Kept.woken (kept : Kept script plan first h [] b)
    {r : Running (World κ η fixed)} (member : r ∈ b.running) {signal : Signal}
    (woken : (r.paused.ticket, signal) ∈ b.world.woken) :
    b.meet (.wake r.paused.ticket) =
        ((b.change (·.forget r.paused.ticket)).takeUp r.number).place r.number
          (Activation.resume b.reject r.paused signal (b.world.forget r.paused.ticket)) ∧
      b.notes script plan (.wake r.paused.ticket) = .frees r.paused.ticket ::
        (plan.resumed script r.number r.paused signal (b.world.forget r.paused.ticket) ++
          leaving r.number
            (Activation.resume b.reject r.paused signal (b.world.forget r.paused.ticket)).2) := by
  have found : b.world.woken.find? (·.1 = r.paused.ticket) = some (r.paused.ticket, signal) :=
    find?_of_nodup_map (·.1) (kept.tidy).once.of_append_right woken
  have mine := kept.find member
  simp only [Button.meet, Button.notes, found, resume, change, mine]
  exact ⟨rfl, trivial⟩

theorem Kept.meet (kept : Kept script plan first h [] b) (i : Incident κ η fixed) :
    Kept script plan first (h ++ b.notes script plan i) [] (b.meet i) := by
  cases i with
  | activate =>
    rw [Button.meet, Button.notes, activate]
    by_cases busy : b.isBusy = true
    · rw [if_pos busy, if_pos busy, List.append_nil]
      exact kept.skipped
    · have entered := kept.entered (by simpa using busy)
      have placed := entered.placed (started_ran b.world)
      rw [if_neg busy, if_neg busy, kept.steps.1, kept.steps.2]
      rw [List.append_assoc] at placed
      exact placed
  | wake t =>
    cases found : b.world.woken.find? (·.1 = t) with
    | none => simpa [Button.meet, Button.notes, found] using kept
    | some e =>
      obtain ⟨r, member, signal, rfl, woken⟩ := kept.taken found
      obtain ⟨meets, notes⟩ := kept.woken member woken
      have freed := kept.freed member
      rw [meets, notes, kept.steps.2, List.append_cons]
      rcases (kept.waiting r member).resumed_cases signal (b.world.forget r.paused.ticket) with
        did | ran
      · obtain ⟨nothing, ended⟩ := resumed_aborted did (plan.steps script .reject)
        rw [nothing, ended]
        refine freed.left (.outcome .aborted) fun plain _ => ?_
        obtain ⟨p, q, alive, aborts⟩ := kept.cause member woken plain (congrArg Prod.snd did)
        exact ⟨p, _, alive.append (by simp) (by simp), List.mem_append_left _ aborts⟩
      · exact freed.placed ran
  | drop number =>
    rw [Button.meet, Button.notes, drop]
    cases found : b.running.find? (·.number = number) with
    | none => simpa using kept
    | some r =>
      obtain rfl : r.number = number := by simpa using List.find?_some found
      have freed := kept.freed (List.mem_of_find?_eq_some found)
      have left := freed.left .dropped fun _ same => Ending.noConfusion same
      rw [List.append_assoc] at left
      exact left
  | pass milliseconds =>
    have quiet : ∀ x ∈ [Note.passes (b.world.clock + milliseconds)], x.quiet = true := by
      simp [Note.quiet]
    exact kept.quiet quiet rfl (.inr rfl)
  | deed d =>
    have quiet : ∀ x ∈ d.notes, x.quiet = true := by
      intro x member
      rw [d.notes_eq x member]
      rfl
    have none_issued : issuing d.notes = [] := by cases d <;> rfl
    exact kept.quiet quiet (d.act_noted b.world) (.inr none_issued)

theorem Kept.meetAll (kept : Kept script plan first h [] b) (incidents : List (Incident κ η fixed)) :
    Kept script plan first (h ++ b.log script plan incidents) [] (b.meetAll incidents) := by
  induction incidents generalizing h b with
  | nil => simpa [log, Button.meetAll] using kept
  | cons i rest ih =>
    rw [log, ← List.append_assoc]
    exact ih (kept.meet i)

omit [Form η] in
theorem place_endings (b : Button κ η fixed) (n : Nat)
    (r : World κ η fixed × Status (World κ η fixed)) : b.endings <+: (b.place n r).endings := by
  obtain ⟨w, p | o⟩ := r
  · exact List.prefix_rfl
  · exact List.prefix_append ..

theorem meet_endings (b : Button κ η fixed) (i : Incident κ η fixed) :
    b.endings <+: (b.meet i).endings := by
  cases i with
  | activate =>
    rw [Button.meet, activate]
    split
    · exact List.prefix_append ..
    · exact b.enter.place_endings ..
  | wake t =>
    rw [Button.meet]
    split
    · exact List.prefix_rfl
    · rw [resume]
      split
      · exact List.prefix_rfl
      · exact place_endings (Button.takeUp _ _) ..
  | drop number =>
    rw [Button.meet, drop]
    split
    · exact List.prefix_rfl
    · exact List.prefix_append ..
  | pass | deed => exact List.prefix_rfl

theorem meetAll_endings (b : Button κ η fixed) (incidents : List (Incident κ η fixed)) :
    b.endings <+: (b.meetAll incidents).endings := by
  induction incidents generalizing b with
  | nil => exact List.prefix_rfl
  | cons i rest ih => exact (b.meet_endings i).trans (ih (b.meet i))

theorem frees_not_mem {r : World κ η fixed × Status (World κ η fixed)}
    (ran : Ran script plan n v more r) (t : Ticket) : .frees t ∉ more ++ leaving n r.2 := by
  rw [List.mem_append]
  rintro (noted | left)
  · cases ran with
    | ended _ quiet => exact not_mem_quiet quiet rfl noted
    | paused _ quiet starts =>
      rcases List.mem_append.mp noted with early | last
      · exact not_mem_quiet quiet rfl early
      · rw [← List.mem_singleton.mp last] at starts
        exact Bool.noConfusion starts.issues
  · cases status : r.2 <;> simp [leaving, status] at left

/-- A ticket is freed before anything else is noted: its wait has ended, or its activation is
dropped. -/
theorem Kept.frees (kept : Kept script plan first h [] b) {i : Incident κ η fixed}
    {before since : List Note} {t : Ticket}
    (noted : b.notes script plan i = before ++ .frees t :: since) :
    before = [] ∧ ((∃ signal, (t, signal) ∈ b.world.woken) ∨
      ∃ r ∈ b.running, r.paused.ticket = t ∧ (r.number, .dropped) ∈ (b.meet i).endings) := by
  have here : .frees t ∈ b.notes script plan i := by simp [noted]
  cases i with
  | activate =>
    rw [Button.notes, kept.steps.1, kept.steps.2] at here
    split at here
    · exact absurd here List.not_mem_nil
    · rcases List.mem_cons.mp here with enters | ran
      · exact Note.noConfusion enters
      · exact absurd ran (frees_not_mem (started_ran b.world) t)
  | wake u =>
    cases found : b.world.woken.find? (·.1 = u) with
    | none => simp [Button.notes, found] at here
    | some e =>
      obtain ⟨r, member, signal, rfl, woken⟩ := kept.taken found
      rw [(kept.woken member woken).2, kept.steps.2] at noted
      suffices once : .frees t ∉ plan.resumed script r.number r.paused signal
          (b.world.forget r.paused.ticket) ++ leaving r.number (Activation.resume
            (plan.steps script .reject) r.paused signal (b.world.forget r.paused.ticket)).2 by
        obtain ⟨alone, same⟩ := first_of_cons noted once
        exact ⟨alone, .inl ⟨signal, Note.frees.inj same ▸ woken⟩⟩
      rcases (kept.waiting r member).resumed_cases signal (b.world.forget r.paused.ticket) with
        did | ran
      · obtain ⟨nothing, ended⟩ := resumed_aborted did (plan.steps script .reject)
        rw [nothing, ended]
        simp [leaving]
      · exact frees_not_mem ran t
  | drop number =>
    cases found : b.running.find? (·.number = number) with
    | none => simp [Button.notes, found] at here
    | some r =>
      obtain rfl : r.number = number := by simpa using List.find?_some found
      simp only [Button.notes, found] at noted
      obtain ⟨alone, same⟩ := first_of_cons noted (by simp)
      refine ⟨alone, .inr ⟨r, List.mem_of_find?_eq_some found, Note.frees.inj same, ?_⟩⟩
      simp [Button.meet, drop, found, finish, leave]
  | pass => simp [Button.notes] at here
  | deed d => exact Note.noConfusion (d.notes_eq _ here)

/-- At the time when a ticket is freed, its wait has ended, or its activation is dropped then. -/
theorem Kept.frees_all (kept : Kept script plan first h [] b)
    {incidents : List (Incident κ η fixed)} {before since : List Note} {t : Ticket}
    (noted : b.log script plan incidents = before ++ .frees t :: since) :
    ∃ d, Kept script plan first (h ++ before) [] d ∧ ((∃ signal, (t, signal) ∈ d.world.woken) ∨
      ∃ r ∈ d.running, r.paused.ticket = t ∧
        (r.number, .dropped) ∈ (b.meetAll incidents).endings) := by
  induction incidents generalizing h b before with
  | nil => simp [log] at noted
  | cons i rest ih =>
    rw [log] at noted
    rcases List.append_eq_append_iff.mp noted with ⟨part, rfl, later⟩ | ⟨part, now, later⟩
    · obtain ⟨d, then_kept, freed⟩ := ih (kept.meet i) later
      exact ⟨d, by simpa using then_kept, freed⟩
    · cases part with
      | nil =>
        have next : (b.meet i).log script plan rest = [] ++ .frees t :: since := later.symm
        obtain ⟨d, then_kept, freed⟩ := ih (kept.meet i) next
        exact ⟨d, by simpa [now] using then_kept, freed⟩
      | cons x part =>
        obtain ⟨rfl, rfl⟩ := List.cons.inj later
        obtain ⟨rfl, freed⟩ := kept.frees now
        refine ⟨b, by simpa using kept, freed.imp id ?_⟩
        rintro ⟨r, member, mine, dropped⟩
        exact ⟨r, member, mine, ((b.meet i).meetAll_endings rest).subset dropped⟩

/-- Going on with all that has been woken, in order, is a row of incidents. -/
theorem Kept.resumeWoken_met (kept : Kept script plan first h [] b) (fuel : Nat) :
    ∃ tickets : List Ticket, b.resumeWoken fuel = b.meetAll (tickets.map .wake) := by
  induction fuel generalizing h b with
  | zero => exact ⟨[], rfl⟩
  | succ fuel ih =>
    cases woken : b.world.woken with
    | nil => exact ⟨[], by simp [resumeWoken, woken, Button.meetAll]⟩
    | cons e rest =>
      obtain ⟨t, signal⟩ := e
      have taken : (b.change fun w => { w with woken := rest }).resume t signal =
          b.meet (.wake t) := by
        have same := World.forget_first (kept.tidy) woken
        simp [Button.meet, woken, change, same]
      obtain ⟨tickets, later⟩ := ih (kept.meet (.wake t))
      refine ⟨t :: tickets, ?_⟩
      rw [resumeWoken, woken]
      simp only [taken, later]
      rfl

theorem kept_new (begun : b.world.Unused) (chains : b.chains = plan.chains script)
    (running : b.running = []) (inFlight : b.inFlight = 0) (endings : b.endings = []) :
    Kept script plan b.world [] [] b where
  begun := begun
  chains := chains
  accounted := rfl
  held := by simp [running, begun.tickets]
  numbers := by simp [running]
  earlier := by simp [running]
  counted := by simp [running, inFlight]
  waiting := by simp [running]
  lively := by simp
  single _ := by simp [inFlight]
  last _ := by simp [running]
  aborted := by simp [endings]

end Acts

end Button

end ActionChain
