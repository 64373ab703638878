import ActionChain.Proofs.Effects
import ActionChain.Proofs.Listeners

/-!
What the logs of an element hold. All logs are attached under one name, so a log takes the place of
the one that was attached before it for the same type. Main statement `logs_recorded`: a log holds
the events of its type that are dispatched since it was attached, in order, up to the time at which
the next log is attached for the same type; logs for other types make no difference to it.
-/
namespace ActionChain

namespace EventTarget

variable {κ : Type} {l m : Listener κ} {ls : List (Listener κ)} {p : Listener κ → Bool}

theorem find?_place (l : Listener κ) (ls : List (Listener κ)) :
    (place l ls).find? (·.isFor l.type l.id) = some l := by
  have self : l.isFor l.type l.id = true := Listener.isFor_iff.mpr rfl
  induction ls with
  | nil => simp [place, self]
  | cons m rest ih =>
    rw [place]
    split
    · simp [self]
    · rename_i other
      simp [other, ih]

theorem find?_place_other {type id : String} (other : l.key ≠ (type, id)) :
    (place l ls).find? (·.isFor type id) = ls.find? (·.isFor type id) := by
  have self : l.isFor type id = false := by simpa using mt Listener.isFor_iff.mp other
  induction ls with
  | nil => simp [place, self]
  | cons m rest ih =>
    rw [place]
    split
    · rename_i mine
      have same : m.key = l.key := Listener.isFor_iff.mp mine
      have apart : m.isFor type id = false := by
        simpa using mt Listener.isFor_iff.mp (same ▸ other)
      simp [self, apart]
    · simp [List.find?_cons, ih]

/-- Only the listener that is replaced may be missed. -/
theorem filter_place_other (new : p l = false) (kept : ∀ m ∈ ls, m.key = l.key → p m = false) :
    (place l ls).filter p = ls.filter p := by
  induction ls with
  | nil => simp [place, new]
  | cons m rest ih =>
    obtain ⟨first, others⟩ := List.forall_mem_cons.mp kept
    rw [place]
    split
    · rename_i mine
      simp [new, first (Listener.isFor_iff.mp mine)]
    · rw [List.filter_cons, List.filter_cons, ih others]

theorem filter_place_new (new : p l = true) (none : ls.filter p = []) :
    (place l ls).filter p = [l] := by
  induction ls with
  | nil => simp [place, new]
  | cons m rest ih =>
    obtain ⟨first, others⟩ := List.forall_mem_cons.mp (List.filter_eq_nil_iff.mp none)
    have later : rest.filter p = [] := List.filter_eq_nil_iff.mpr others
    rw [place]
    split
    · simp [new, later]
    · simp [first, ih later]

theorem filter_place_replaced (found : ls.find? (·.isFor l.type l.id) = some m)
    (only : ls.filter p = [m]) (new : p l = false) : (place l ls).filter p = [] := by
  have passes : p m = true := by
    have mem : m ∈ ls.filter p := only ▸ List.mem_singleton_self m
    exact (List.mem_filter.mp mem).2
  induction ls with
  | nil => cases found
  | cons n rest ih =>
    rw [place]
    split
    · rename_i mine
      obtain rfl : n = m := by simpa [mine] using found
      have later : rest.filter p = [] := by simpa [passes] using only
      simp [new, later]
    · rename_i other
      have later : rest.find? (·.isFor l.type l.id) = some m := by simpa [other] using found
      have first : p n = false := by
        by_contra passed
        rw [List.filter_cons_of_pos (by simpa using passed)] at only
        obtain ⟨rfl, -⟩ := List.cons.inj only
        exact other (by simpa using List.find?_some later)
      have less : rest.filter p = [m] := by simpa [first] using only
      simpa [first] using ih later less

theorem mem_place (mem : m ∈ place l ls) : m = l ∨ m ∈ ls := by
  induction ls with
  | nil => exact .inl (List.mem_singleton.mp mem)
  | cons n rest ih =>
    rw [place] at mem
    split at mem
    · exact (List.mem_cons.mp mem).imp id (List.mem_cons_of_mem _)
    · rcases List.mem_cons.mp mem with rfl | later
      · exact .inr List.mem_cons_self
      · exact (ih later).imp id (List.mem_cons_of_mem _)

end EventTarget

namespace Bench

variable {fixed : Fixed}

/-- What is done with an element that logs are attached to. -/
inductive LogUse
  | attach (type : String)
  | dispatch (e : Event)
  | navigate (url : String)

namespace LogUse

def attaches (type : String) : LogUse → Bool
  | .attach t => t = type
  | .dispatch _ | .navigate _ => false

def event? : LogUse → Option Event
  | .attach _ => none
  | .dispatch e => some e
  | .navigate url => some (.navigate url)

def act (id : String) (depth : Nat) (w : BenchWorld fixed) : LogUse → BenchWorld fixed
  | .attach type => (attachLog id type w).1
  | .dispatch e => (w.dispatch (react depth) e).1
  | .navigate url => w.navigate (react depth) url

def actAll (id : String) (depth : Nat) (w : BenchWorld fixed) (uses : List LogUse) :
    BenchWorld fixed :=
  uses.foldl (act id depth) w

/-- What a log for a type is to hold after these uses: the events of the type, until the next log is
attached for the same type. -/
def recorded (type : String) (since : List LogUse) : EventLog :=
  ((since.takeWhile fun u => !u.attaches type).filterMap event?).filter fun e =>
    type = e.type || type = Event.anyType

end LogUse

/-- A callback that leaves the listeners and the logs alone. -/
def Unrelated (fixed : Fixed) (depth : Nat) (k : Callback) : Prop :=
  ∀ e (w : BenchWorld fixed), (react depth k e w).element.target = w.element.target ∧
    (react depth k e w).page.logs = w.page.logs

def Callback.isLog (n : Nat) : Callback → Bool
  | .log m => m = n
  | _ => false

theorem Callback.isLog_iff {n : Nat} {k : Callback} : k.isLog n = true ↔ k = .log n := by
  cases k <;> simp [isLog]

/-- A log that there is, or a callback that has nothing to do with logs. -/
def Ordinary (depth : Nat) (w : BenchWorld fixed) (k : Callback) : Prop :=
  (∃ m, k = .log m ∧ m < w.page.logs.length) ∨ (∀ m, k ≠ .log m) ∧ Unrelated fixed depth k

def AllOrdinary (depth : Nat) (w : BenchWorld fixed) : Prop :=
  ∀ l ∈ w.element.target.listeners, Ordinary depth w l.callback

/-- The log with this number is the one that is attached for its type. -/
structure Live (id type : String) (n : Nat) (w : BenchWorld fixed) : Prop where
  log : n < w.page.logs.length
  found : w.element.target.listeners.find? (·.isFor type id) = some ⟨type, id, .log n⟩
  only : w.element.target.listeners.filter (·.callback.isLog n) = [⟨type, id, .log n⟩]

/-- The log with this number hears nothing any more. -/
structure Dead (n : Nat) (w : BenchWorld fixed) : Prop where
  log : n < w.page.logs.length
  none : w.element.target.listeners.filter (·.callback.isLog n) = []

/-- What an event adds to a log: the event, once for each listener that hears it for the log. -/
def written (n : Nat) (e : Event) (w : BenchWorld fixed) : List Event :=
  ((w.element.target.listeners.filter (·.callback.isLog n)).filter (·.hears e.type)).map fun _ => e

/-- These events are written to the log with this number; the listeners stay. -/
structure Wrote (n : Nat) (es : List Event) (v w : BenchWorld fixed) : Prop where
  target : w.element.target = v.element.target
  logs : w.page.logs.length = v.page.logs.length
  heard : heard n w = heard n v ++ es

section Writing

variable {id type : String} {depth n : Nat} {u v w : BenchWorld fixed} {es more : List Event}

theorem Wrote.refl (n : Nat) (w : BenchWorld fixed) : Wrote n [] w w :=
  ⟨rfl, rfl, (List.append_nil _).symm⟩

theorem Wrote.trans (wrote : Wrote n es u v) (next : Wrote n more v w) : Wrote n (es ++ more) u w :=
  ⟨next.target.trans wrote.target, next.logs.trans wrote.logs,
    by rw [next.heard, wrote.heard, List.append_assoc]⟩

theorem log_wrote {m : Nat} (log : m < w.page.logs.length) (n : Nat) (e : Event) :
    Wrote n (if m = n then [e] else []) w (writeLog m e w) := by
  refine ⟨rfl, by simp [writeLog], ?_⟩
  by_cases same : m = n
  · subst same
    simp [writeLog, heard, List.getD_eq_getElem?_getD, log]
  · simp [writeLog, heard, List.getD_eq_getElem?_getD, same]

theorem Ordinary.congr {k : Callback} (ordinary : Ordinary depth v k)
    (more : v.page.logs.length ≤ w.page.logs.length) : Ordinary depth w k :=
  ordinary.imp (fun ⟨m, same, log⟩ => ⟨m, same, Nat.lt_of_lt_of_le log more⟩) id

theorem callback_wrote {k : Callback} (ordinary : Ordinary depth w k) (n : Nat) (e : Event) :
    Wrote n (if k.isLog n then [e] else []) w (react depth k e w) := by
  rcases ordinary with ⟨m, rfl, log⟩ | ⟨other, unrelated⟩
  · have written : react depth (.log m) e w = writeLog m e w := by cases depth <;> rfl
    rw [written]
    simpa [Callback.isLog] using log_wrote log n e
  · obtain ⟨target, logs⟩ := unrelated e w
    rw [if_neg (mt Callback.isLog_iff.mp (other n))]
    exact ⟨target, by rw [logs], by simp [heard, logs]⟩

theorem callbacks_wrote {ks : List Callback} (ordinary : ∀ k ∈ ks, Ordinary depth w k) (n : Nat)
    (e : Event) : Wrote n ((ks.filter (·.isLog n)).map fun _ => e) w
      (ks.foldl (fun w k => react depth k e w) w) := by
  induction ks generalizing w with
  | nil => exact .refl n w
  | cons k rest ih =>
    obtain ⟨now, later⟩ := List.forall_mem_cons.mp ordinary
    have first := callback_wrote now n e
    have next := ih fun k mem => (later k mem).congr (Nat.le_of_eq first.logs.symm)
    have both := first.trans next
    by_cases mine : k.isLog n = true
    · simpa [mine] using both
    · simpa [mine] using both

theorem dispatch_wrote (ordinary : AllOrdinary depth w) (n : Nat) (e : Event) :
    Wrote n (written n e w) w (w.dispatch (react depth) e).1 := by
  have reached : ∀ k ∈ w.element.target.callbacks e.type, Ordinary depth w k := by
    intro k mem
    obtain ⟨l, hears, rfl⟩ := List.mem_map.mp mem
    exact ordinary l (List.mem_of_mem_filter hears)
  have wrote := callbacks_wrote reached n e
  have same : ((w.element.target.callbacks e.type).filter (·.isLog n)).map (fun _ => e) =
      written n e w := by
    rw [EventTarget.callbacks, written, List.filter_map, List.map_map, List.filter_filter,
      List.filter_filter]
    simp only [Function.comp_def, Bool.and_comm]
  exact same ▸ wrote

theorem navigate_wrote (ordinary : AllOrdinary depth w) (n : Nat) (url : String) :
    Wrote n (written n (.navigate url) w) w (w.navigate (react depth) url) := by
  let there : BenchWorld fixed := { w with element := { w.element with location := url } }
  have moved : Wrote n [] w there := ⟨rfl, rfl, (List.append_nil _).symm⟩
  have ordinary' : AllOrdinary depth there := ordinary
  exact moved.trans (dispatch_wrote ordinary' n (.navigate url))

/-- What a use other than the attaching of a log writes to a log. -/
theorem told_wrote (ordinary : AllOrdinary depth w) (n : Nat) (id : String) {x : LogUse}
    {e : Event} (event : x.event? = some e) : Wrote n (written n e w) w (x.act id depth w) := by
  cases x with
  | attach t => cases event
  | dispatch e' =>
    obtain rfl := Option.some.inj event
    exact dispatch_wrote ordinary n e'
  | navigate url =>
    obtain rfl := Option.some.inj event
    exact navigate_wrote ordinary n url

theorem Wrote.ordinary (wrote : Wrote n es v w) (ordinary : AllOrdinary depth v) :
    AllOrdinary depth w := by
  intro l mem
  rw [wrote.target] at mem
  exact (ordinary l mem).congr (Nat.le_of_eq wrote.logs.symm)

theorem Wrote.live (wrote : Wrote n es v w) (live : Live id type n v) : Live id type n w :=
  ⟨wrote.logs ▸ live.log, wrote.target ▸ live.found, wrote.target ▸ live.only⟩

theorem Wrote.dead (wrote : Wrote n es v w) (dead : Dead n v) : Dead n w :=
  ⟨wrote.logs ▸ dead.log, wrote.target ▸ dead.none⟩

theorem Live.written (live : Live id type n w) (e : Event) :
    written n e w = [e].filter fun e => type = e.type || type = Event.anyType := by
  rw [Bench.written, live.only]
  by_cases hears : type = e.type ∨ type = Event.anyType <;> simp [Listener.hears, hears]

theorem Dead.written (dead : Dead n w) (e : Event) : written n e w = [] := by
  rw [Bench.written, dead.none]
  rfl

end Writing

section Attaching

variable {id type : String} {depth n : Nat} {w : BenchWorld fixed}

theorem attach_length (id t : String) (w : BenchWorld fixed) :
    (attachLog id t w).1.page.logs.length = w.page.logs.length + 1 := by
  simp [attachLog, World.setTarget]

theorem attach_heard (log : n < w.page.logs.length) (id t : String) :
    heard n (attachLog id t w).1 = heard n w := by
  simp [attachLog, World.setTarget, heard, List.getD_eq_getElem?_getD, List.getElem?_append, log]

theorem attach_ordinary (ordinary : AllOrdinary depth w) (id t : String) :
    AllOrdinary depth (attachLog id t w).1 := by
  intro l mem
  rcases EventTarget.mem_place mem with rfl | earlier
  · exact .inl ⟨_, rfl, attach_length id t w ▸ Nat.lt_succ_self _⟩
  · exact (ordinary l earlier).congr (attach_length id t w ▸ Nat.le_succ _)

/-- The log that is attached is a new one. -/
theorem attach_live (ordinary : AllOrdinary depth w) (id type : String) :
    Live id type w.page.logs.length (attachLog id type w).1 := by
  have fresh : w.element.target.listeners.filter (·.callback.isLog w.page.logs.length) = [] := by
    refine List.filter_eq_nil_iff.mpr fun l mem mine => ?_
    rcases ordinary l mem with ⟨m, same, log⟩ | ⟨other, -⟩
    · obtain rfl := Callback.log.inj (same.symm.trans (Callback.isLog_iff.mp mine))
      exact Nat.lt_irrefl _ log
    · exact other _ (Callback.isLog_iff.mp mine)
  let l : Listener Callback := ⟨type, id, .log w.page.logs.length⟩
  refine ⟨attach_length id type w ▸ Nat.lt_succ_self _, EventTarget.find?_place l _, ?_⟩
  exact EventTarget.filter_place_new (Callback.isLog_iff.mpr rfl) fresh

theorem new_not_log (log : n < w.page.logs.length) :
    (Callback.log w.page.logs.length).isLog n = false := by
  simpa [Callback.isLog] using Nat.ne_of_gt log

theorem Dead.attach (dead : Dead n w) (id t : String) : Dead n (attachLog id t w).1 := by
  refine ⟨attach_length id t w ▸ Nat.lt_succ_of_lt dead.log, ?_⟩
  refine (EventTarget.filter_place_other (new_not_log dead.log) fun m mem _ => ?_).trans dead.none
  simpa using List.filter_eq_nil_iff.mp dead.none m mem

/-- The next log for the type takes its place. -/
theorem Live.replaced (live : Live id type n w) : Dead n (attachLog id type w).1 :=
  ⟨attach_length id type w ▸ Nat.lt_succ_of_lt live.log,
    EventTarget.filter_place_replaced live.found live.only (new_not_log live.log)⟩

theorem Live.attach (live : Live id type n w) {t : String} (other : t ≠ type) :
    Live id type n (attachLog id t w).1 := by
  -- the listener that is replaced is for another type, so it is not that of this log
  have spared : ∀ m ∈ w.element.target.listeners, m.key = (t, id) → m.callback.isLog n = false := by
    intro m mem same
    by_contra mine
    have known : m ∈ w.element.target.listeners.filter (·.callback.isLog n) :=
      List.mem_filter.mpr ⟨mem, by simpa using mine⟩
    obtain rfl := List.mem_singleton.mp (live.only ▸ known)
    exact other (Prod.mk.inj same).1.symm
  refine ⟨attach_length id t w ▸ Nat.lt_succ_of_lt live.log, ?_, ?_⟩
  · refine (EventTarget.find?_place_other ?_).trans live.found
    exact fun same => other (Prod.mk.inj same).1
  · exact (EventTarget.filter_place_other (new_not_log live.log) spared).trans live.only

end Attaching

namespace LogUse

variable {id type : String} {depth n : Nat} {w : BenchWorld fixed}

theorem recorded_replaced (type : String) (rest : List LogUse) :
    recorded type (.attach type :: rest) = [] := by
  simp [recorded, attaches]

theorem recorded_other {t : String} (other : t ≠ type) (rest : List LogUse) :
    recorded type (.attach t :: rest) = recorded type rest := by
  rw [recorded, List.takeWhile_cons_of_pos (by simp [attaches, other]),
    List.filterMap_cons_none rfl]
  rfl

theorem recorded_told {x : LogUse} {e : Event} (event : x.event? = some e)
    (goesOn : x.attaches type = false) (rest : List LogUse) : recorded type (x :: rest) =
      [e].filter (fun e => type = e.type || type = Event.anyType) ++ recorded type rest := by
  rw [recorded, List.takeWhile_cons_of_pos (by simp [goesOn]), List.filterMap_cons_some event,
    ← List.singleton_append, List.filter_append]
  rfl

theorem act_ordinary (ordinary : AllOrdinary depth w) (id : String) (x : LogUse) :
    AllOrdinary depth (x.act id depth w) := by
  cases x with
  | attach t => exact attach_ordinary ordinary id t
  | dispatch | navigate => exact (told_wrote ordinary 0 id rfl).ordinary ordinary

theorem actAll_ordinary (ordinary : AllOrdinary depth w) (id : String) (uses : List LogUse) :
    AllOrdinary depth (actAll id depth w uses) := by
  induction uses generalizing w with
  | nil => exact ordinary
  | cons x rest ih => exact ih (act_ordinary ordinary id x)

/-- A log that another has replaced stays as it is. -/
theorem dead_recorded (ordinary : AllOrdinary depth w) (dead : Dead n w) (id : String)
    (since : List LogUse) : heard n (actAll id depth w since) = heard n w := by
  induction since generalizing w with
  | nil => rfl
  | cons x rest ih =>
    have later := ih (act_ordinary ordinary id x)
    have silent (e : Event) (event : x.event? = some e) : heard n (x.act id depth w) = heard n w ∧
        Dead n (x.act id depth w) := by
      have wrote := told_wrote ordinary n id event
      refine ⟨?_, wrote.dead dead⟩
      rw [wrote.heard, dead.written, List.append_nil]
    cases x with
    | attach t => exact (later (dead.attach id t)).trans (attach_heard dead.log id t)
    | dispatch | navigate =>
      obtain ⟨same, dead'⟩ := silent _ rfl
      exact (later dead').trans same

/-- While no other log takes its place, a log records all that it is to hold, and then no more. -/
theorem live_recorded (ordinary : AllOrdinary depth w) (live : Live id type n w)
    (since : List LogUse) :
    heard n (actAll id depth w since) = heard n w ++ recorded type since := by
  induction since generalizing w with
  | nil => exact (List.append_nil _).symm
  | cons x rest ih =>
    have ordinary' := act_ordinary ordinary id x
    have told (e : Event) (event : x.event? = some e) (goesOn : x.attaches type = false) :
        heard n (actAll id depth w (x :: rest)) = heard n w ++ recorded type (x :: rest) := by
      have wrote := told_wrote ordinary n id event
      have later := ih ordinary' (wrote.live live)
      rw [wrote.heard, live.written, List.append_assoc] at later
      rw [recorded_told event goesOn]
      exact later
    cases x with
    | attach t =>
      by_cases same : t = type
      · subst same
        have ended := dead_recorded ordinary' live.replaced id rest
        rw [recorded_replaced, List.append_nil, ← attach_heard live.log id t]
        exact ended
      · have later := ih ordinary' (live.attach same)
        rw [recorded_other same, ← attach_heard live.log id t]
        exact later
    | dispatch | navigate => exact told _ rfl rfl

end LogUse

open LogUse

/-- What a log holds, of any number of logs for any types, on an element whose other listeners leave
the listeners and the logs alone: all events of its type since it was attached, until the next log
is attached for the same type, and in order. Logs of other types make no difference. -/
theorem logs_recorded (id : String) {depth : Nat} {w : BenchWorld fixed}
    (ordinary : AllOrdinary depth w) (before since : List LogUse) (type : String) :
    let there := actAll id depth w before
    heard (attachLog id type there).2 (actAll id depth w (before ++ .attach type :: since)) =
      recorded type since := by
  intro there
  have ordinary' : AllOrdinary depth there := actAll_ordinary ordinary id before
  have live := attach_live ordinary' id type
  have empty : heard there.page.logs.length (attachLog id type there).1 = [] := by
    simp [heard, attachLog, World.setTarget, List.getD_eq_getElem?_getD]
  have rest := live_recorded (attach_ordinary ordinary' id type) live since
  rw [empty, List.nil_append] at rest
  rw [actAll, List.foldl_append]
  exact rest

/-- An element with a listener that only notes what it hears. -/
def notedWorld : BenchWorld ⟨{}, ""⟩ where
  element := { id := "save", target := ⟨[⟨Event.anyType, "page", .note⟩]⟩ }
  page := ⟨.scripted {}, [], [], []⟩

/-- The second log for all events ends the first. -/
theorem logs_recorded_twice :
    let saved : Event := ⟨"saved", .null⟩
    let later : List LogUse := [.attach Event.anyType, .navigate "/next"]
    let last := actAll "log" 0 notedWorld ([.attach Event.anyType, .dispatch saved] ++ later)
    AllOrdinary 0 notedWorld ∧ heard 0 last = [saved] ∧ heard 1 last = [.navigate "/next"] := by
  intro saved later last
  have ordinary : AllOrdinary 0 notedWorld := by
    intro l mem
    obtain rfl := List.mem_singleton.mp mem
    exact .inr ⟨nofun, fun e w => ⟨rfl, rfl⟩⟩
  exact ⟨ordinary, logs_recorded "log" ordinary [] (.dispatch saved :: later) Event.anyType,
    logs_recorded "log" ordinary [.attach Event.anyType, .dispatch saved] [.navigate "/next"]
      Event.anyType⟩

end Bench

end ActionChain
