import ActionChain.Proofs.Listeners

/-!
Dispatching to listeners that may do anything: add and remove listeners, themselves included, and
dispatch further events. What a callback does is a conduct, which depends on what its own calls have
returned and on a memory that all callbacks share. Main statement `dispatch_reaches`: a dispatch
that returns has called the callbacks that were reached at its start, each once and in order.
-/
namespace ActionChain

variable {κ μ : Type}

/-- What is done around a target, one thing after the other. -/
inductive Conduct (κ μ : Type)
  | done
  | add (type id : String) (callback : κ) (next : Conduct κ μ)
  | remove (type id : String) (next : Bool → Conduct κ μ)
  | count (type : String) (next : Nat → Conduct κ μ)
  | dispatch (e : Event) (next : Nat → Conduct κ μ)
  | consult (next : μ → Conduct κ μ)
  | keep (memory : μ) (next : Conduct κ μ)

/-- A callback as it was called, and the number of the dispatch that called it. -/
structure Called (κ : Type) where
  dispatch : Nat
  callback : κ
  event : Event

/-- A target and the memory of its listeners, with what has been done to it: all edits, how many
dispatches have been begun, and all calls of callbacks. -/
structure Scene (κ μ : Type) where
  target : EventTarget κ
  memory : μ
  history : List (Edit κ) := []
  dispatches : Nat := 0
  calls : List (Called κ) := []

abbrev Play (κ μ : Type) := κ → Event → Scene κ μ → Option (Scene κ μ)

namespace Scene

def edit (x : Edit κ) (s : Scene κ μ) : Scene κ μ :=
  { s with target := s.target.edit x, history := s.history ++ [x] }

def note (number : Nat) (k : κ) (e : Event) (s : Scene κ μ) : Scene κ μ :=
  { s with calls := s.calls ++ [⟨number, k, e⟩] }

def begin (s : Scene κ μ) : Scene κ μ := { s with dispatches := s.dispatches + 1 }

/-- Plays a callback that a dispatch calls, if all before it have returned. -/
def called (play : Play κ μ) (number : Nat) (k : κ) (e : Event) (s : Option (Scene κ μ)) :
    Option (Scene κ μ) := s.bind fun s => play k e (s.note number k e)

/-- Dispatches an event; a dispatch returns if all its callbacks do. -/
def dispatch (play : Play κ μ) (e : Event) (s : Scene κ μ) : Option (Scene κ μ × Nat) :=
  let (t, n) := s.target.dispatch (called play s.dispatches) e (some s.begin)
  t.map (·, n)

end Scene

namespace Conduct

def perform (play : Play κ μ) : Conduct κ μ → Scene κ μ → Option (Scene κ μ)
  | .done, s => some s
  | .add type id k next, s => perform play next (s.edit (.add type id k))
  | .remove type id next, s =>
    perform play (next (s.target.remove type id).2) (s.edit (.remove type id))
  | .count type next, s => perform play (next (s.target.count type)) s
  | .dispatch e next, s => (s.dispatch play e).bind fun r => perform play (next r.2) r.1
  | .consult next, s => perform play (next s.memory) s
  | .keep memory next, s => perform play next { s with memory }

/-- Plays a callback by its conduct. What does not return within a depth of calls within calls has
no result; so whatever returns does so within some depth. -/
def play (script : κ → Event → Conduct κ μ) : Nat → Play κ μ
  | 0, _, _, _ => none
  | depth + 1, k, e, s => perform (play script depth) (script k e) s

end Conduct

namespace Scene

/-- From one scene to another: what has been edited, and the new calls, by dispatches from a number
on. -/
structure Extends (first : Nat) (s t : Scene κ μ) (new : List (Called κ)) : Prop where
  edits : ∃ more, t.history = s.history ++ more ∧ t.target = more.foldl EventTarget.edit s.target
  dispatches : s.dispatches ≤ t.dispatches
  calls : t.calls = s.calls ++ new
  numbered : ∀ c ∈ new, first ≤ c.dispatch ∧ c.dispatch < t.dispatches

namespace Extends

variable {first : Nat} {s t u : Scene κ μ} {new more : List (Called κ)}

theorem refl (first : Nat) (s : Scene κ μ) : Extends first s s [] :=
  ⟨⟨[], by simp, rfl⟩, Nat.le_refl _, by simp, by simp⟩

theorem trans (grown : Extends first s t new) (next : Extends first t u more) :
    Extends first s u (new ++ more) := by
  obtain ⟨xs, history, target⟩ := grown.edits
  obtain ⟨ys, history', target'⟩ := next.edits
  constructor
  · exact ⟨xs ++ ys, by rw [history', history, List.append_assoc],
      by rw [target', target, List.foldl_append]⟩
  · exact Nat.le_trans grown.dispatches next.dispatches
  · rw [next.calls, grown.calls, List.append_assoc]
  · refine List.forall_mem_append.mpr ⟨fun c member => ?_, next.numbered⟩
    obtain ⟨since, before⟩ := grown.numbered c member
    exact ⟨since, Nat.lt_of_lt_of_le before next.dispatches⟩

theorem weaken {lower : Nat} (grown : Extends first s t new) (lower_le : lower ≤ first) :
    Extends lower s t new :=
  ⟨grown.edits, grown.dispatches, grown.calls, fun c member =>
    ⟨Nat.le_trans lower_le (grown.numbered c member).1, (grown.numbered c member).2⟩⟩

theorem edit (first : Nat) (x : Edit κ) (s : Scene κ μ) : Extends first s (s.edit x) [] :=
  ⟨⟨[x], rfl, rfl⟩, Nat.le_refl _, by simp [Scene.edit], by simp⟩

theorem keep (first : Nat) (memory : μ) (s : Scene κ μ) : Extends first s { s with memory } [] :=
  ⟨⟨[], by simp, rfl⟩, Nat.le_refl _, by simp, by simp⟩

theorem begin (first : Nat) (s : Scene κ μ) : Extends first s s.begin [] :=
  ⟨⟨[], by simp [Scene.begin], rfl⟩, Nat.le_succ _, by simp [Scene.begin], by simp⟩

theorem note {number : Nat} (begun : number < s.dispatches) (k : κ) (e : Event) :
    Extends number s (s.note number k e) [⟨number, k, e⟩] :=
  ⟨⟨[], by simp [Scene.note], rfl⟩, Nat.le_refl _, rfl, by simpa [Scene.note] using begun⟩

/-- A target that has come about by its history goes on to do so. -/
theorem target_eq (grown : Extends first s t new) (known : s.target = .ofEdits s.history) :
    t.target = .ofEdits t.history := by
  obtain ⟨more, history, target⟩ := grown.edits
  rw [target, known, history, EventTarget.ofEdits, EventTarget.ofEdits, List.foldl_append]

end Extends

/-- Whatever a play does, it does by edits and by dispatches of its own. -/
def Orderly (play : Play κ μ) : Prop :=
  ∀ k e s t, play k e s = some t → ∃ new, Extends s.dispatches s t new

variable {play : Play κ μ}

/-- What is called by a dispatch itself are its callbacks. Everything else that is called meanwhile
is called by dispatches that were begun later. -/
theorem calledAll_extends (orderly : Orderly play) {number : Nat} {e : Event} {ks : List κ}
    {s t : Scene κ μ} (begun : number < s.dispatches)
    (returned : ks.foldl (fun o k => called play number k e o) (some s) = some t) :
    ∃ new, Extends number s t new ∧
      new.filter (·.dispatch = number) = ks.map fun k => ⟨number, k, e⟩ := by
  induction ks generalizing s with
  | nil =>
    obtain rfl := Option.some.inj returned
    exact ⟨[], .refl number s, rfl⟩
  | cons k rest ih =>
    have gone {rest : List κ} :
        rest.foldl (fun o k => called play number k e o) (none : Option (Scene κ μ)) = none := by
      induction rest with
      | nil => rfl
      | cons k rest ih => exact ih
    cases played : play k e (s.note number k e) with
    | none =>
      have stuck : called play number k e (some s) = none := played
      rw [List.foldl_cons, stuck, gone] at returned
      cases returned
    | some u =>
      have went : called play number k e (some s) = some u := played
      rw [List.foldl_cons, went] at returned
      obtain ⟨nested, during⟩ := orderly k e _ u played
      obtain ⟨new, grown, own⟩ := ih (Nat.lt_of_lt_of_le begun during.dispatches) returned
      have call : Extends number s (s.note number k e) [⟨number, k, e⟩] := .note begun k e
      refine ⟨_, (call.trans (during.weaken (Nat.le_of_lt begun))).trans grown, ?_⟩
      have others : nested.filter (·.dispatch = number) = [] := by
        refine List.filter_eq_nil_iff.mpr fun c member same => ?_
        have later : s.dispatches ≤ c.dispatch := (during.numbered c member).1
        simp only [decide_eq_true_eq] at same
        omega
      simp [List.filter_append, others, own]

theorem dispatch_extends (orderly : Orderly play) {e : Event} {s t : Scene κ μ} {n : Nat}
    (returned : s.dispatch play e = some (t, n)) :
    n = (s.target.callbacks e.type).length ∧ s.dispatches < t.dispatches ∧
      ∃ new, Extends s.dispatches s t new ∧
        new.filter (·.dispatch = s.dispatches) =
          (s.target.callbacks e.type).map fun k => ⟨s.dispatches, k, e⟩ := by
  obtain ⟨u, done, pair⟩ := Option.map_eq_some_iff.mp returned
  obtain ⟨rfl, rfl⟩ := Prod.mk.inj pair
  obtain ⟨new, grown, own⟩ := calledAll_extends orderly (Nat.lt_succ_self s.dispatches) done
  exact ⟨rfl, grown.dispatches, new, (Extends.begin _ s).trans grown, own⟩

end Scene

namespace Conduct

open Scene

theorem perform_extends {play : Play κ μ} (orderly : Orderly play) (c : Conduct κ μ)
    {s t : Scene κ μ} (returned : c.perform play s = some t) :
    ∃ new, Extends s.dispatches s t new := by
  induction c generalizing s with
  | done =>
    obtain rfl := Option.some.inj returned
    exact ⟨[], .refl _ s⟩
  | add type id k next ih =>
    obtain ⟨new, grown⟩ := ih returned
    exact ⟨_, (Extends.edit _ (.add type id k) s).trans grown⟩
  | remove type id next ih =>
    obtain ⟨new, grown⟩ := ih _ returned
    exact ⟨_, (Extends.edit _ (.remove type id) s).trans grown⟩
  | count type next ih => exact ih _ returned
  | dispatch e next ih =>
    obtain ⟨⟨u, n⟩, dispatched, rest⟩ := Option.bind_eq_some_iff.mp returned
    obtain ⟨-, -, during, grown, -⟩ := dispatch_extends orderly dispatched
    obtain ⟨new, later⟩ := ih n rest
    exact ⟨_, grown.trans (later.weaken grown.dispatches)⟩
  | consult next ih => exact ih _ returned
  | keep memory next ih =>
    obtain ⟨new, grown⟩ := ih returned
    exact ⟨_, (Extends.keep _ memory s).trans grown⟩

theorem play_orderly (script : κ → Event → Conduct κ μ) (depth : Nat) :
    Orderly (play script depth) := by
  induction depth with
  | zero => nofun
  | succ depth ih => exact fun k e s t returned => perform_extends ih (script k e) returned

end Conduct

namespace EventTarget

theorem callbacks_eq (t : EventTarget κ) (type : String) : t.callbacks type =
    (t.listeners.filter fun l => l.type = type ∨ l.type = Event.anyType).map (·.callback) := by
  simp [callbacks, Listener.hears]

theorem callbacks_length (t : EventTarget κ) (type : String) : (t.callbacks type).length =
    t.count type + if type = Event.anyType then 0 else t.count Event.anyType := by
  rw [callbacks, List.length_map, ← List.countP_eq_length_filter, count, count]
  by_cases any : type = Event.anyType
  · simp [Listener.hears, any]
  · rw [if_neg any]
    induction t.listeners with
    | nil => rfl
    | cons l rest ih =>
      -- no listener is counted twice, as no type is both
      have once : l.type = type → l.type ≠ Event.anyType := fun this => this ▸ any
      by_cases this : l.type = type <;> by_cases all : l.type = Event.anyType <;>
        simp_all [Listener.hears] <;> omega

/-- Adding and removing listeners, and dispatching to them. Whatever was added and removed, the
listeners stand in the order of their times, and none stands twice. Whatever callbacks do, a target
changes by edits alone. A dispatch that returns has called, itself, the callbacks of the listeners
that there were at its start for the type of the event or for any type, each once and in order, and
it returns how many there were. -/
theorem dispatch_reaches (script : κ → Event → Conduct κ μ) :
    (∀ history : List (Edit κ), Lawful history (ofEdits history)) ∧
    ∀ (depth : Nat) (s : Scene κ μ),
      (∀ (c : Conduct κ μ) (t : Scene κ μ), c.perform (Conduct.play script depth) s = some t →
        s.target = ofEdits s.history → t.target = ofEdits t.history) ∧
      ∀ (e : Event) (t : Scene κ μ) (n : Nat),
        s.dispatch (Conduct.play script depth) e = some (t, n) →
        (s.target = ofEdits s.history → t.target = ofEdits t.history) ∧
        (∃ new, t.calls = s.calls ++ new ∧
          (∀ c ∈ new, s.dispatches ≤ c.dispatch ∧ c.dispatch < t.dispatches) ∧
          new.filter (·.dispatch = s.dispatches) =
            (s.target.listeners.filter fun l => l.type = e.type ∨ l.type = Event.anyType).map
              fun l => ⟨s.dispatches, l.callback, e⟩) ∧
        n = (s.target.listeners.filter fun l => l.type = e.type ∨ l.type = Event.anyType).length ∧
        n = s.target.count e.type +
          if e.type = Event.anyType then 0 else s.target.count Event.anyType := by
  refine ⟨ofEdits_lawful, fun depth s => ⟨fun c t returned known => ?_, fun e t n returned => ?_⟩⟩
  · obtain ⟨new, grown⟩ := c.perform_extends (Conduct.play_orderly script depth) returned
    exact grown.target_eq known
  · obtain ⟨number, -, new, grown, own⟩ :=
      Scene.dispatch_extends (Conduct.play_orderly script depth) returned
    refine ⟨grown.target_eq, ⟨new, grown.calls, grown.numbered, ?_⟩, ?_, ?_⟩
    · rw [own, callbacks_eq, List.map_map]
      rfl
    · rw [number, callbacks_eq, List.length_map]
    · rw [number, callbacks_length]

/-- The callback called once removes its listener, adds another one and dispatches an event; the
others do nothing. -/
def restless : String → Event → Conduct String Unit
  | "once", e =>
    .remove e.type "a" fun _ => .add e.type "c" "late" (.dispatch ⟨"other", .null⟩ fun _ => .done)
  | _, _ => .done

def restlessScene : Scene String Unit :=
  let history : List (Edit String) := [.add "ready" "a" "once", .add "*" "b" "always"]
  { target := ofEdits history, memory := (), history }

theorem dispatch_reaches_restless :
    let e : Event := ⟨"ready", .null⟩
    ∃ t, restlessScene.dispatch (Conduct.play restless 2) e = some (t, 2) ∧
      t.calls.map (·.callback) = ["once", "always", "always"] ∧
      t.calls.filter (·.dispatch = 0) = [⟨0, "once", e⟩, ⟨0, "always", e⟩] ∧
      t.target.listeners.map (·.callback) = ["always", "late"] ∧
      t.target = ofEdits t.history := by
  intro e
  obtain ⟨t, returned, called, left⟩ :
      ∃ t, restlessScene.dispatch (Conduct.play restless 2) e = some (t, 2) ∧
        t.calls.map (·.callback) = ["once", "always", "always"] ∧
        t.target.listeners.map (·.callback) = ["always", "late"] := ⟨_, rfl, rfl, rfl⟩
  obtain ⟨known, ⟨new, calls, -, own⟩, -⟩ :=
    ((dispatch_reaches restless).2 2 restlessScene).2 e t 2 returned
  have all : t.calls = new := calls
  exact ⟨t, returned, called, all ▸ own, left, known rfl⟩

end EventTarget

end ActionChain
