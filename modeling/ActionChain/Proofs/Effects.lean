import ActionChain.Bench.Stage
import ActionChain.Proofs.Proceeding

/-!
The effects of an activation on a stage: what it asks of the form, what a listener to all events
hears, and what changes about the element. `Call.effects` lists them for each call, as the call is
written. Main statement `execute_confined`: while nobody interferes, each step has the effects of its
call, once and in order, and no others.
-/
namespace ActionChain

open Bench

variable {fixed : Fixed}

def Event.navigation (url : String) : Event := ⟨"navigate", .object [("url", .string url)]⟩

/-- What a step does but for waiting: what it asks of the form, the event that it dispatches, and
what about the element it may change. -/
structure Effects where
  call : Option FormCall := none
  event : Option Event := none
  navigates : Bool := false
  changesDisabled : Bool := false
  changesClasses : Bool := false

/-- The effects of a call on an element at this location, with a form that holds these data. To
proceed takes a place to go to. -/
def Call.effects (c : Call) (input : Option Response) (location : String) (data : Json) : Effects :=
  let value (a : Argument) : Json := a.reading data.held
  match c.name with
  | "submit" => { call := some (.submit (c.args.head?.map value)) }
  | "reset" => { call := some .reset }
  | "clearErrors" => { call := some .clearErrors }
  | "emit" => match c.args with
    | .string type :: detail => { event := some ⟨type, (detail.head?.map value).getD .null⟩ }
    | _ => {}
  | "activate" => { event := some ⟨"activate", .array (c.args.map value)⟩ }
  | "proceed" =>
    let named := (input.filter (·.status = 200)).bind Response.namedUrl?
    { event := (named.or c.writtenUrl?).map .navigation, navigates := true }
  | "reload" => { event := some (.navigation location), navigates := true }
  | "disable" | "enable" => { changesDisabled := true }
  | "addClass" | "removeClass" | "toggleClass" | "spinner" | "okay" | "bummer" =>
    { changesClasses := true }
  | _ => {}

/-- The effects of an action, with its arguments as it has them bound. -/
def Action.effects (a : Action) (input : Option Response) (w : BenchWorld fixed) : Effects :=
  match a with
  | .submit data => { call := some (.submit (data.map w.evaluate)) }
  | .reset => { call := some .reset }
  | .clearErrors => { call := some .clearErrors }
  | .emit type detail => { event := some ⟨type, (detail.map w.evaluate).getD .null⟩ }
  | .activate args => { event := some ⟨activateType, .array (args.map w.evaluate)⟩ }
  | .proceed fallback =>
    { event := (destination? fallback input).map .navigate, navigates := true }
  | .reload => { event := some (.navigate w.element.location), navigates := true }
  | .disable | .enable => { changesDisabled := true }
  | .addClass _ | .removeClass _ | .toggleClass _ | .spinner | .okay _ | .bummer _ =>
    { changesClasses := true }
  | .delay _ | .intercept | .noop => {}

section Calls

variable {call : Call} {r : Resolved Action} {w : BenchWorld fixed} {data : Option Bound}
  {args : List Bound}

/-- The data that the form holds. -/
def Bench.formData (w : BenchWorld fixed) : Json :=
  match w.page.form with
  | .scripted f => f.data
  | .routed f => f.data

theorem evaluate_eq {a : Argument} {b : Bound} {action : String}
    (bound : Bound.bind action a = .ok b) : w.evaluate b = a.reading (formData w).held := by
  have read : Form.value? w.page = (formData w).atPath? := by
    have page : Form.value? w.page = Form.value? w.page.form := rfl
    rw [page, formData]
    cases w.page.form <;> rfl
  rw [World.evaluate, read, Bound.value_eq bound]

theorem map_evaluate {given : List Argument} {action : String}
    (bound : List.Forall₂ (fun a b => Bound.bind action a = .ok b) given args) :
    args.map w.evaluate = given.map (·.reading (formData w).held) := by
  induction bound with
  | nil => rfl
  | cons first _ ih => rw [List.map_cons, List.map_cons, evaluate_eq first, ih]

theorem takes_data (takes : Signature.Takes { further := .optional .any } args
    (data.map Held.bound).toList) : args = data.toList := by
  rcases takes_optional.mp takes with nothing | one
  · obtain ⟨rfl, kept⟩ := takes_nothing.mp nothing
    cases data <;> cases kept
    rfl
  · obtain ⟨b, h, rfl, kept, any⟩ := takes_one.mp one
    cases data <;> cases kept
    cases any
    rfl

/-- Data that may be left out have the value of the argument that gives them. -/
theorem data_evaluate {given : List Argument} {action : String}
    (bound : List.Forall₂ (fun a b => Bound.bind action a = .ok b) given data.toList) :
    data.map w.evaluate = given.head?.map (·.reading (formData w).held) := by
  rw [← List.head?_map, ← map_evaluate bound]
  cases data <;> rfl

namespace Catalogue.Resolves

/-- The arguments of a resolved call are what the action holds. -/
theorem takes {a : Action} {sig : Signature} (resolves : actions.Resolves call r)
    (step : r.step = a) (known : Action.signature? a.name = some sig) :
    sig.Takes r.arguments a.held := by
  obtain ⟨named, sig', known', takes⟩ := Action.ofCall_ok_iff.mp (made_of_resolves resolves)
  rw [← named, step, known] at known'
  obtain rfl := Option.some.inj known'
  rwa [step] at takes

theorem submit (resolves : actions.Resolves call r) (step : r.step = .submit data) :
    data.map w.evaluate = call.args.head?.map (·.reading (formData w).held) := by
  have takes := resolves.takes step rfl
  have bound := resolves.bound
  rw [takes_data takes] at bound
  exact data_evaluate bound

theorem emit {type : String} (resolves : actions.Resolves call r)
    (step : r.step = .emit type data) : ∃ detail, call.args = .string type :: detail ∧
      data.map w.evaluate = detail.head?.map (·.reading (formData w).held) := by
  have takes := resolves.takes step rfl
  obtain ⟨b, bs, h, hs, given, kept, name, rest⟩ := takes_cons.mp takes
  obtain ⟨rfl, rfl⟩ := List.cons.inj kept
  have bound := resolves.bound
  rw [given, takes_data rest] at bound
  obtain ⟨a, detail, first, others, written⟩ := List.forall₂_cons_right_iff.mp bound
  rw [Bound.bind_string first (Action.takes_eventName.mp name).1] at written
  exact ⟨detail, written, data_evaluate others⟩

/-- The step of a call has the effects of the call. -/
theorem effects (resolves : actions.Resolves call r) (input : Option Response)
    (w : BenchWorld fixed) :
    r.step.effects input w = call.effects input w.element.location (formData w) := by
  have made := made_of_resolves resolves
  have named : r.step.name = call.name := resolves.same ▸ Action.ofCall_name made
  cases step : r.step with
  | submit data =>
    rw [step] at named
    rw [Action.effects, resolves.submit step, Call.effects, ← named]
    rfl
  | emit type data =>
    obtain ⟨detail, args, value⟩ := resolves.emit (w := w) step
    rw [step] at named
    rw [Action.effects, value, Call.effects, ← named, args]
    rfl
  | activate args =>
    rw [resolves.same, ← named, step] at made
    have bound := resolves.bound
    rw [Action.activate.inj (Except.ok.inj made)] at bound
    rw [step] at named
    rw [Action.effects, map_evaluate bound, Call.effects, ← named]
    rfl
  | proceed fallback =>
    rw [step] at named
    have written := (resolves.proceed named.symm).1
    rw [step] at written
    rw [Action.effects, Action.destination?_eq, Action.proceed.inj written, Call.effects, ← named]
    rfl
  | _ =>
    rw [step] at named
    rw [Call.effects, ← named]
    rfl

end Catalogue.Resolves

end Calls

namespace Bench

def formCalls (w : BenchWorld fixed) : List FormCall :=
  match w.page.form with
  | .scripted f => f.calls
  | .routed _ => []

/-- What has been written to a log. -/
def heard (n : Nat) (w : BenchWorld fixed) : EventLog := w.page.logs.getD n []

def Bystander (n : Nat) (k : Callback) : Prop := k = .note ∨ ∃ m, m ≠ n ∧ k = .log m

/-- A scripted form, and one listener that logs all events under this number, among others that only
note them elsewhere. -/
structure Watched (n : Nat) (w : BenchWorld fixed) : Prop where
  form : ∃ f, w.page.form = .scripted f
  log : n < w.page.logs.length
  listener : ∃ before l after, w.element.target.listeners = before ++ l :: after ∧
    l.type = Event.anyType ∧ l.callback = .log n ∧
    ∀ m ∈ before ++ after, Bystander n m.callback

theorem Watched.keep {n : Nat} {v w : BenchWorld fixed} (watched : Watched n v)
    (target : w.element.target = v.element.target) (form : ∃ f, w.page.form = .scripted f)
    (logs : w.page.logs.length = v.page.logs.length) : Watched n w :=
  ⟨form, logs ▸ watched.log, target ▸ watched.listener⟩

section Listening

/-- All that happens is that these events are heard. -/
structure Told (n : Nat) (es : List Event) (v w : BenchWorld fixed) : Prop where
  element : w.element = v.element
  form : w.page.form = v.page.form
  logs : w.page.logs.length = v.page.logs.length
  heard : heard n w = heard n v ++ es

variable {n : Nat} {es more : List Event} {u v w : BenchWorld fixed}

theorem Told.refl (n : Nat) (w : BenchWorld fixed) : Told n [] w w :=
  ⟨rfl, rfl, rfl, (List.append_nil _).symm⟩

theorem Told.trans (told : Told n es u v) (next : Told n more v w) : Told n (es ++ more) u w :=
  ⟨next.element.trans told.element, next.form.trans told.form, next.logs.trans told.logs,
    by rw [next.heard, told.heard, List.append_assoc]⟩

theorem writeLog_told {m : Nat} (log : m < w.page.logs.length) (e : Event) :
    Told m [e] w (writeLog m e w) := by
  refine ⟨rfl, rfl, by simp [writeLog], ?_⟩
  simp [writeLog, heard, List.getD_eq_getElem?_getD, log]

theorem bystander_told {k : Callback} (idle : Bystander n k) (depth : Nat) (e : Event) :
    Told n [] w (react depth k e w) := by
  obtain rfl | ⟨m, other, rfl⟩ := idle
  · have noted : react depth .note e w = note e w := by cases depth <;> rfl
    rw [noted]
    exact ⟨rfl, rfl, rfl, (List.append_nil _).symm⟩
  · have written : react depth (.log m) e w = writeLog m e w := by cases depth <;> rfl
    rw [written]
    refine ⟨rfl, rfl, by simp [writeLog], ?_⟩
    simp [writeLog, heard, List.getD_eq_getElem?_getD, other]

theorem bystanders_told {ks : List Callback} (idle : ∀ k ∈ ks, Bystander n k) (depth : Nat)
    (e : Event) : Told n [] w (ks.foldl (fun w k => react depth k e w) w) := by
  induction ks generalizing w with
  | nil => exact .refl n w
  | cons k rest ih =>
    obtain ⟨now, later⟩ := List.forall_mem_cons.mp idle
    exact (bystander_told now depth e).trans (ih later)

/-- The listener hears an event once. -/
theorem dispatch_told (watched : Watched n w) (depth : Nat) (e : Event) :
    Told n [e] w (w.dispatch (react depth) e).1 := by
  obtain ⟨before, l, after, listeners, any, logs, others⟩ := watched.listener
  have hears : l.hears e.type = true := by simp [Listener.hears, any]
  have reached : w.element.target.callbacks e.type =
      (before.filter (·.hears e.type)).map (·.callback) ++
        .log n :: (after.filter (·.hears e.type)).map (·.callback) := by
    simp [EventTarget.callbacks, listeners, hears, logs]
  have idle {part : List (Listener Callback)} (fewer : ∀ m ∈ part, m ∈ before ++ after) :
      ∀ k ∈ (part.filter (·.hears e.type)).map (·.callback), Bystander n k := by
    refine List.forall_mem_map.mpr fun m member => ?_
    exact others m (fewer m (List.mem_filter.mp member).1)
  rw [World.dispatch, EventTarget.dispatch, reached, List.foldl_append, List.foldl_cons]
  have first : Told n [] w _ := bystanders_told (idle fun m => List.mem_append_left after) depth e
  generalize ((before.filter (·.hears e.type)).map (·.callback)).foldl
    (fun w k => react depth k e w) w = v at first ⊢
  have written : react depth (.log n) e v = writeLog n e v := by cases depth <;> rfl
  have own : Told n [e] v (react depth (.log n) e v) :=
    written ▸ writeLog_told (first.logs ▸ watched.log) e
  exact (first.trans own).trans
    (bystanders_told (idle fun m => List.mem_append_right before) depth e)

end Listening

/-- From one world to the next, there have been these effects and no others. -/
structure Confined (n : Nat) (fx : Effects) (v w : BenchWorld fixed) : Prop where
  calls : formCalls w = formCalls v ++ fx.call.toList
  heard : heard n w = heard n v ++ fx.event.toList
  goes : fx.navigates = true → ∀ e, fx.event = some e → e = .navigation w.element.location
  stays : fx.navigates = false ∨ fx.event = none → w.element.location = v.element.location
  disabled : fx.changesDisabled = false → w.element.disabled = v.element.disabled
  classes : fx.changesClasses = false → w.element.classes = v.element.classes
  watched : Watched n w

section Changes

variable {n : Nat} {fx : Effects} {u v w : BenchWorld fixed}

/-- The element may have got another look. -/
theorem confined_look (watched : Watched n v) (page : w.page = v.page)
    (location : w.element.location = v.element.location)
    (target : w.element.target = v.element.target) (noCall : fx.call = none)
    (noEvent : fx.event = none)
    (disabled : fx.changesDisabled = false → w.element.disabled = v.element.disabled)
    (classes : fx.changesClasses = false → w.element.classes = v.element.classes) :
    Confined n fx v w where
  calls := by simp [formCalls, page, noCall]
  heard := by simp [Bench.heard, page, noEvent]
  goes := by simp [noEvent]
  stays := fun _ => location
  disabled := disabled
  classes := classes
  watched := watched.keep target (page ▸ watched.form) (by rw [page])

/-- The form has been asked for something. -/
theorem confined_form (watched : Watched n v) (element : w.element = v.element)
    (logs : w.page.logs = v.page.logs) {f g : ScriptedForm} {c : FormCall}
    (before : v.page.form = .scripted f) (after : w.page.form = .scripted g)
    (calls : g.calls = f.calls ++ [c]) (asks : fx.call = some c) (noEvent : fx.event = none) :
    Confined n fx v w where
  calls := by simp [formCalls, before, after, calls, asks]
  heard := by simp [Bench.heard, logs, noEvent]
  goes := by simp [noEvent]
  stays := fun _ => by rw [element]
  disabled := fun _ => by rw [element]
  classes := fun _ => by rw [element]
  watched := watched.keep (by rw [element]) ⟨g, after⟩ (by rw [logs])

/-- An event has been dispatched, on a page that may have been changed for another before. -/
theorem confined_event (watched : Watched n v) (page : u.page = v.page)
    (target : u.element.target = v.element.target) {e : Event} (told : Told n [e] u w)
    (noCall : fx.call = none) (event : fx.event = some e)
    (goes : fx.navigates = true → e = .navigation u.element.location)
    (stays : fx.navigates = false → u.element.location = v.element.location)
    (disabled : u.element.disabled = v.element.disabled)
    (classes : u.element.classes = v.element.classes) : Confined n fx v w where
  calls := by simp [formCalls, told.form, page, noCall]
  heard := by
    have before : Bench.heard n u = Bench.heard n v := by rw [Bench.heard, page]; rfl
    rw [told.heard, before, event]
    rfl
  goes := by
    intro navigates e' same
    obtain rfl := Option.some.inj (event.symm.trans same)
    rw [told.element]
    exact goes navigates
  stays := by
    rintro (other | silent)
    · rw [told.element]
      exact stays other
    · simp [silent] at event
  disabled := fun _ => by rw [told.element, disabled]
  classes := fun _ => by rw [told.element, classes]
  watched := by
    refine watched.keep (by rw [told.element, target]) ?_ (by rw [told.logs, page])
    rw [told.form, page]
    exact watched.form

end Changes

end Bench

section Frames

variable {κ η : Type}

theorem World.sleep_frame (pause : Micros) (value : Option Response) (w : World κ η fixed) :
    (w.sleep pause value).1.element = w.element ∧ (w.sleep pause value).1.page = w.page := by
  rw [sleep]
  split <;> exact ⟨rfl, rfl⟩

theorem World.showDecorator_frame (c : String) (pause : Micros) (value : Option Response)
    (w : World κ η fixed) : (w.showDecorator c pause value).1.element = (w.decorate c).element ∧
      (w.showDecorator c pause value).1.page = w.page := by
  rw [showDecorator]
  split
  · exact ⟨rfl, rfl⟩
  · exact (w.decorate c).sleep_frame pause value

theorem World.submit_frame [Form η] (data : Option Json) (w : World κ η fixed) :
    (w.submit data).1.element = w.element ∧
      (w.submit data).1.page = (Form.submit w.page data).1 := by
  rw [submit]
  rcases Form.submit w.page data with ⟨page, answer | ⟨ms, answer⟩ | _⟩
  · exact ⟨rfl, rfl⟩
  · dsimp only
    split <;> exact ⟨rfl, rfl⟩
  · exact ⟨rfl, rfl⟩

end Frames

namespace Bench

section Steps

variable {n : Nat} {fx : Effects} {input : Option Response} {w : BenchWorld fixed}

theorem confined_navigate (watched : Watched n w) (depth : Nat) {url : String}
    (noCall : fx.call = none) (event : fx.event = some (.navigate url))
    (navigates : fx.navigates = true) : Confined n fx w (w.navigate (react depth) url) := by
  let there : BenchWorld fixed := { w with element := { w.element with location := url } }
  have kept : Watched n there := watched.keep rfl watched.form rfl
  have told : Told n [.navigate url] there (w.navigate (react depth) url) :=
    dispatch_told kept depth _
  exact confined_event (u := there) watched rfl rfl told noCall event (fun _ => rfl)
    (fun other => by simp [navigates] at other) rfl rfl

theorem confined_decorator (watched : Watched n w) (c : String) (pause : Micros) :
    Confined n { changesClasses := true } w (w.showDecorator c pause input).1 := by
  obtain ⟨element, page⟩ := w.showDecorator_frame c pause input
  exact confined_look watched page (by rw [element]; rfl) (by rw [element]; rfl) rfl rfl
    (fun _ => by rw [element]; rfl) Bool.noConfusion

/-- What a step has done before it waits, if it does wait. -/
theorem run_confined (depth : Nat) (a : Action) (input : Option Response) (watched : Watched n w) :
    Confined n (a.effects input w) w (a.run (react depth) input w).1 := by
  obtain ⟨f, scripted⟩ := watched.form
  cases a with
  | disable | enable =>
    exact confined_look watched rfl rfl rfl rfl rfl Bool.noConfusion fun _ => rfl
  | addClass c | removeClass c | toggleClass c | spinner =>
    exact confined_look watched rfl rfl rfl rfl rfl (fun _ => rfl)
      Bool.noConfusion
  | submit data =>
    obtain ⟨element, page⟩ := w.submit_frame (data.map w.evaluate)
    have form : (Form.submit w.page (data.map w.evaluate)).1.form =
        .scripted (f.submit (data.map w.evaluate)).1 := by
      have part : (Form.submit w.page (data.map w.evaluate)).1.form =
          (Form.submit w.page.form (data.map w.evaluate)).1 := rfl
      rw [part, scripted]
      rfl
    exact confined_form watched element (congrArg (·.logs) page) scripted
      ((congrArg (·.form) page).trans form) rfl rfl rfl
  | reset =>
    have form : (Form.reset w.page.form) = .scripted (f.record .reset) := by rw [scripted]; rfl
    exact confined_form watched rfl rfl scripted form rfl rfl rfl
  | clearErrors =>
    have form : (Form.clearErrors w.page.form) = .scripted (f.record .clearErrors) := by
      rw [scripted]
      rfl
    exact confined_form watched rfl rfl scripted form rfl rfl rfl
  | proceed fallback =>
    rw [Action.run, Action.effects]
    dsimp only
    cases Action.destination? fallback input with
    | none => exact confined_look watched rfl rfl rfl rfl rfl (fun _ => rfl) fun _ => rfl
    | some url => exact confined_navigate watched depth rfl rfl rfl
  | reload => exact confined_navigate watched depth rfl rfl rfl
  | emit type detail =>
    exact confined_event watched rfl rfl (dispatch_told watched depth _) rfl rfl
      Bool.noConfusion (fun _ => rfl) rfl rfl
  | activate args =>
    exact confined_event watched rfl rfl (dispatch_told watched depth _) rfl rfl
      Bool.noConfusion (fun _ => rfl) rfl rfl
  | delay pause =>
    obtain ⟨element, page⟩ := w.sleep_frame pause input
    exact confined_look watched page (congrArg (·.location) element) (congrArg (·.target) element)
      rfl rfl (fun _ => congrArg (·.disabled) element) fun _ => congrArg (·.classes) element
  | okay pause => exact confined_decorator watched _ _
  | bummer pause => exact confined_decorator watched _ _
  | intercept | noop =>
    exact confined_look watched rfl rfl rfl rfl rfl (fun _ => rfl) fun _ => rfl

end Steps

/-- While a step waits, time may pass, but nobody touches the element or the page. -/
structure Idle (i : Interlude (BenchWorld fixed)) : Prop where
  element : ∀ w, (i.change w).element = w.element
  page : ∀ w, (i.change w).page = w.page

/-- Nobody interferes with a turn. -/
def Undisturbed (t : Turn (BenchWorld fixed)) : Prop := ∀ i, t.wait = some i → Idle i

theorem Undisturbed.meanwhile {t : Turn (BenchWorld fixed)} (undisturbed : Undisturbed t)
    (w : BenchWorld fixed) :
    (t.meanwhile w).element = w.element ∧ (t.meanwhile w).page = w.page := by
  rw [Turn.meanwhile]
  cases wait : t.wait with
  | none => exact ⟨rfl, rfl⟩
  | some i => exact ⟨(undisturbed i wait).element w, (undisturbed i wait).page w⟩

theorem Confined.later {n : Nat} {fx : Effects} {u v w : BenchWorld fixed}
    (confined : Confined n fx u v) (element : w.element = v.element) (page : w.page = v.page) :
    Confined n fx u w where
  calls := by rw [formCalls, page]; exact confined.calls
  heard := by rw [Bench.heard, page]; exact confined.heard
  goes := element ▸ confined.goes
  stays := element ▸ confined.stays
  disabled := element ▸ confined.disabled
  classes := element ▸ confined.classes
  watched := confined.watched.keep (by rw [element]) (page ▸ confined.watched.form) (by rw [page])

abbrev BenchTaken (fixed : Fixed) := Taken Callback Stage fixed

/-- The effects that a call is to have in its turn, on what is there when the turn begins. -/
def callEffects (p : BenchTaken fixed) : Effects :=
  p.1.call.effects p.2.input p.2.before.element.location (formData p.2.before)

/-- The turns have the effects of their calls, and together they have no others. -/
structure Accounted (n : Nat) (taken : List (BenchTaken fixed)) (v w : BenchWorld fixed) :
    Prop where
  turns : ∀ p ∈ taken, Confined n (callEffects p) p.2.before p.2.after
  calls : formCalls w = formCalls v ++ taken.filterMap fun p => (callEffects p).call
  heard : heard n w = heard n v ++ taken.filterMap fun p => (callEffects p).event
  watched : Watched n w

section Accounts

variable {n : Nat} {taken more : List (BenchTaken fixed)} {u v w : BenchWorld fixed}

theorem Accounted.nil (watched : Watched n w) : Accounted n [] w w :=
  ⟨by simp, by simp, by simp, watched⟩

theorem Accounted.append (accounted : Accounted n taken u v) (next : Accounted n more v w) :
    Accounted n (taken ++ more) u w where
  turns := List.forall_mem_append.mpr ⟨accounted.turns, next.turns⟩
  calls := by rw [next.calls, accounted.calls, List.filterMap_append, List.append_assoc]
  heard := by rw [next.heard, accounted.heard, List.filterMap_append, List.append_assoc]
  watched := next.watched

theorem Confined.accounted {p : BenchTaken fixed}
    (confined : Confined n (callEffects p) p.2.before p.2.after) :
    Accounted n [p] p.2.before p.2.after where
  turns := List.forall_mem_singleton.mpr confined
  calls := by
    rw [confined.calls]
    cases call : (callEffects p).call <;> simp [call]
  heard := by
    rw [confined.heard]
    cases event : (callEffects p).event <;> simp [event]
  watched := confined.watched

theorem turn_accounted {depth : Nat} {r : Resolved Action} {t : Turn (BenchWorld fixed)}
    (resolves : Catalogue.actions.Resolves r.call r) (genuine : t.Genuine)
    (step : r.step.run (react depth) = t.step) (undisturbed : Undisturbed t)
    (watched : Watched n t.before) : Accounted n [(r, t)] t.before t.after := by
  obtain ⟨-, after⟩ := genuine.ends (step ▸ r.step.run_yields (react depth) t.input t.before)
  have before := run_confined depth r.step t.input watched
  rw [step, resolves.effects] at before
  obtain ⟨element, page⟩ := undisturbed.meanwhile (t.step t.input t.before).1
  rw [← after] at element page
  exact Confined.accounted (p := (r, t)) (before.later element page)

theorem chainRun_accounted {depth : Nat} {plan : List (Resolved Action)}
    (resolved : ∀ r ∈ plan, Catalogue.actions.Resolves r.call r)
    {value : Option Response} {turns : List (Turn (BenchWorld fixed))} {result : StepResult}
    (run : ChainRun (plan.map fun r => r.step.run (react depth)) value v turns result w)
    (undisturbed : ∀ t ∈ turns, Undisturbed t) (watched : Watched n v) :
    Accounted n (plan.zip turns) v w := by
  generalize same : (plan.map fun r => (r.step.run (react depth) : Step (BenchWorld fixed))) = steps
    at run
  induction run generalizing plan with
  | completed value s =>
    obtain rfl := List.map_eq_nil_iff.mp same
    exact .nil watched
  | @failed t f rest genuine failed =>
    obtain ⟨r, plan, rfl, step, rfl⟩ := List.map_eq_cons_iff.mp same
    have accounted := turn_accounted (resolved r List.mem_cons_self) genuine step
      (undisturbed t List.mem_cons_self) watched
    simpa using accounted
  | @next t value rest turns result last genuine ok run ih =>
    obtain ⟨r, plan, rfl, step, rfl⟩ := List.map_eq_cons_iff.mp same
    obtain ⟨first, others⟩ := List.forall_mem_cons.mp resolved
    obtain ⟨now, later⟩ := List.forall_mem_cons.mp undisturbed
    have accounted := turn_accounted first genuine step now watched
    exact accounted.append (ih others later accounted.watched rfl)

theorem execution_accounted {depth : Nat} {e : Expression} {plan : Chains Action}
    (planned : Catalogue.actions.build e = .ok plan) {turns more : List (Turn (BenchWorld fixed))}
    {o : Outcome} (law : Execution (plan.success.map fun r => r.step.run (react depth))
      (plan.reject.map fun r => r.step.run (react depth)) v turns more o w)
    (undisturbed : ∀ t ∈ turns ++ more, Undisturbed t) (watched : Watched n v) :
    Accounted n (plan.success.zip turns ++ plan.reject.zip more) v w := by
  obtain ⟨success, reject⟩ := Catalogue.build_ok_iff.mp planned
  have resolved := Catalogue.resolves_of_mem success
  have resolved' := Catalogue.resolves_of_mem reject
  obtain ⟨first, second⟩ := List.forall_mem_append.mp undisturbed
  cases law with
  | direct run => simpa using chainRun_accounted resolved run first watched
  | viaReject run some run' =>
    have accounted := chainRun_accounted resolved run first watched
    exact accounted.append (chainRun_accounted resolved' run' second accounted.watched)

end Accounts

end Bench

theorem Execution.taken_turns {σ : Type} {plan : Chains Action} {f : Action → Step σ} {s t : σ}
    {turns more : List (Turn σ)} {o : Outcome}
    (law : Execution (plan.success.map fun r => f r.step) (plan.reject.map fun r => f r.step) s
      turns more o t) :
    (plan.success.zip turns ++ plan.reject.zip more).map (·.2) = turns ++ more := by
  obtain ⟨first, second⟩ := law.steps_prefix
  have turns_le : turns.length ≤ plan.success.length := by simpa using first.length_le
  have more_le : more.length ≤ plan.reject.length := by simpa using second.length_le
  rw [List.map_append, List.map_snd_zip turns_le, List.map_snd_zip more_le]

namespace Button

/-- The effects of an activation, for any expression that can be built, on any watched stage. To
restore the element at the end asks nothing of the form and tells nobody. -/
theorem execute_confined (depth : Nat) {e : Expression}
    {chains : Chains (Step (BenchWorld fixed))}
    (built : (Catalogue.ofActions (Action.run (react depth))).build e = .ok chains)
    {n : Nat} {w : BenchWorld fixed} (watched : Watched n w)
    {waits : Nat → Interlude (BenchWorld fixed)} (idle : ∀ i, Idle (waits i)) :
    let b : Button Callback Bench.Stage fixed := { chains, world := w }
    ∃ plan turns more o last,
      Catalogue.actions.build e = .ok plan ∧ chains = plan.map (Action.run (react depth)) ∧
      Execution b.success b.reject w turns more o last ∧
      b.execute waits =
        { b with world := last.restore, started := 1, endings := [(0, .outcome o)] } ∧
      let taken := plan.success.zip turns ++ plan.reject.zip more
      taken.map (·.2) = turns ++ more ∧ Accounted n taken w last ∧
      formCalls last.restore = formCalls last ∧ heard n last.restore = heard n last ∧
      last.restore.element.location = last.element.location := by
  intro b
  obtain ⟨plan, turns, more, o, last, planned, same, law, law', waited, executed⟩ :=
    execute_planned built w waits
  have undisturbed : ∀ t ∈ turns ++ more, Undisturbed t := by
    intro t member i wait
    obtain ⟨k, rfl⟩ := waited t member i wait
    exact idle k
  exact ⟨plan, turns, more, o, last, planned, same, law, executed, law'.taken_turns,
    execution_accounted planned law' undisturbed watched, rfl, rfl, rfl⟩

def nameData : Argument := .call "getDataValue" [.array [.string "name"]]

def saveExpression : Expression :=
  ⟨[⟨"disable", []⟩, ⟨"submit", [.object [("author", nameData)]]⟩,
      ⟨"emit", [.string "saved", nameData]⟩, ⟨"proceed", []⟩], [⟨"reset", []⟩]⟩

def savePlan : Chains Action where
  success :=
    let author : Bound := .object [("author", .dataValue "name")]
    [⟨⟨"disable", []⟩, [], .disable⟩,
      ⟨⟨"submit", [.object [("author", nameData)]]⟩, [author], .submit (some author)⟩,
      ⟨⟨"emit", [.string "saved", nameData]⟩, [.literal (.string "saved"), .dataValue "name"],
        .emit "saved" (some (.dataValue "name"))⟩,
      ⟨⟨"proceed", []⟩, [], .proceed none⟩]
  reject := [⟨⟨"reset", []⟩, [], .reset⟩]

/-- The form of this stage answers after a while, and says where to go next. -/
def saveStage : BenchWorld ⟨{}, "plain"⟩ :=
  let answer : Response := ⟨200, .object [("success_url", .string "/next")]⟩
  let form : ScriptedForm :=
    { data := .object [("name", .string "Ada")], replies := [.slow 50 answer] }
  (attachLog "log" Event.anyType
    { element := { id := "save", location := "/edit" }, page := ⟨.scripted form, [], [], []⟩ }).1

theorem execute_confined_save :
    let b : Button Callback Bench.Stage ⟨{}, "plain"⟩ :=
      { chains := savePlan.map (Action.run (react 1)), world := saveStage }
    let waits : Nat → Interlude (BenchWorld ⟨{}, "plain"⟩) :=
      fun _ => ⟨.expired, fun w => { w with clock := w.clock + 50 }.expire⟩
    (Catalogue.ofActions (Action.run (react 1))).build saveExpression = .ok b.chains ∧
    Watched 0 saveStage ∧ (∀ i, Idle (waits i)) ∧
    ∃ (plan : Chains Action) (turns more : List (Turn (BenchWorld ⟨{}, "plain"⟩))) (last : _),
      Accounted 0 (plan.success.zip turns ++ plan.reject.zip more) saveStage last ∧
      (b.execute waits).world = last.restore ∧
      formCalls last = [.submit (some (.object [("author", .string "Ada")]))] ∧
      heard 0 last = [⟨"saved", .string "Ada"⟩, .navigation "/next"] := by
  intro b waits
  have planned : Catalogue.actions.build saveExpression = .ok savePlan := rfl
  have built : (Catalogue.ofActions (Action.run (react 1))).build saveExpression =
      .ok b.chains := by
    rw [Catalogue.build_ofActions, planned]
    rfl
  have watched : Watched 0 saveStage :=
    ⟨⟨_, rfl⟩, Nat.zero_lt_one, [], _, [], rfl, rfl, rfl, by simp⟩
  have idle : ∀ i, Idle (waits i) := fun _ => ⟨fun _ => rfl, fun _ => rfl⟩
  obtain ⟨plan, turns, more, o, last, -, -, -, executed, -, accounted, calls, events, -⟩ :=
    execute_confined 1 built watched idle
  have world : (b.execute waits).world = last.restore := by rw [executed]
  refine ⟨built, watched, idle, plan, turns, more, last, accounted, world, ?_, ?_⟩
  · rw [← calls, ← world]
    rfl
  · rw [← events, ← world]
    rfl

end Button

end ActionChain
