import ActionChain.Action.Run
import ActionChain.Bench.Stage
import Mathlib.Data.List.Forall2

/-!
Worlds that differ only in what an abort leaves behind when it has nothing to abort: the record of
abort calls that a scripted form keeps, and an entry in the slot that no pending sleep stands for.
The actions, and the listeners of a stage, do not tell such worlds apart: `Action.run_matches`,
`react_same`.
-/
namespace ActionChain

namespace Bench

def FormCall.isAbort : FormCall → Bool
  | .abort => true
  | _ => false

/-- The form without its record of aborts. -/
def BenchForm.unaborted : BenchForm → BenchForm
  | .scripted f => .scripted { f with calls := f.calls.filter (!·.isAbort) }
  | .routed f => .routed f

def Stage.unaborted (s : Stage) : Stage := { s with form := s.form.unaborted }

section Forms

variable {p q : Stage}

theorem unaborted_eq_iff : p.unaborted = q.unaborted ↔ p.form.unaborted = q.form.unaborted ∧
    p.logs = q.logs ∧ p.noted = q.noted ∧ p.marks = q.marks := by
  simp [Stage.unaborted]

theorem value?_unaborted (p : Stage) : Form.value? p.unaborted = Form.value? p := by
  obtain ⟨_ | _⟩ := p <;> rfl

theorem submit_unaborted (p : Stage) (extra : Option Json) :
    (Form.submit p.unaborted extra).2 = (Form.submit p extra).2 ∧
      (Form.submit p.unaborted extra).1.unaborted = (Form.submit p extra).1.unaborted := by
  obtain ⟨f | f⟩ := p
  · simp [Form.submit, Stage.unaborted, BenchForm.unaborted, ScriptedForm.submit,
      ScriptedForm.record]
  · exact ⟨rfl, rfl⟩

/-- A change of a page that pays no heed to the record of aborts. -/
def Heedless (f : Stage → Stage) : Prop := ∀ p, (f p.unaborted).unaborted = (f p).unaborted

theorem Heedless.same {f : Stage → Stage} (heedless : Heedless f)
    (same : p.unaborted = q.unaborted) : (f p).unaborted = (f q).unaborted := by
  rw [← heedless p, same, heedless q]

theorem reset_heedless : Heedless Form.reset := by
  rintro ⟨f | f⟩ <;> simp [Form.reset, Stage.unaborted, BenchForm.unaborted, ScriptedForm.record]

theorem clearErrors_heedless : Heedless Form.clearErrors := by
  rintro ⟨f | f⟩ <;>
    simp [Form.clearErrors, Stage.unaborted, BenchForm.unaborted, ScriptedForm.record]

theorem abort_unaborted (p : Stage) : (Form.abort p).unaborted = p.unaborted := by
  obtain ⟨f | f⟩ := p <;>
    simp [Form.abort, Stage.unaborted, BenchForm.unaborted, ScriptedForm.record, FormCall.isAbort]

end Forms

end Bench

namespace World

open Bench

variable {κ η : Type} {fixed : Fixed}

/-- The sleep that an abort would cancel. -/
def cancellable (w : World κ η fixed) : Option Ticket :=
  w.slot.filter fun t => w.pending.any (·.ticket = t)

/-- Two worlds that differ at most in what aborts with nothing to abort leave behind. -/
structure Alike (v w : World κ Stage fixed) : Prop where
  element : v.element = w.element
  page : v.page.unaborted = w.page.unaborted
  clock : v.clock = w.clock
  nextTicket : v.nextTicket = w.nextTicket
  pending : v.pending = w.pending
  woken : v.woken = w.woken
  cancellable : v.cancellable = w.cancellable
  dated : ∀ t, v.slot = some t ∨ w.slot = some t → t < v.nextTicket

/-- A change of the one world does to it what the other does to the other. -/
def Same (f g : World κ Stage fixed → World κ Stage fixed) : Prop :=
  ∀ v w, Alike v w → Alike (f v) (g w)

variable {v w : World κ Stage fixed}

theorem Alike.withElement (alike : Alike v w) (f : Element κ → Element κ) :
    Alike ({ v with element := f v.element } : World κ Stage fixed)
      { w with element := f w.element } :=
  ⟨congrArg f alike.element, alike.page, alike.clock, alike.nextTicket, alike.pending, alike.woken,
    alike.cancellable, alike.dated⟩

theorem Alike.withPage (alike : Alike v w) {p q : Stage} (same : p.unaborted = q.unaborted) :
    Alike ({ v with page := p } : World κ Stage fixed) { w with page := q } :=
  ⟨alike.element, same, alike.clock, alike.nextTicket, alike.pending, alike.woken,
    alike.cancellable, alike.dated⟩

theorem Alike.restore (alike : Alike v w) : Alike v.restore w.restore :=
  alike.withElement fun e => { e with classes := .ofText fixed.initialClass, disabled := false }

theorem Alike.dispatch {react react' : React κ Stage fixed}
    (same : ∀ k e, Same (react k e) (react' k e)) (alike : Alike v w) (e : Event) :
    Alike (v.dispatch react e).1 (w.dispatch react' e).1 ∧
      (v.dispatch react e).2 = (w.dispatch react' e).2 := by
  have called (callbacks : List κ) {v w : World κ Stage fixed} (alike : Alike v w) :
      Alike (callbacks.foldl (fun s k => react k e s) v)
        (callbacks.foldl (fun s k => react' k e s) w) := by
    induction callbacks generalizing v w with
    | nil => exact alike
    | cons k rest ih => exact ih (same k e v w alike)
  rw [World.dispatch, World.dispatch, alike.element]
  exact ⟨called _ alike, rfl⟩

theorem Alike.navigate {react react' : React κ Stage fixed}
    (same : ∀ k e, Same (react k e) (react' k e)) (alike : Alike v w) (url : String) :
    Alike (v.navigate react url) (w.navigate react' url) :=
  ((alike.withElement fun e => { e with location := url }).dispatch same (.navigate url)).1

section Waits

/-- An entry of the slot counts only while its wait is pending, so fewer waits are seen through. -/
theorem filter_cancellable {slot : Option Ticket} {pending left : List Wait}
    (keeps : Ticket → Bool) (fewer : ∀ p ∈ left, p ∈ pending) :
    ((slot.filter fun t => pending.any (·.ticket = t)).filter keeps).filter
        (fun t => left.any (·.ticket = t)) =
      (slot.filter keeps).filter fun t => left.any (·.ticket = t) := by
  cases slot with
  | none => rfl
  | some t =>
    by_cases there : pending.any (·.ticket = t) = true
    · rw [Option.filter_some, if_pos there]
    · have gone : ¬ left.any (·.ticket = t) = true := by
        intro found
        obtain ⟨p, mem, same⟩ := List.any_eq_true.mp found
        exact there (List.any_eq_true.mpr ⟨p, fewer p mem, same⟩)
      rw [Option.filter_some, if_neg there]
      cases h : keeps t <;> simp [Option.filter_some, h, gone]

section Less

variable (alike : Alike v w) {left left' : List Wait} {woken woken' : List (Ticket × Signal)}
  (fewer : ∀ p ∈ left, p ∈ v.pending) (same : left = left') (sameWoken : woken = woken')
include alike fewer same sameWoken

/-- Waits go, and with them perhaps the entry of the slot. -/
theorem Alike.lessWaits (keeps : Ticket → Bool) :
    Alike ({ v with pending := left, slot := v.slot.filter keeps, woken } : World κ Stage fixed)
      { w with pending := left', slot := w.slot.filter keeps, woken := woken' } := by
  subst same sameWoken
  -- The slots may differ; what fewer waits let through of them was let through before.
  refine ⟨alike.element, alike.page, alike.clock, alike.nextTicket, rfl, rfl, ?_, ?_⟩
  · have before := congrArg
      (fun slot => (slot.filter keeps).filter fun t => left.any (·.ticket = t)) alike.cancellable
    exact (filter_cancellable keeps fewer).symm.trans
      (before.trans (filter_cancellable keeps fun p mem => alike.pending ▸ fewer p mem))
  · rintro t (taken | taken)
    · exact alike.dated t (.inl (Option.filter_eq_some_iff.mp taken).1)
    · exact alike.dated t (.inr (Option.filter_eq_some_iff.mp taken).1)

theorem Alike.slotKept :
    Alike ({ v with pending := left, woken } : World κ Stage fixed)
      { w with pending := left', woken := woken' } := by
  have all (slot : Option Ticket) : slot.filter (fun _ => true) = slot := by
    cases slot <;> rfl
  have less := alike.lessWaits fewer same sameWoken fun _ => true
  rwa [all, all] at less

theorem Alike.slotEmptied :
    Alike ({ v with pending := left, slot := none, woken } : World κ Stage fixed)
      { w with pending := left', slot := none, woken := woken' } := by
  have none (slot : Option Ticket) : slot.filter (fun _ => false) = .none := by
    cases slot <;> rfl
  have less := alike.lessWaits fewer same sameWoken fun _ => false
  rwa [none, none] at less

end Less

theorem cancelSleep_cancels {t : Ticket} (held : v.cancellable = some t) :
    v.cancelSleep = ({ v with
      slot := none
      pending := v.pending.filter (·.ticket ≠ t)
      woken := v.woken ++ [(t, .cancelled)] }, true) := by
  obtain ⟨slot, there⟩ := Option.filter_eq_some_iff.mp held
  rw [cancelSleep, slot]
  exact if_pos there

theorem cancelSleep_nothing (free : v.cancellable = none) :
    v.cancelSleep = ({ v with slot := none }, false) := by
  rw [cancelSleep]
  cases slot : v.slot with
  | none => cases v; cases slot; rfl
  | some t =>
    refine if_neg fun there => ?_
    have held : v.cancellable = some t := Option.filter_eq_some_iff.mpr ⟨slot, there⟩
    rw [free] at held
    cases held

theorem Alike.cancelSleep (alike : Alike v w) :
    Alike v.cancelSleep.1 w.cancelSleep.1 ∧ v.cancelSleep.2 = w.cancelSleep.2 := by
  have held := alike.cancellable
  cases cancels : w.cancellable with
  | none =>
    rw [cancelSleep_nothing (held.trans cancels), cancelSleep_nothing cancels]
    exact ⟨alike.slotEmptied (fun p mem => mem) alike.pending alike.woken, rfl⟩
  | some t =>
    rw [cancelSleep_cancels (held.trans cancels), cancelSleep_cancels cancels]
    refine ⟨alike.slotEmptied (fun p mem => (List.mem_filter.mp mem).1) ?_ ?_, rfl⟩
    · rw [alike.pending]
    · rw [alike.woken]

theorem Alike.cancelSubmissions (alike : Alike v w) :
    Alike v.cancelSubmissions w.cancelSubmissions := by
  refine alike.slotKept (fun p mem => (List.mem_filter.mp mem).1) ?_ ?_
  · rw [alike.pending]
  · rw [alike.woken, alike.pending]

theorem Alike.abort (alike : Alike v w) : Alike v.abort w.abort := by
  refine Alike.cancelSubmissions (alike.cancelSleep.1.withPage ?_)
  rw [abort_unaborted, abort_unaborted]
  exact alike.cancelSleep.1.page

theorem abort_quiet (quiet : w.pending = []) :
    w.abort = { w with slot := none, page := Form.abort w.page } := by
  have free : w.cancellable = none := by simp [World.cancellable, quiet]
  rw [World.abort, cancelSleep_nothing free]
  simp [World.cancelSubmissions, quiet]

/-- An abort with nothing to abort leaves nothing behind that is seen. -/
theorem Alike.aborted (alike : Alike v w) (quiet : w.pending = []) : Alike v w.abort := by
  have free : w.cancellable = none := by simp [World.cancellable, quiet]
  rw [abort_quiet quiet]
  exact ⟨alike.element, alike.page.trans (abort_unaborted _).symm, alike.clock, alike.nextTicket,
    alike.pending, alike.woken, alike.cancellable.trans free,
    fun t taken => alike.dated t (.inl (taken.resolve_right nofun))⟩

theorem Alike.expire (alike : Alike v w) : Alike v.expire w.expire := by
  have slots : (fun t => !(w.pending.filter (isDue w.clock)).any (·.ticket = t)) =
      fun t => !(v.pending.filter (isDue v.clock)).any (·.ticket = t) := by
    rw [alike.pending, alike.clock]
  unfold World.expire
  dsimp only
  rw [slots]
  refine alike.lessWaits (fun p mem => (List.mem_filter.mp mem).1) ?_ ?_ _
  · rw [alike.pending, alike.clock]
  · rw [alike.woken, alike.pending, alike.clock]

theorem Alike.forget (alike : Alike v w) (ticket : Ticket) :
    Alike (v.forget ticket) (w.forget ticket) := by
  refine alike.slotKept (fun p mem => (List.mem_filter.mp mem).1) ?_ ?_
  · rw [alike.pending]
  · rw [alike.woken]

theorem cancellable_wait (dated : ∀ t, w.slot = some t → t < w.nextTicket) (kind : WaitKind)
    (milliseconds : Option Nat) : (w.wait kind milliseconds).cancellable = w.cancellable := by
  unfold World.cancellable World.wait
  cases slot : w.slot with
  | none => rfl
  | some t => simp [Option.filter_some, Nat.ne_of_gt (dated t slot)]

theorem Alike.wait (alike : Alike v w) (kind : WaitKind) (milliseconds : Option Nat) :
    Alike (v.wait kind milliseconds) (w.wait kind milliseconds) where
  element := alike.element
  page := alike.page
  clock := alike.clock
  nextTicket := congrArg (· + 1) alike.nextTicket
  pending := by simp only [World.wait, alike.pending, alike.nextTicket, alike.clock]
  woken := alike.woken
  cancellable := by
    have before (t : Ticket) (taken : w.slot = some t) : t < w.nextTicket :=
      alike.nextTicket ▸ alike.dated t (.inr taken)
    rw [cancellable_wait (fun t taken => alike.dated t (.inl taken)), cancellable_wait before,
      alike.cancellable]
  dated := fun t taken => Nat.lt_succ_of_lt (alike.dated t taken)

end Waits

section Steps

/-- Two ends of a run in worlds alike: both settle alike, or both wait and settle alike later. -/
inductive Progresses : World κ Stage fixed × Progress (World κ Stage fixed) →
    World κ Stage fixed × Progress (World κ Stage fixed) → Prop
  | settled {v w : World κ Stage fixed} (r : StepResult) :
      Alike v w → Progresses (v, .settled r) (w, .settled r)
  | waits {v w : World κ Stage fixed} (ticket : Ticket)
      {resume resume' : Signal → World κ Stage fixed → World κ Stage fixed × StepResult} :
      Alike v w →
      (∀ signal v w, Alike v w → Alike (resume signal v).1 (resume' signal w).1 ∧
        (resume signal v).2 = (resume' signal w).2) →
      Progresses (v, .waits ticket resume) (w, .waits ticket resume')

/-- The one step does in a world what the other does in a world like it. -/
def Matches (step step' : Step (World κ Stage fixed)) : Prop :=
  ∀ input v w, Alike v w → Progresses (step input v) (step' input w)

theorem Alike.sleep (alike : Alike v w) (pause : Micros) (value : Option Response) :
    Progresses (v.sleep pause value) (w.sleep pause value) := by
  unfold World.sleep
  split
  · have emptied := alike.slotEmptied (fun p mem => mem) alike.pending alike.woken
    exact .settled _ ⟨emptied.element, emptied.page, emptied.clock,
      congrArg (· + 1) alike.nextTicket, emptied.pending, emptied.woken, emptied.cancellable,
      fun t taken => by simp at taken⟩
  · have waited := alike.wait .sleep (some (milliseconds pause))
    rw [← alike.nextTicket]
    refine .waits _ ⟨waited.element, waited.page, waited.clock, waited.nextTicket, waited.pending,
      waited.woken, ?_, ?_⟩ fun signal v w alike => ⟨alike, rfl⟩
    · simp only [World.cancellable, waited.pending]
    · intro t taken
      have now : v.nextTicket = t := by simpa using taken
      exact now ▸ Nat.lt_succ_self v.nextTicket

theorem Alike.showDecorator (alike : Alike v w) (c : String) (pause : Micros)
    (value : Option Response) :
    Progresses (v.showDecorator c pause value) (w.showDecorator c pause value) := by
  have decorated : Alike (v.decorate c) (w.decorate c) :=
    alike.withElement fun e => { e with classes :=
      (fixed.settings.decorators.foldl (fun cs d => cs.remove d) e.classes).add c }
  unfold World.showDecorator
  dsimp only
  split
  · exact .settled _ decorated
  · exact decorated.sleep pause value

theorem Alike.value? (alike : Alike v w) : Form.value? v.page = Form.value? w.page := by
  rw [← value?_unaborted, alike.page, value?_unaborted]

theorem Alike.evaluate (alike : Alike v w) : v.evaluate = w.evaluate := by
  funext b
  rw [World.evaluate, World.evaluate, alike.value?]

theorem Alike.answeredLater (alike : Alike v w) (due : Option Nat) (answer : Answer) :
    Progresses
      (v.wait .submission due, .waits v.nextTicket fun signal w => (w, answered answer signal))
      (w.wait .submission due, .waits w.nextTicket fun signal w => (w, answered answer signal)) := by
  rw [← alike.nextTicket]
  exact .waits _ (alike.wait .submission due) fun signal v w alike => ⟨alike, rfl⟩

theorem Alike.submit (alike : Alike v w) (extra : Option Json) :
    Progresses (v.submit extra) (w.submit extra) := by
  have replied : (Form.submit v.page extra).2 = (Form.submit w.page extra).2 := by
    rw [← (submit_unaborted v.page extra).1, alike.page, (submit_unaborted w.page extra).1]
  have left : (Form.submit v.page extra).1.unaborted = (Form.submit w.page extra).1.unaborted := by
    rw [← (submit_unaborted v.page extra).2, alike.page, (submit_unaborted w.page extra).2]
  have sent := alike.withPage left
  unfold World.submit
  dsimp only
  rw [← replied]
  split
  · exact .settled _ sent
  · split
    · exact .settled _ sent
    · exact sent.answeredLater _ _
  · exact sent.answeredLater _ _

end Steps

end World

section Actions

open World Bench

variable {κ : Type} {fixed : Fixed} {react react' : React κ Stage fixed}

/-- An action does not tell worlds apart that are alike, if its listeners do not. -/
theorem Action.run_matches (same : ∀ k e, World.Same (react k e) (react' k e)) (a : Action) :
    Matches (a.run react) (a.run react') := by
  intro input v w alike
  cases a with
  | disable => exact .settled _ (alike.withElement fun e => { e with disabled := true })
  | enable => exact .settled _ (alike.withElement fun e => { e with disabled := false })
  | addClass c =>
    exact .settled _ (alike.withElement fun e => { e with classes := e.classes.add c })
  | removeClass c =>
    exact .settled _ (alike.withElement fun e => { e with classes := e.classes.remove c })
  | toggleClass c =>
    exact .settled _ (alike.withElement fun e => { e with classes := e.classes.toggle c })
  | submit data =>
    simp only [Action.run, alike.evaluate]
    exact alike.submit _
  | reset => exact .settled _ (alike.withPage (reset_heedless.same alike.page))
  | clearErrors => exact .settled _ (alike.withPage (clearErrors_heedless.same alike.page))
  | proceed fallback =>
    simp only [Action.run]
    cases destination? fallback input with
    | some url => exact .settled _ (alike.navigate same url)
    | none => exact .settled _ alike
  | reload =>
    simp only [Action.run, alike.element]
    exact .settled _ (alike.navigate same _)
  | emit type detail =>
    simp only [Action.run, alike.evaluate]
    exact .settled _ (alike.dispatch same _).1
  | activate args =>
    simp only [Action.run, alike.evaluate]
    exact .settled _ (alike.dispatch same _).1
  | delay pause => exact alike.sleep pause input
  | spinner =>
    exact .settled _ (alike.withElement fun e =>
      { e with classes := e.classes.add fixed.settings.spinnerClass })
  | okay pause | bummer pause => exact alike.showDecorator _ _ input
  | intercept | noop => exact .settled _ alike

end Actions

namespace Bench

open World

variable {fixed : Fixed} {v w : BenchWorld fixed}

theorem mapForm_alike (alike : World.Alike v w) {change : BenchForm → BenchForm}
    (heedless : ∀ f, (change f.unaborted).unaborted = (change f).unaborted) :
    World.Alike (mapForm change v) (mapForm change w) := by
  have same : Heedless fun p => { p with form := change p.form } :=
    fun p => congrArg (fun form => { p with form }) (heedless p.form)
  exact alike.withPage (same.same alike.page)

theorem mapScripted_heedless {change : ScriptedForm → ScriptedForm}
    (heedless : ∀ f : ScriptedForm, ∀ keep : FormCall → Bool,
      change { f with calls := f.calls.filter keep } =
        { change f with calls := (change f).calls.filter keep }) (f : BenchForm) :
    (f.unaborted.mapScripted change).unaborted = (f.mapScripted change).unaborted := by
  cases f with
  | scripted f =>
    simp only [BenchForm.unaborted, BenchForm.mapScripted, heedless]
    simp
  | routed f => rfl

theorem mapRouted_heedless (change : RoutedForm → RoutedForm) (f : BenchForm) :
    (f.unaborted.mapRouted change).unaborted = (f.mapRouted change).unaborted := by
  cases f with
  | scripted f => simp [BenchForm.unaborted, BenchForm.mapRouted]
  | routed f => rfl

theorem note_alike (alike : World.Alike v w) (e : Event) : World.Alike (note e v) (note e w) := by
  obtain ⟨form, logs, noted, marks⟩ := unaborted_eq_iff.mp alike.page
  refine alike.withPage (unaborted_eq_iff.mpr ⟨form, logs, ?_, marks⟩)
  rw [noted, alike.element]

theorem writeLog_alike (alike : World.Alike v w) (number : Nat) (e : Event) :
    World.Alike (writeLog number e v) (writeLog number e w) := by
  obtain ⟨form, logs, noted, marks⟩ := unaborted_eq_iff.mp alike.page
  refine alike.withPage (unaborted_eq_iff.mpr ⟨form, ?_, noted, marks⟩)
  rw [logs]

theorem mark_alike (alike : World.Alike v w) (m : Mark) : World.Alike (mark m v) (mark m w) := by
  obtain ⟨form, logs, noted, marks⟩ := unaborted_eq_iff.mp alike.page
  exact alike.withPage (unaborted_eq_iff.mpr ⟨form, logs, noted, congrArg (· ++ [m]) marks⟩)

theorem perform_alike {react react' : React Callback Stage fixed}
    (same : ∀ k e, World.Same (react k e) (react' k e)) (alike : World.Alike v w) (a : HostAct) :
    World.Alike (perform react a v).1 (perform react' a w).1 ∧
      (perform react a v).2 = (perform react' a w).2 := by
  cases a with
  | abort => exact ⟨alike.abort, rfl⟩
  | cancelSleep => exact ⟨alike.cancelSleep.1, congrArg Returned.flag alike.cancelSleep.2⟩
  | autoDisable valid =>
    refine ⟨?_, rfl⟩
    simp only [perform, autoDisable]
    split
    · exact alike.withElement fun e => { e with disabled := !valid }
    · exact alike
  | setClass text => exact ⟨alike.withElement fun e => { e with classes := .ofText text }, rfl⟩
  | addClass c => exact ⟨alike.withElement fun e => { e with classes := e.classes.add c }, rfl⟩
  | removeClass c => exact ⟨alike.withElement fun e => { e with classes := e.classes.remove c }, rfl⟩
  | setDisabled disabled => exact ⟨alike.withElement fun e => { e with disabled }, rfl⟩
  | navigate url => exact ⟨alike.navigate same url, rfl⟩
  | dispatch e =>
    exact ⟨(alike.dispatch same e).1, congrArg Returned.count (alike.dispatch same e).2⟩
  | listen type id acts =>
    exact ⟨alike.withElement fun e => { e with target := e.target.add type id (.acts acts) }, rfl⟩
  | unlisten type id =>
    refine ⟨alike.withElement fun e => { e with target := (e.target.remove type id).1 }, ?_⟩
    exact congrArg (fun e : Element Callback => Returned.flag (e.target.remove type id).2)
      alike.element
  | setData value =>
    exact ⟨mapForm_alike alike (mapScripted_heedless fun _ _ => rfl), rfl⟩
  | pushReply r =>
    exact ⟨mapForm_alike alike (mapScripted_heedless fun _ _ => rfl), rfl⟩
  | setField name value => exact ⟨mapForm_alike alike (mapRouted_heedless _), rfl⟩
  | setValid valid => exact ⟨mapForm_alike alike (mapRouted_heedless _), rfl⟩

/-- The listeners of a stage do not tell worlds apart that are alike. -/
theorem react_same (depth : Nat) (k : Callback) (e : Event) :
    World.Same (react depth k e : BenchWorld fixed → BenchWorld fixed) (react depth k e) := by
  intro v w alike
  induction depth generalizing k e v w with
  | zero =>
    cases k with
    | log number => exact writeLog_alike alike number e
    | note => exact note_alike alike e
    | acts all => exact alike
  | succ depth ih =>
    cases k with
    | log number => exact writeLog_alike alike number e
    | note => exact note_alike alike e
    | acts all =>
      simp only [react]
      induction all generalizing v w with
      | nil => exact alike
      | cons a rest ih' => exact ih' _ _ (perform_alike (fun k e v w => ih k e v w) alike a).1

theorem label_matches (text : String) (ending : String → Option Response → StepResult) :
    Matches
      (fun input (w : BenchWorld fixed) => (mark (.label text) w, .settled (ending text input)))
      fun input w => (mark (.label text) w, .settled (ending text input)) :=
  fun _ _ _ alike => .settled _ (mark_alike alike _)

theorem look_matches : Matches (lookStep : Step (BenchWorld fixed)) lookStep := by
  intro input v w alike
  unfold lookStep
  rw [alike.element]
  exact .settled _ (mark_alike alike _)

end Bench

end ActionChain
