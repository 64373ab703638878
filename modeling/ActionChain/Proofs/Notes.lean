import ActionChain.Action.Run
import ActionChain.Proofs.Fates

/-!
What activations note down. Callbacks are given by what they do: they abort, or they change what has
nothing to do with waits. Then the notes of a step, of a chain and of an activation can be read off.
Main statement `runChain_ran`: the notes account for the waits, and a run of a chain passes no more
than aborts and sleeps of no length before it ends, or before it is put aside for the one wait that
it notes last.
-/
namespace ActionChain

variable {κ η : Type} {fixed : Fixed}

/-- Something that is done by a callback, or from outside. -/
inductive Deed (κ η : Type) (fixed : Fixed)
  | abort
  | change (f : World κ η fixed → World κ η fixed) (leaves : ∀ w, (f w).waits = w.waits)

abbrev Script (κ η : Type) (fixed : Fixed) := κ → Event → World κ η fixed → List (Deed κ η fixed)

namespace Deed

def act [Form η] : Deed κ η fixed → World κ η fixed → World κ η fixed
  | .abort, w => w.abort
  | .change f _, w => f w

def actAll [Form η] (deeds : List (Deed κ η fixed)) (w : World κ η fixed) : World κ η fixed :=
  deeds.foldl (fun w d => d.act w) w

def notes : Deed κ η fixed → List Note
  | .abort => [.aborts]
  | .change .. => []

theorem notes_eq (d : Deed κ η fixed) : ∀ x ∈ d.notes, x = .aborts := by
  cases d <;> simp [notes]

variable [Form η]

theorem act_noted (d : Deed κ η fixed) (w : World κ η fixed) :
    (w.undergoAll d.notes).waits = (d.act w).waits := by
  cases d with
  | abort => rfl
  | change f leaves => exact (leaves w).symm

theorem actAll_noted (deeds : List (Deed κ η fixed)) (w : World κ η fixed) :
    (w.undergoAll (deeds.flatMap notes)).waits = (actAll deeds w).waits := by
  induction deeds generalizing w with
  | nil => rfl
  | cons d rest ih =>
    rw [List.flatMap_cons, World.undergoAll_append]
    exact (World.undergoAll_congr (d.act_noted w) _).trans (ih (d.act w))

end Deed

namespace Script

variable [Form η] (script : Script κ η fixed)

def react : React κ η fixed := fun k e w => Deed.actAll (script k e w) w

/-- What is noted while callbacks are called, one after the other. -/
def heard (e : Event) : List κ → World κ η fixed → List Note
  | [], _ => []
  | k :: rest, w => (script k e w).flatMap Deed.notes ++ heard e rest (script.react k e w)

def dispatched (e : Event) (w : World κ η fixed) : List Note :=
  script.heard e (w.element.target.callbacks e.type) w

def navigated (url : String) (w : World κ η fixed) : List Note :=
  script.dispatched (.navigate url) { w with element := { w.element with location := url } }

theorem heard_eq (e : Event) (callbacks : List κ) (w : World κ η fixed) :
    ∀ x ∈ script.heard e callbacks w, x = .aborts := by
  induction callbacks generalizing w with
  | nil => simp [heard]
  | cons k rest ih =>
    intro x member
    rcases List.mem_append.mp member with now | later
    · obtain ⟨d, -, noted⟩ := List.mem_flatMap.mp now
      exact d.notes_eq x noted
    · exact ih _ x later

theorem heard_noted (e : Event) (callbacks : List κ) (w : World κ η fixed) :
    (w.undergoAll (script.heard e callbacks w)).waits =
      (callbacks.foldl (fun w k => script.react k e w) w).waits := by
  induction callbacks generalizing w with
  | nil => rfl
  | cons k rest ih =>
    rw [heard, World.undergoAll_append]
    exact (World.undergoAll_congr (Deed.actAll_noted _ w) _).trans (ih _)

theorem dispatched_noted (e : Event) (w : World κ η fixed) :
    (w.undergoAll (script.dispatched e w)).waits = (w.dispatch script.react e).1.waits :=
  script.heard_noted e _ w

theorem navigated_noted (url : String) (w : World κ η fixed) :
    (w.undergoAll (script.navigated url w)).waits = (w.navigate script.react url).waits := by
  let there : World κ η fixed := { w with element := { w.element with location := url } }
  have same : w.waits = there.waits := rfl
  exact (World.undergoAll_congr same _).trans (script.dispatched_noted (.navigate url) there)

end Script

/-- A note that leaves all waits to those who wait. -/
def Note.quiet : Note → Bool
  | .aborts | .passes _ => true
  | .sleeps _ pause => pause = 0
  | _ => false

theorem World.undergoAll_tickets [Form η] {notes : List Note} (quiet : ∀ x ∈ notes, x.quiet = true)
    {w : World κ η fixed} (tidy : w.Tidy) : (w.undergoAll notes).tickets.Perm w.tickets := by
  induction notes generalizing w with
  | nil => exact .refl _
  | cons x rest ih =>
    obtain ⟨now, later⟩ := List.forall_mem_cons.mp quiet
    have held := undergo_tickets tidy x
    have same : x.held w.nextTicket w.tickets = w.tickets := by
      cases x <;> simp_all [Note.quiet, Note.held]
    rw [same] at held
    exact (ih later (tidy.undergo x)).trans held

def Reply.answer? : Reply → Option Answer
  | .now answer | .later _ answer => some answer
  | .never => none

/-- The form does not say of itself that a submission was aborted. -/
def Forthright (η : Type) [Form η] : Prop :=
  ∀ (page : η) (data : Option Json) (answer : Answer),
    (Form.submit page data).2.answer? = some answer → answer ≠ .error .aborted

theorem World.concluded_not_aborted {answer : Answer} (other : answer ≠ .error .aborted) :
    concluded answer ≠ .error .aborted := by
  rcases answer with f | r | r
  · cases f <;> simp_all [concluded, Fault.failure]
  · simp [concluded]
  · rw [concluded]
    split <;> simp

section Steps

variable [Form η]

/-- The note starts a wait of an activation, and the activation goes on like this after it. -/
inductive Starts (number : Nat) :
    Note → (Signal → World κ η fixed → World κ η fixed × StepResult) → Prop
  | sleep {pause : Micros} (value : Option Response) : pause ≠ 0 →
    Starts number (.sleeps number pause) fun signal w => (w, World.afterSleep value signal)
  | submission {due : Option Nat} {answer : Answer} :
    (due = none ∨
      ∃ (page : η) (data : Option Json), (Form.submit page data).2.answer? = some answer) →
    Starts number (.submits number due) fun signal w => (w, World.answered answer signal)

theorem Starts.issues {number : Nat} {x : Note}
    {resume : Signal → World κ η fixed → World κ η fixed × StepResult}
    (starts : Starts number x resume) : x.issues = true := by
  cases starts <;> rfl

theorem Starts.held {number : Nat} {x : Note}
    {resume : Signal → World κ η fixed → World κ η fixed × StepResult}
    (starts : Starts number x resume) (next : Ticket) (tickets : List Ticket) :
    x.held next tickets = next :: tickets := by
  cases starts with
  | sleep value some => exact if_neg some
  | submission given => rfl

theorem Starts.resumes {number : Nat} {x : Note}
    {resume : Signal → World κ η fixed → World κ η fixed × StepResult}
    (starts : Starts number x resume) (signal : Signal) (w : World κ η fixed) :
    ∃ r, resume signal w = (w, r) := by
  cases starts <;> exact ⟨_, rfl⟩

/-- The notes account for what a step has done to the waits. -/
inductive Noted (number : Nat) (w : World κ η fixed) :
    List Note → World κ η fixed × Progress (World κ η fixed) → Prop
  | settled {notes : List Note} {v : World κ η fixed} (r : StepResult) :
    (w.undergoAll notes).waits = v.waits → (∀ x ∈ notes, x.quiet = true) →
    Noted number w notes (v, .settled r)
  | waits {x : Note} {v : World κ η fixed}
      {resume : Signal → World κ η fixed → World κ η fixed × StepResult} :
    (w.undergo x).waits = v.waits → Starts number x resume →
    Noted number w [x] (v, .waits w.nextTicket resume)

variable {number : Nat} {v w : World κ η fixed}

theorem Noted.congr {notes : List Note} {r : World κ η fixed × Progress (World κ η fixed)}
    (noted : Noted number v notes r) (same : v.waits = w.waits) : Noted number w notes r := by
  cases noted with
  | settled r accounted quiet =>
    exact .settled r ((World.undergoAll_congr same notes).symm.trans accounted) quiet
  | waits accounted starts =>
    obtain ⟨-, next, -⟩ := World.waits_eq_iff.mp same
    rw [next]
    exact .waits ((World.undergo_congr same _).symm.trans accounted) starts

theorem Noted.unnoticed (r : StepResult) (same : w.waits = v.waits) :
    Noted number w [] (v, .settled r) := .settled r same (by simp)

theorem noted_sleep (pause : Micros) (value : Option Response) (w : World κ η fixed) :
    Noted number w [.sleeps number pause] (w.sleep pause value) := by
  rw [World.sleep]
  split
  · rename_i zero
    refine .settled _ ?_ (by simp [Note.quiet, zero])
    simp [World.undergoAll, World.undergo, World.sleep, zero]
  · rename_i some
    refine .waits ?_ (.sleep value some)
    simp [World.undergo, World.sleep, some]

theorem noted_heard (script : Script κ η fixed) {e : Event} {callbacks : List κ}
    {u : World κ η fixed} (r : StepResult)
    (accounted : (w.undergoAll (script.heard e callbacks u)).waits = v.waits) :
    Noted number w (script.heard e callbacks u) (v, .settled r) := by
  refine .settled r accounted fun x member => ?_
  rw [script.heard_eq e callbacks u x member]
  rfl

end Steps

namespace World

variable [Form η]

/-- What showing a decorator notes. -/
def shown (number : Nat) (pause : Micros) : List Note :=
  if pause = 0 then [] else [.sleeps number pause]

theorem noted_showDecorator (number : Nat) (c : String) (pause : Micros) (value : Option Response)
    (w : World κ η fixed) :
    Noted number w (shown number pause) (w.showDecorator c pause value) := by
  rw [showDecorator, shown]
  split
  · exact .unnoticed _ rfl
  · exact (noted_sleep pause value (w.decorate c)).congr rfl

/-- What a submission notes, by the reply it gets. -/
def submitted (number : Nat) : Reply → List Note
  | .now _ => []
  | .later ms _ => if ms = 0 then [] else [.submits number (some ms)]
  | .never => [.submits number none]

theorem noted_submit (number : Nat) (data : Option Json) (w : World κ η fixed) :
    Noted number w (submitted number (Form.submit w.page data).2) (w.submit data) := by
  have given (answer : Answer) (reply : (Form.submit w.page data).2.answer? = some answer) :
      ∃ (page : η) (data : Option Json), (Form.submit page data).2.answer? = some answer :=
    ⟨w.page, data, reply⟩
  rcases replied : Form.submit w.page data with ⟨page, answer | ⟨ms, answer⟩ | _⟩ <;>
    simp only [submit, replied, submitted] at given ⊢
  case now => exact .unnoticed _ rfl
  case later =>
    split
    · exact .unnoticed _ rfl
    · exact .waits rfl (.submission (.inr (given answer rfl)))
  case never => exact .waits rfl (.submission (.inl rfl))

theorem submit_not_aborted (frank : Forthright η) {data : Option Json} {v w : World κ η fixed}
    {r : StepResult} (did : w.submit data = (v, .settled r)) : r ≠ .error .aborted := by
  have honest := frank w.page data
  rcases replied : Form.submit w.page data with ⟨page, answer | ⟨ms, answer⟩ | _⟩ <;>
    simp only [submit, replied] at did honest
  case now =>
    cases did
    exact concluded_not_aborted (honest answer rfl)
  case later =>
    split at did
    · cases did
      exact concluded_not_aborted (honest answer rfl)
    · cases did
  case never => cases did

end World

/-- A step of a chain as it is written: an action, or anything else that settles at once. -/
inductive Item (κ η : Type) (fixed : Fixed)
  | action (a : Action)
  | other (does : Option Response → World κ η fixed → List (Deed κ η fixed))
    (result : Option Response → World κ η fixed → StepResult)

/-- The chains of a button as they are written. -/
abbrev Plan (κ η : Type) (fixed : Fixed) := Chains (Item κ η fixed)

section Items

variable [Form η] (script : Script κ η fixed)

def Action.notes (number : Nat) (a : Action) (input : Option Response) (w : World κ η fixed) :
    List Note :=
  match a with
  | .submit data => World.submitted number (Form.submit w.page (data.map w.evaluate)).2
  | .proceed fallback => match destination? fallback input with
    | some url => script.navigated url w
    | none => []
  | .reload => script.navigated w.element.location w
  | .emit type detail => script.dispatched ⟨type, (detail.map w.evaluate).getD .null⟩ w
  | .activate args => script.dispatched ⟨activateType, .array (args.map w.evaluate)⟩ w
  | .delay pause => [.sleeps number pause]
  | .okay pause =>
    World.shown number (pause.getD (fixed.settings.okayDelay.toNat * 1000))
  | .bummer pause =>
    World.shown number (pause.getD (fixed.settings.bummerDelay.toNat * 1000))
  | .disable | .enable | .addClass _ | .removeClass _ | .toggleClass _ | .reset | .clearErrors
  | .spinner | .intercept | .noop => []

theorem Action.run_noted (number : Nat) (a : Action) (input : Option Response)
    (w : World κ η fixed) :
    Noted number w (a.notes script number input w) (a.run script.react input w) := by
  cases a with
  | submit data => exact World.noted_submit number _ w
  | proceed fallback =>
    simp only [notes, run]
    cases destination? fallback input with
    | some url => exact noted_heard script _ (script.navigated_noted url w)
    | none => exact .unnoticed _ rfl
  | reload => exact noted_heard script _ (script.navigated_noted _ w)
  | emit | activate => exact noted_heard script _ (script.dispatched_noted _ w)
  | delay pause => exact noted_sleep pause input w
  | okay pause | bummer pause => exact World.noted_showDecorator number _ _ input w
  | disable | enable | addClass | removeClass | toggleClass | reset | clearErrors | spinner
  | intercept | noop => exact .unnoticed _ rfl

omit [Form η] in
theorem World.sleep_not_aborted {pause : Micros} {value : Option Response} {v w : World κ η fixed}
    {r : StepResult} (did : w.sleep pause value = (v, .settled r)) : r ≠ .error .aborted := by
  rw [World.sleep] at did
  split at did
  · cases did
    simp
  · cases did

theorem Action.run_not_aborted (frank : Forthright η) {react : React κ η fixed} {a : Action}
    {input : Option Response} {v w : World κ η fixed} {r : StepResult}
    (did : a.run react input w = (v, .settled r)) : r ≠ .error .aborted := by
  cases a with
  | submit data => exact World.submit_not_aborted frank did
  | proceed fallback =>
    simp only [run] at did
    split at did <;> cases did <;> simp
  | delay pause => exact World.sleep_not_aborted did
  | okay pause | bummer pause =>
    simp only [run, World.showDecorator] at did
    split at did
    · cases did
      simp
    · exact World.sleep_not_aborted did
  | _ =>
    cases did
    simp

namespace Item

def run : Item κ η fixed → Step (World κ η fixed)
  | .action a => a.run script.react
  | .other does result => fun input w => (Deed.actAll (does input w) w, .settled (result input w))

def notes (number : Nat) : Item κ η fixed → Option Response → World κ η fixed → List Note
  | .action a, input, w => a.notes script number input w
  | .other does _, input, w => (does input w).flatMap Deed.notes

theorem run_noted (number : Nat) (x : Item κ η fixed) (input : Option Response)
    (w : World κ η fixed) :
    Noted number w (x.notes script number input w) (x.run script input w) := by
  cases x with
  | action a => exact a.run_noted script number input w
  | other does result =>
    refine .settled _ (Deed.actAll_noted _ w) fun y member => ?_
    obtain ⟨d, -, noted⟩ := List.mem_flatMap.mp member
    rw [d.notes_eq y noted]
    rfl

end Item

namespace Plan

variable (plan : Plan κ η fixed)

omit [Form η] in
def items : Phase → List (Item κ η fixed)
  | .success => plan.success.map (·.step)
  | .reject => plan.reject.map (·.step)

def steps (phase : Phase) : List (Step (World κ η fixed)) := (plan.items phase).map (·.run script)

def chains : Chains (Step (World κ η fixed)) :=
  let made (r : Resolved (Item κ η fixed)) : Resolved (Step (World κ η fixed)) :=
    ⟨r.call, r.arguments, r.step.run script⟩
  ⟨plan.success.map made, plan.reject.map made⟩

/-- What a run of a chain notes, up to its end or to the wait it is put aside for. -/
def ran (number : Nat) (onReject : Rejection → World κ η fixed → List Note) :
    List (Item κ η fixed) → Option Response → World κ η fixed → List Note
  | [], _, _ => []
  | x :: rest, value, w =>
    x.notes script number value w ++ match x.run script value w with
      | (_, .waits ..) => []
      | (w, .settled (.ok value)) => ran number onReject rest value w
      | (_, .settled (.error .aborted)) => []
      | (w, .settled (.error (.rejected why))) => onReject why w

def rejected (number : Nat) : Phase → Rejection → World κ η fixed → List Note
  | .success, why, w => ran script number (fun _ _ => []) (plan.items .reject) why.input w
  | .reject, _, _ => []

def started (number : Nat) (w : World κ η fixed) : List Note :=
  ran script number (plan.rejected script number .success) (plan.items .success) none w

omit [Form η] in
/-- The steps after the one that an activation waits in. -/
def remaining (p : Paused (World κ η fixed)) : List (Item κ η fixed) :=
  (plan.items p.phase).drop ((plan.items p.phase).length - p.rest.length)

def resumed (number : Nat) (p : Paused (World κ η fixed)) (signal : Signal) (w : World κ η fixed) :
    List Note :=
  match p.resume signal w with
  | (w, .ok value) =>
    ran script number (plan.rejected script number p.phase) (plan.remaining p) value w
  | (_, .error .aborted) => []
  | (w, .error (.rejected why)) => plan.rejected script number p.phase why w

/-- Every step is an action, and the form is forthright. -/
structure Plain : Prop where
  actions : ∀ phase, ∀ x ∈ plan.items phase, ∃ a, x = .action a
  forthright : Forthright η

end Plan

/-- The notes account for what a run of an activation has done to the waits. -/
inductive Ran (plan : Plan κ η fixed) (number : Nat) (w : World κ η fixed) :
    List Note → World κ η fixed × Status (World κ η fixed) → Prop
  | ended {notes : List Note} {v : World κ η fixed} {o : Outcome} :
    (w.undergoAll notes).waits = v.waits → (∀ x ∈ notes, x.quiet = true) →
    (plan.Plain → o ≠ .aborted) → Ran plan number w notes (v, .ended o)
  | paused {notes : List Note} {x : Note} {v : World κ η fixed} {p : Paused (World κ η fixed)} :
    (w.undergoAll (notes ++ [x])).waits = v.waits → (∀ x ∈ notes, x.quiet = true) →
    Starts number x p.resume → p.ticket = (w.undergoAll notes).nextTicket →
    p.rest <:+ plan.steps script p.phase → Ran plan number w (notes ++ [x]) (v, .paused p)

section Runs

variable {script} {plan : Plan κ η fixed} {number : Nat}

theorem Ran.after {before notes : List Note} {v w : World κ η fixed}
    {r : World κ η fixed × Status (World κ η fixed)} (ran : Ran script plan number v notes r)
    (accounted : (w.undergoAll before).waits = v.waits) (quiet : ∀ x ∈ before, x.quiet = true) :
    Ran script plan number w (before ++ notes) r := by
  have through (notes : List Note) :
      (w.undergoAll (before ++ notes)).waits = (v.undergoAll notes).waits := by
    rw [World.undergoAll_append]
    exact World.undergoAll_congr accounted notes
  have together {more : List Note} (also : ∀ x ∈ more, x.quiet = true) :
      ∀ x ∈ before ++ more, x.quiet = true := by
    intro x member
    rcases List.mem_append.mp member with earlier | later
    · exact quiet x earlier
    · exact also x later
  cases ran with
  | ended done also other => exact .ended ((through _).trans done) (together also) other
  | @paused notes x u p done also starts issued suffix =>
    rw [← List.append_assoc]
    refine .paused ?_ (together also) starts ?_ suffix
    · rw [List.append_assoc]
      exact (through _).trans done
    · obtain ⟨-, next, -⟩ := World.waits_eq_iff.mp (through notes)
      exact issued.trans next.symm

theorem Ran.waits {x : Note} {v w : World κ η fixed} {p : Paused (World κ η fixed)}
    (accounted : (w.undergo x).waits = v.waits) (starts : Starts number x p.resume)
    (issued : p.ticket = w.nextTicket) (suffix : p.rest <:+ plan.steps script p.phase) :
    Ran script plan number w [x] (v, .paused p) := by
  rw [← List.nil_append [x]]
  exact .paused accounted (List.forall_mem_nil _) starts issued suffix

/-- By induction on the steps that are left. A step that settles hands on to the rest or to what is
done about a rejection; a step that waits is the last. -/
theorem runChain_ran {phase : Phase}
    {onReject : Rejection → World κ η fixed → World κ η fixed × Status (World κ η fixed)}
    {rejectNotes : Rejection → World κ η fixed → List Note}
    (rejects : ∀ why v, Ran script plan number v (rejectNotes why v) (onReject why v))
    (items : List (Item κ η fixed)) (part : items <:+ plan.items phase) (value : Option Response)
    (w : World κ η fixed) :
    Ran script plan number w (Plan.ran script number rejectNotes items value w)
      (Activation.runChain phase onReject (items.map (·.run script)) value w) := by
  induction items generalizing value w with
  | nil =>
    refine .ended rfl (by simp [Plan.ran]) fun _ => ?_
    cases phase <;> simp [Phase.completed]
  | cons x rest ih =>
    have later : rest <:+ plan.items phase := (List.suffix_cons x rest).trans part
    have noted := x.run_noted script number value w
    simp only [Plan.ran, List.map_cons, Activation.runChain]
    generalize did : x.run script value w = result at noted ⊢
    generalize x.notes script number value w = notes at noted ⊢
    cases noted with
    | settled r accounted quiet =>
      rcases r with (why | _) | value
      · exact (rejects why _).after accounted quiet
      · refine .ended ?_ ?_ fun plain => ?_
        · simpa using accounted
        · simpa using quiet
        · obtain ⟨a, rfl⟩ := plain.actions phase x (part.subset (List.mem_cons_self ..))
          exact absurd rfl (Action.run_not_aborted plain.forthright did)
      · exact (ih later value _).after accounted quiet
    | waits accounted starts =>
      rw [List.append_nil]
      have suffix : rest.map (·.run script) <:+ plan.steps script phase := later.map _
      exact .waits accounted starts rfl suffix

theorem rejected_ran (phase : Phase) (why : Rejection) (w : World κ η fixed) :
    Ran script plan number w (plan.rejected script number phase why w)
      (Activation.rejected (plan.steps script .reject) phase why w) := by
  have final (why : Rejection) (v : World κ η fixed) :
      Ran script plan number v [] (v, .ended (.rejected why)) :=
    .ended rfl (by simp) fun _ => Outcome.noConfusion
  cases phase with
  | reject => exact final why w
  | success =>
    rw [Activation.rejected, Plan.rejected]
    split
    · rename_i empty
      have none_left : plan.items .reject = [] := by simpa [Plan.steps] using empty
      rw [none_left]
      exact final why w
    · exact runChain_ran final (plan.items .reject) List.suffix_rfl why.input w

theorem started_ran (w : World κ η fixed) :
    Ran script plan number w (plan.started script number w)
      (Activation.start (plan.steps script .success) (plan.steps script .reject) w) :=
  runChain_ran (rejected_ran .success) (plan.items .success) List.suffix_rfl none w

variable {p : Paused (World κ η fixed)} {signal : Signal} {w : World κ η fixed}

theorem remaining_eq (suffix : p.rest <:+ plan.steps script p.phase) :
    (plan.remaining p).map (·.run script) = p.rest := by
  have kept := List.suffix_iff_eq_drop.mp suffix
  rw [Plan.steps, List.length_map] at kept
  rw [Plan.remaining, List.map_drop]
  exact kept.symm

/-- An activation goes on after its wait, unless that was cancelled. -/
theorem resumed_ran (suffix : p.rest <:+ plan.steps script p.phase) {r : StepResult}
    (did : p.resume signal w = (w, r)) (other : r ≠ .error .aborted) :
    Ran script plan number w (plan.resumed script number p signal w)
      (Activation.resume (plan.steps script .reject) p signal w) := by
  rw [Plan.resumed, Activation.resume, did]
  rcases r with (why | _) | value
  · exact rejected_ran p.phase why w
  · exact absurd rfl other
  · have ran : Ran script plan number w _ _ :=
      runChain_ran (rejected_ran p.phase) (plan.remaining p) (List.drop_suffix ..) value w
    rw [remaining_eq suffix] at ran
    exact ran

theorem resumed_aborted (did : p.resume signal w = (w, .error .aborted)) (reject : List (Step _)) :
    plan.resumed script number p signal w = [] ∧
      Activation.resume reject p signal w = (w, .ended .aborted) := by
  rw [Plan.resumed, Activation.resume, did]
  exact ⟨rfl, rfl⟩

end Runs

end Items

end ActionChain
