import ActionChain.Proofs.Handing
import ActionChain.Proofs.Invariants

/-!
Who touches the element of a button: a step when it starts, an activation when it ends, and whoever
else acts on the world. Main statement `touches_linked`: each touch finds the element as the one
before has left it, so that nothing else changes it. Time, aborts and the ends of waits do not.
-/
namespace ActionChain

section Linked

variable {τ υ α β : Type} {before after : τ → α} {a b c : α} {xs ys : List τ}

/-- Each of these finds what the one before it has left. -/
inductive Linked (before after : τ → α) : α → List τ → α → Prop
  | nil (a : α) : Linked before after a [] a
  | cons (x : τ) {rest : List τ} {last : α} :
    Linked before after (after x) rest last → Linked before after (before x) (x :: rest) last

namespace Linked

theorem single (x : τ) : Linked before after (before x) [x] (after x) := .cons x (.nil _)

theorem append (first : Linked before after a xs b) (second : Linked before after b ys c) :
    Linked before after a (xs ++ ys) c := by
  induction first with
  | nil => exact second
  | cons x _ ih => exact .cons x (ih second)

theorem split (linked : Linked before after a (xs ++ ys) c) :
    ∃ b, Linked before after a xs b ∧ Linked before after b ys c := by
  induction xs generalizing a with
  | nil => exact ⟨a, .nil a, linked⟩
  | cons x xs ih =>
    cases linked with
    | cons _ linked =>
      obtain ⟨b, first, second⟩ := ih linked
      exact ⟨b, .cons x first, second⟩

/-- What is left and found may be looked at in part. -/
theorem map {before' after' : υ → β} (f : τ → υ) (g : α → β)
    (befores : ∀ x, before' (f x) = g (before x)) (afters : ∀ x, after' (f x) = g (after x))
    (linked : Linked before after a xs c) : Linked before' after' (g a) (xs.map f) (g c) := by
  induction linked with
  | nil a => exact .nil (g a)
  | cons x _ ih => exact befores x ▸ .cons (f x) (afters x ▸ ih)

end Linked

end Linked

section Activations

variable {σ : Type}

/-- The state that is left where this is entered. -/
def Entry.left : Entry σ → σ
  | .starts _ step input before => (step input before).1
  | .settles _ after => after

/-- Once it has waited, the step does nothing more. -/
def Step.Patient (step : Step σ) : Prop :=
  ∀ input s ticket resume, (step input s).2 = .waits ticket resume →
    ∀ signal t, (resume signal t).1 = t

structure Paused.Patient (p : Paused σ) : Prop where
  resumes : ∀ signal s, (p.resume signal s).1 = s
  rest : ∀ step ∈ p.rest, Step.Patient step

/-- A part of an activation: with what is entered in it, it leads from one state to another. -/
structure Seamless (s : σ) (entries : List (Entry σ)) (r : σ × Status σ) : Prop where
  linked : Linked Entry.state Entry.left s entries r.1
  paused : ∀ p, r.2 = .paused p → p.Patient

theorem Seamless.ended (s : σ) (o : Outcome) : Seamless s [] (s, .ended o) := ⟨.nil s, nofun⟩

theorem Seamless.cons {x : Entry σ} {entries : List (Entry σ)} {r : σ × Status σ}
    (seamless : Seamless x.left entries r) : Seamless x.state (x :: entries) r :=
  ⟨.cons x seamless.linked, seamless.paused⟩

namespace Activation

variable {steps reject : List (Step σ)}

theorem chain_seamless (phase : Phase) {onReject : Rejection → σ → σ × Status σ}
    {onEntries : Rejection → σ → List (Entry σ)}
    (rejects : ∀ why s, Seamless s (onEntries why s) (onReject why s))
    (patient : ∀ step ∈ steps, Step.Patient step) (value : Option Response) (s : σ) :
    Seamless s (chainEntries phase onEntries steps value s)
      (runChain phase onReject steps value s) := by
  induction steps generalizing value s with
  | nil => exact .ended s _
  | cons step rest ih =>
    obtain ⟨now, later⟩ := List.forall_mem_cons.mp patient
    have resumes := now value s
    have starts {entries : List (Entry σ)} {r : σ × Status σ} :
        Seamless (step value s).1 entries r →
          Seamless s (.starts phase step value s :: entries) r :=
      Seamless.cons (x := .starts phase step value s)
    rw [chainEntries, runChain]
    rcases did : step value s with ⟨t, r | ⟨ticket, resume⟩⟩ <;> rw [did] at starts resumes
    · have settles {entries : List (Entry σ)} {r' : σ × Status σ} :
          Seamless t entries r' → Seamless t (.settles r t :: entries) r' :=
        Seamless.cons (x := .settles r t)
      rcases r with (why | _) | value
      · exact starts (settles (rejects why t))
      · exact starts (settles (.ended t _))
      · exact starts (settles (ih later value t))
    · refine starts ⟨.nil t, fun p same => ?_⟩
      cases same
      exact ⟨resumes ticket resume rfl, later⟩

variable (patient : ∀ step ∈ reject, Step.Patient step)
include patient

theorem rejected_seamless (phase : Phase) (why : Rejection) (s : σ) :
    Seamless s (rejectedEntries reject phase why s) (rejected reject phase why s) := by
  cases phase with
  | reject => exact .ended s _
  | success =>
    rw [rejected]
    split
    · rename_i none
      rw [List.isEmpty_iff.mp none]
      exact .ended s _
    · exact chain_seamless .reject (fun why s => .ended s _) patient why.input s

theorem start_seamless (patient' : ∀ step ∈ steps, Step.Patient step) (s : σ) :
    Seamless s (startEntries steps reject s) (start steps reject s) :=
  chain_seamless .success (rejected_seamless patient .success) patient' none s

theorem resume_seamless {p : Paused σ} (paused : p.Patient) (signal : Signal) (s : σ) :
    Seamless s (resumeEntries reject p signal s) (resume reject p signal s) := by
  have left := paused.resumes signal s
  rcases did : p.resume signal s with ⟨t, r⟩
  rw [did] at left
  subst left
  rw [resume_eq reject p signal did, resumeEntries_eq reject p signal did]
  refine Seamless.cons (x := .settles r t) ?_
  rcases r with (why | _) | value
  · exact rejected_seamless patient p.phase why t
  · exact .ended t _
  · exact chain_seamless p.phase (rejected_seamless patient p.phase) paused.rest value t

end Activation

end Activations

variable {κ η : Type} {fixed : Fixed}

/-- What may change the element, with the world in which it comes. -/
inductive Touch (κ η : Type) (fixed : Fixed)
  /-- What is entered for an activation; a step that settles touches nothing. -/
  | step (number : Nat) (x : Entry (World κ η fixed))
  | ends (number : Nat) (w : World κ η fixed)
  | outside (f : World κ η fixed → World κ η fixed) (w : World κ η fixed)

namespace Touch

def before : Touch κ η fixed → World κ η fixed
  | .step _ x => x.state
  | .ends _ w | .outside _ w => w

def after : Touch κ η fixed → World κ η fixed
  | .step _ x => x.left
  | .ends _ w => w.restore
  | .outside f w => f w

/-- The touches of some part of an activation: its steps, and its end if it has come to that. -/
def ofActivation (number : Nat) (entries : List (Entry (World κ η fixed))) :
    World κ η fixed × Status (World κ η fixed) → List (Touch κ η fixed)
  | (_, .paused _) => entries.map (.step number)
  | (w, .ended _) => entries.map (.step number) ++ [.ends number w]

/-- Some touches that follow one another lead from one element to another. -/
abbrev Lead (v : Element κ) (touches : List (Touch κ η fixed)) (w : Element κ) : Prop :=
  Linked (·.before.element) (·.after.element) v touches w

end Touch

namespace Button

/-- Who touches the element in a move. -/
def touches (b : Button κ η fixed) : Move κ η fixed → List (Touch κ η fixed)
  | .activate =>
    if b.isBusy then []
    else Touch.ofActivation b.started (Activation.startEntries b.success b.reject b.world)
      (Activation.start b.success b.reject b.world)
  | .resume ticket signal =>
    match b.running.find? (·.paused.ticket = ticket) with
    | none => []
    | some r => Touch.ofActivation r.number
      (Activation.resumeEntries b.reject r.paused signal b.world)
      (Activation.resume b.reject r.paused signal b.world)
  | .drop number =>
    match b.running.find? (·.number = number) with
    | none => []
    | some r => [.ends number (b.world.forget r.paused.ticket)]
  | .outside f => [.outside f b.world]
  | .expire _ | .abort => []

/-- Nothing that waits or may come to wait does anything once it has waited. -/
structure Patient (b : Button κ η fixed) : Prop where
  success : ∀ step ∈ b.success, Step.Patient step
  reject : ∀ step ∈ b.reject, Step.Patient step
  running : ∀ r ∈ b.running, r.paused.Patient

variable [Form η]

def touchesAll (b : Button κ η fixed) : List (Move κ η fixed) → List (Touch κ η fixed)
  | [] => []
  | m :: rest => b.touches m ++ (b.move m).touchesAll rest

section Moves

variable {b : Button κ η fixed}

omit [Form η] in
theorem place_lead (b : Button κ η fixed) (n : Nat) {w : World κ η fixed}
    {entries : List (Entry (World κ η fixed))} {r : World κ η fixed × Status (World κ η fixed)}
    (seamless : Seamless w entries r) :
    Touch.Lead w.element (Touch.ofActivation n entries r) (b.place n r).world.element := by
  have steps : Touch.Lead w.element (entries.map (.step n)) r.1.element :=
    seamless.linked.map (Touch.step n) World.element (fun _ => rfl) fun _ => rfl
  obtain ⟨v, p | o⟩ := r
  · exact steps
  · exact steps.append (.single (Touch.ends n v))

theorem Patient.lead (patient : b.Patient) (m : Move κ η fixed) :
    Touch.Lead b.world.element (b.touches m) (b.move m).world.element := by
  cases m with
  | activate =>
    rw [move, activate, touches]
    split
    · exact .nil _
    · exact place_lead b.enter b.started
        (Activation.start_seamless patient.reject patient.success b.world)
  | resume ticket signal =>
    rw [move, resume, touches]
    cases found : b.running.find? (·.paused.ticket = ticket) with
    | none => exact .nil _
    | some r =>
      have paused := patient.running r (List.mem_of_find?_eq_some found)
      exact place_lead (b.takeUp r.number) r.number
        (Activation.resume_seamless patient.reject paused signal b.world)
  | drop number =>
    rw [move, drop, touches]
    cases b.running.find? (·.number = number) with
    | none => exact .nil _
    | some r => exact .single (Touch.ends number (b.world.forget r.paused.ticket))
  | outside f => exact .single (Touch.outside f b.world)
  | expire time => exact .nil _
  | abort =>
    have same : (b.move .abort).world.element = b.world.element := b.world.abort_element
    exact same ▸ .nil _

theorem Patient.move (patient : b.Patient) (m : Move κ η fixed) : (b.move m).Patient := by
  have same := b.move_chains m
  refine ⟨?_, ?_, fun x mem => ?_⟩
  · rw [Button.success, same]
    exact patient.success
  · rw [Button.reject, same]
    exact patient.reject
  · rcases b.move_running m x mem with earlier | started | ⟨signal, r, waits, resumed⟩
    · exact patient.running x earlier
    · have part := Activation.start_seamless patient.reject patient.success b.world
      exact part.paused _ started
    · have paused := patient.running r waits
      exact (Activation.resume_seamless patient.reject paused signal b.world).paused _ resumed

theorem Patient.touches_lead (patient : b.Patient) (moves : List (Move κ η fixed)) :
    Touch.Lead b.world.element (b.touchesAll moves) (b.run moves).world.element := by
  induction moves generalizing b with
  | nil => exact .nil _
  | cons m rest ih => exact (patient.lead m).append (ih (patient.move m))

end Moves

/-- Only what touches the element changes it: each touch finds what the one before has left. -/
theorem touches_linked (react : React κ η fixed) (plan : Chains Action) (w : World κ η fixed)
    (moves : List (Move κ η fixed)) :
    let first : Button κ η fixed := { chains := plan.map (Action.run react), world := w }
    Touch.Lead w.element (first.touchesAll moves) (first.run moves).world.element := by
  intro first
  have patient (rs : List (Resolved Action)) :
      ∀ step ∈ (rs.map (·.map (Action.run react))).map (·.step), Step.Patient step := by
    intro step mem
    rw [Resolved.map_steps] at mem
    obtain ⟨r, -, rfl⟩ := List.mem_map.mp mem
    exact fun input w ticket resume => r.step.run_idle react
  have patient' : first.Patient := ⟨patient plan.success, patient plan.reject, nofun⟩
  exact patient'.touches_lead moves

end Button

end ActionChain
