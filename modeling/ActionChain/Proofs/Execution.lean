import ActionChain.Button
import ActionChain.Proofs.ClassLists

/-!
The law of one activation. A turn is a step as it was run. Main statement `execution_lawful`: an
activation takes its turns in the order of the success chain, up to the first that fails; a rejection
hands over to the reject chain, if there is one; the outcome is that of the last turn; and then the
element is restored. A step may wait, and while it waits anything may happen to the world.
-/
namespace ActionChain

variable {σ : Type}

/-- How a wait ends, and what else has become of the state meanwhile. -/
structure Interlude (σ : Type) where
  signal : Signal
  change : σ → σ

/-- A step as it was run: on what, from which state, over which wait if it made one, and how it
ended. -/
structure Turn (σ : Type) where
  step : Step σ
  input : Option Response
  before : σ
  wait : Option (Interlude σ)
  after : σ
  result : StepResult

inductive Turn.Genuine : Turn σ → Prop
  | settled {step : Step σ} {input : Option Response} {s t : σ} {r : StepResult} :
      step input s = (t, .settled r) → Genuine ⟨step, input, s, none, t, r⟩
  | waited {step : Step σ} {input : Option Response} {s t u : σ} {r : StepResult}
      {ticket : Ticket} {resume : Signal → σ → σ × StepResult} {i : Interlude σ} :
      step input s = (t, .waits ticket resume) → resume i.signal (i.change t) = (u, r) →
      Genuine ⟨step, input, s, some i, u, r⟩

/-- A run of a chain: its steps from the first on, each once, each on the output of the one before
and in the state it has left, up to the end or to the first that fails. -/
inductive ChainRun : List (Step σ) → Option Response → σ → List (Turn σ) → StepResult → σ → Prop
  | completed (value : Option Response) (s : σ) : ChainRun [] value s [] (.ok value) s
  | failed {t : Turn σ} {f : Failure} (rest : List (Step σ)) :
      t.Genuine → t.result = .error f →
      ChainRun (t.step :: rest) t.input t.before [t] (.error f) t.after
  | next {t : Turn σ} {value : Option Response} {rest : List (Step σ)} {turns : List (Turn σ)}
      {r : StepResult} {s : σ} :
      t.Genuine → t.result = .ok value → ChainRun rest value t.after turns r s →
      ChainRun (t.step :: rest) t.input t.before (t :: turns) r s

theorem ChainRun.steps_prefix {steps : List (Step σ)} {value : Option Response} {s t : σ}
    {turns : List (Turn σ)} {r : StepResult} (run : ChainRun steps value s turns r t) :
    turns.map (·.step) <+: steps := by
  induction run with
  | completed => exact List.prefix_rfl
  | failed rest genuine failed => simp
  | next genuine ok run ih => simpa using ih

def Outcome.ofResult (completed : Option Response → Outcome) : StepResult → Outcome
  | .ok value => completed value
  | .error .aborted => .aborted
  | .error (.rejected why) => .rejected why

/-- What a reject chain starts with: the response that has caused the rejection, if one has. -/
def Rejection.response? : Rejection → Option Response
  | .response r => some r
  | .noResponse => none
  | .error _ => none

theorem Rejection.input_eq (why : Rejection) : why.input = why.response? := by
  cases why <;> rfl

/-- The law of an activation: the turns of the success chain, those of the reject chain, the outcome
and the state after the last turn. -/
inductive Execution (success reject : List (Step σ)) (s : σ) :
    List (Turn σ) → List (Turn σ) → Outcome → σ → Prop
  | direct {turns : List (Turn σ)} {r : StepResult} {t : σ} :
      ChainRun success none s turns r t →
      (∀ why, r = .error (.rejected why) → reject = []) →
      Execution success reject s turns [] (.ofResult .fulfilled r) t
  | viaReject {turns more : List (Turn σ)} {why : Rejection} {r : StepResult} {t u : σ} :
      ChainRun success none s turns (.error (.rejected why)) t → reject ≠ [] →
      ChainRun reject why.response? t more r u →
      Execution success reject s turns more (.ofResult .recovered r) u

namespace Activation

/-- Goes on with an activation over waits that end so, as far as they reach. -/
def goOn (reject : List (Step σ)) : List (Interlude σ) → σ × Status σ → σ × Status σ
  | i :: rest, (s, .paused p) => goOn reject rest (resume reject p i.signal (i.change s))
  | _, r => r

def afterChain (reject : List (Step σ)) (phase : Phase) : StepResult → σ → σ × Status σ
  | .ok value, s => (s, .ended (phase.completed value))
  | .error .aborted, s => (s, .ended .aborted)
  | .error (.rejected why), s => rejected reject phase why s

def afterStep (reject : List (Step σ)) (phase : Phase) (rest : List (Step σ)) :
    StepResult → σ → σ × Status σ
  | .ok value, s => runChain phase (rejected reject phase) rest value s
  | .error f, s => afterChain reject phase (.error f) s

@[simp] theorem goOn_ended (reject : List (Step σ)) (waits : List (Interlude σ)) (s : σ)
    (o : Outcome) : goOn reject waits (s, .ended o) = (s, .ended o) := by
  cases waits <;> rfl

theorem runChain_settled (reject : List (Step σ)) (phase : Phase) {step : Step σ}
    (rest : List (Step σ)) {value : Option Response} {s t : σ} {r : StepResult}
    (did : step value s = (t, .settled r)) :
    runChain phase (rejected reject phase) (step :: rest) value s =
      afterStep reject phase rest r t := by
  rw [runChain, did]
  rcases r with (_ | _) | _ <;> rfl

theorem resume_eq (reject : List (Step σ)) (p : Paused σ) (signal : Signal) {s t : σ}
    {r : StepResult} (did : p.resume signal s = (t, r)) :
    resume reject p signal s = afterStep reject p.phase p.rest r t := by
  rw [resume, did]
  rcases r with (_ | _) | _ <;> rfl

/-- With waits enough, a chain comes to its end, and takes the turns that the law of chains says. -/
theorem runChain_lawful (reject : List (Step σ)) (phase : Phase) (steps : List (Step σ))
    (value : Option Response) (s : σ) (waits : List (Interlude σ))
    (enough : steps.length ≤ waits.length) :
    ∃ turns r t left, ChainRun steps value s turns r t ∧
      waits = turns.filterMap (·.wait) ++ left ∧ turns.length ≤ steps.length ∧
      goOn reject waits (runChain phase (rejected reject phase) steps value s) =
        goOn reject left (afterChain reject phase r t) := by
  induction steps generalizing value s waits with
  | nil => exact ⟨[], .ok value, s, waits, .completed value s, rfl, Nat.le_refl 0, rfl⟩
  | cons step rest ih =>
    have shorter : rest.length + 1 ≤ waits.length := enough
    rcases did : step value s with ⟨t, r | ⟨ticket, resume⟩⟩
    · rw [runChain_settled reject phase rest did]
      have genuine : Turn.Genuine ⟨step, value, s, none, t, r⟩ := .settled did
      cases r with
      | error f => exact ⟨_, _, _, waits, .failed rest genuine rfl, rfl, by simp, rfl⟩
      | ok value' =>
        obtain ⟨turns, r, u, left, run, used, fewer, goes⟩ := ih value' t waits (by omega)
        exact ⟨_, r, u, left, .next genuine rfl run, used, by simpa using fewer, goes⟩
    · cases waits with
      | nil => simp at shorter
      | cons i waits =>
        have fits : rest.length ≤ waits.length := by simpa using shorter
        rcases ended : resume i.signal (i.change t) with ⟨u, r⟩
        have genuine : Turn.Genuine ⟨step, value, s, some i, u, r⟩ := .waited did ended
        have resumed := resume_eq reject ⟨phase, ticket, resume, rest⟩ i.signal ended
        rw [runChain, did, goOn, resumed]
        cases r with
        | error f => exact ⟨_, _, _, waits, .failed rest genuine rfl, rfl, by simp, rfl⟩
        | ok value' =>
          obtain ⟨turns, r, v, left, run, used, fewer, goes⟩ := ih value' u waits fits
          exact ⟨_, r, v, left, .next genuine rfl run, by simp [used], by simpa using fewer, goes⟩

theorem start_lawful (success reject : List (Step σ)) (s : σ) (waits : List (Interlude σ))
    (enough : success.length + reject.length ≤ waits.length) :
    ∃ turns more o t, Execution success reject s turns more o t ∧
      (turns ++ more).filterMap (·.wait) <+: waits ∧
      goOn reject waits (start success reject s) = (t, .ended o) := by
  obtain ⟨turns, r, t, left, run, used, fewer, goes⟩ :=
    runChain_lawful reject .success success none s waits (by omega)
  have taken : turns.filterMap (·.wait) <+: waits := ⟨left, used.symm⟩
  have start_eq : goOn reject waits (start success reject s) =
      goOn reject left (afterChain reject .success r t) := goes
  rcases r with (why | _) | value
  · by_cases empty : reject = []
    · refine ⟨turns, [], _, t, .direct run fun _ _ => empty, by simpa using taken, ?_⟩
      rw [start_eq, afterChain, rejected, if_pos (by simp [empty]), goOn_ended]
      rfl
    · have fits : reject.length ≤ left.length := by
        have waits_length := congrArg List.length used
        have waited := List.length_filterMap_le (·.wait) turns
        simp only [List.length_append] at waits_length
        omega
      obtain ⟨more, r, u, rest, run', used', -, goes'⟩ :=
        runChain_lawful reject .reject reject why.response? t left fits
      refine ⟨turns, more, _, u, .viaReject run empty run', ?_, ?_⟩
      · exact ⟨rest, by rw [List.filterMap_append, List.append_assoc, ← used', ← used]⟩
      · rw [start_eq, afterChain, rejected, if_neg (by simpa using empty), why.input_eq]
        apply goes'.trans
        rcases r with (_ | _) | _ <;> exact goOn_ended ..
  · refine ⟨turns, [], _, t, .direct run (by simp), by simpa using taken, ?_⟩
    rw [start_eq, afterChain, goOn_ended]
    rfl
  · refine ⟨turns, [], _, t, .direct run (by simp), by simpa using taken, ?_⟩
    rw [start_eq, afterChain, goOn_ended]
    rfl

end Activation

theorem Outcome.ofResult_ne_skipped {completed : Option Response → Outcome} (r : StepResult)
    (other : ∀ value, completed value ≠ .skipped) : Outcome.ofResult completed r ≠ .skipped := by
  rcases r with (why | _) | value
  · exact Outcome.noConfusion
  · exact Outcome.noConfusion
  · exact other value

theorem Execution.not_skipped {success reject : List (Step σ)} {s t : σ}
    {turns more : List (Turn σ)} {o : Outcome}
    (law : Execution success reject s turns more o t) : o ≠ .skipped := by
  cases law with
  | direct run => exact Outcome.ofResult_ne_skipped _ fun _ => Outcome.noConfusion
  | viaReject run some run' => exact Outcome.ofResult_ne_skipped _ fun _ => Outcome.noConfusion

theorem Execution.steps_prefix {success reject : List (Step σ)} {s t : σ}
    {turns more : List (Turn σ)} {o : Outcome}
    (law : Execution success reject s turns more o t) :
    turns.map (·.step) <+: success ∧ more.map (·.step) <+: reject := by
  cases law with
  | direct run => exact ⟨run.steps_prefix, List.nil_prefix⟩
  | viaReject run some run' => exact ⟨run.steps_prefix, run'.steps_prefix⟩

namespace Button

variable {κ η : Type} {fixed : Fixed}

def endWait (b : Button κ η fixed) (i : Interlude (World κ η fixed)) : Button κ η fixed :=
  match b.running with
  | [] => b
  | r :: _ => (b.change i.change).resume r.paused.ticket i.signal

/-- Activates a button, and lets every wait of the activation end. -/
def execute (waits : Nat → Interlude (World κ η fixed)) (b : Button κ η fixed) :
    Button κ η fixed :=
  ((List.range (b.success.length + b.reject.length)).map waits).foldl endWait b.activate

theorem endWait_place (b : Button κ η fixed) (alone : b.running = []) (number : Nat)
    (waits : List (Interlude (World κ η fixed)))
    (r : World κ η fixed × Status (World κ η fixed)) :
    waits.foldl endWait (b.place number r) = b.place number (Activation.goOn b.reject waits r) := by
  induction waits generalizing r with
  | nil => rfl
  | cons i rest ih =>
    obtain ⟨w, p | o⟩ := r
    · have resumed : (b.place number (w, .paused p)).endWait i =
          b.place number (Activation.resume b.reject p i.signal (i.change w)) := by
        simp [endWait, place, putAside, change, resume, takeUp, alone, reject]
      rw [List.foldl_cons, resumed, ih]
      rfl
    · have unmoved : (b.place number (w, .ended o)).endWait i = b.place number (w, .ended o) := by
        simp [endWait, place, finish, leave, change, alone]
      rw [List.foldl_cons, unmoved, ih]
      simp

theorem execute_eq (chains : Chains (Step (World κ η fixed))) (w : World κ η fixed)
    (waits : Nat → Interlude (World κ η fixed)) :
    let b : Button κ η fixed := { chains, world := w }
    b.execute waits = b.enter.place 0 (Activation.goOn b.reject
      ((List.range (b.success.length + b.reject.length)).map waits)
      (Activation.start b.success b.reject w)) := by
  intro b
  have activated : b.activate = b.enter.place 0 (Activation.start b.success b.reject w) := by
    simp [activate, isBusy, isRunning, b]
  rw [execute, activated]
  exact endWait_place b.enter rfl 0 _ _

/-- What an activation comes to, when nothing else is said of it than that it runs by the law. -/
theorem execute_runs (chains : Chains (Step (World κ η fixed))) (w : World κ η fixed)
    (waits : Nat → Interlude (World κ η fixed)) :
    let b : Button κ η fixed := { chains, world := w }
    ∃ turns more o last, Execution b.success b.reject w turns more o last ∧
      (∃ n, (turns ++ more).filterMap (·.wait) = (List.range n).map waits) ∧
      b.execute waits =
        { b with world := last.restore, started := 1, endings := [(0, .outcome o)] } := by
  intro b
  obtain ⟨turns, more, o, last, law, waited, ended⟩ :=
    Activation.start_lawful b.success b.reject w
      ((List.range (b.success.length + b.reject.length)).map waits) (by simp)
  refine ⟨turns, more, o, last, law, ?_, ?_⟩
  · have taken := List.prefix_iff_eq_take.mp waited
    rw [← List.map_take, List.take_range] at taken
    exact ⟨_, taken⟩
  · rw [execute_eq, ended]
    rfl

/-- The waits of the turns are among those that ended. -/
theorem wait_of_turns {turns : List (Turn σ)} {waits : Nat → Interlude σ}
    (waited : ∃ n, turns.filterMap (·.wait) = (List.range n).map waits) :
    ∀ t ∈ turns, ∀ i, t.wait = some i → ∃ n, i = waits n := by
  intro t member i wait
  obtain ⟨n, same⟩ := waited
  have taken : i ∈ (List.range n).map waits :=
    same ▸ List.mem_filterMap.mpr ⟨t, member, wait⟩
  obtain ⟨m, -, same⟩ := List.mem_map.mp taken
  exact ⟨m, same.symm⟩

/-- The law of activations, on a button of any chains in any world. Whatever the steps do and
however their waits end, the activation takes its turns by the law and ends once; its waits are those
that ended, in order; and then nothing is done but that the element gets the classes it had when the
button was made, each once, and is enabled. -/
theorem execution_lawful (chains : Chains (Step (World κ η fixed))) (w : World κ η fixed)
    (waits : Nat → Interlude (World κ η fixed)) :
    let b : Button κ η fixed := { chains, world := w }
    ∃ turns more o last,
      Execution b.success b.reject w turns more o last ∧
      turns.map (·.step) <+: b.success ∧ more.map (·.step) <+: b.reject ∧
      (∃ n, (turns ++ more).filterMap (·.wait) = (List.range n).map waits) ∧
      o ≠ .skipped ∧
      b.execute waits =
        { b with
          world := { last with
            element := { last.element with
              classes := ClassList.distinctWords fixed.initialClass
              disabled := false } }
          started := 1
          endings := [(0, .outcome o)] } ∧
      ∀ cs : ClassList, cs.Clean → fixed.initialClass = String.intercalate " " cs →
        (b.execute waits).world.element.classes = cs := by
  intro b
  obtain ⟨turns, more, o, last, law, waited, executed⟩ := execute_runs chains w waits
  refine ⟨turns, more, o, last, law, law.steps_prefix.1, law.steps_prefix.2, waited,
    law.not_skipped, ?_, fun cs clean snapshot => ?_⟩
  · rw [executed, ← ClassList.ofText_eq_distinctWords]
    rfl
  · rw [executed]
    show ClassList.ofText fixed.initialClass = cs
    rw [snapshot]
    exact clean.ofText_text

end Button

end ActionChain
