import ActionChain.Bench.ScriptedForm
import ActionChain.Proofs.Actions
import ActionChain.Proofs.Execution
import ActionChain.Proofs.Notes

/-!
What the steps of an activation hand on. An action can end in a few ways only, which `Yields` lists;
the rest is by induction on the run of a chain. Main statement `execute_hands`: every step gets the
response of the last submission before it in its chain, or else what its chain has started with:
nothing, or the response that was rejected.
-/
namespace ActionChain

variable {κ η σ : Type} {fixed : Fixed}

/-- However it goes on, it ends so, and the end of a wait does nothing itself. -/
def Progress.Ends (P : StepResult → Prop) : Progress σ → Prop
  | .settled r => P r
  | .waits _ resume => ∀ signal s, ∃ r, resume signal s = (s, r) ∧ P r

/-- What else becomes of the state while a step waits. -/
def Turn.meanwhile (t : Turn σ) (s : σ) : σ := t.wait.elim s fun i => i.change s

theorem Turn.Genuine.ends {t : Turn σ} {P : StepResult → Prop} (genuine : t.Genuine)
    (ends : (t.step t.input t.before).2.Ends P) :
    P t.result ∧ t.after = t.meanwhile (t.step t.input t.before).1 := by
  cases genuine with
  | @settled step input s u r did =>
    have ends : (step input s).2.Ends P := ends
    rw [did] at ends
    exact ⟨ends, congrArg Prod.fst did.symm⟩
  | @waited step input s u v r ticket resume i did ended =>
    have ends : (step input s).2.Ends P := ends
    rw [did] at ends
    obtain ⟨r', resumed, result⟩ := ends i.signal (i.change u)
    obtain ⟨rfl, rfl⟩ := Prod.mk.inj (ended.symm.trans resumed)
    exact ⟨result, congrArg i.change (congrArg Prod.fst did.symm)⟩

namespace Action

def submitName : String := "submit"
def proceedName : String := "proceed"

section Sleeps

variable {P : StepResult → Prop} {value : Option Response}

theorem sleep_ends (pause : Micros) (w : World κ η fixed) (handed : P (.ok value))
    (aborted : P (.error .aborted)) : (w.sleep pause value).2.Ends P := by
  rw [World.sleep]
  split
  · exact handed
  · rintro (_ | _) w
    · exact ⟨_, rfl, handed⟩
    · exact ⟨_, rfl, aborted⟩

theorem showDecorator_ends (c : String) (pause : Micros) (w : World κ η fixed)
    (handed : P (.ok value)) (aborted : P (.error .aborted)) :
    (w.showDecorator c pause value).2.Ends P := by
  rw [World.showDecorator]
  split
  · exact handed
  · exact sleep_ends pause _ handed aborted

end Sleeps

variable [Form η]

/-- Submitted in a world, this action is answered so. -/
def AnsweredIn (a : Action) (w : World κ η fixed) (answer : Answer) : Prop :=
  ∃ data, a = .submit data ∧
    (Form.submit w.page (data.map w.evaluate)).2.answer? = some answer

/-- The ways in which an action can end on an input in a world. -/
inductive Yields (a : Action) (input : Option Response) (w : World κ η fixed) : StepResult → Prop
  | handed : a.name ≠ submitName → Yields a input w (.ok input)
  | aborted : Yields a input w (.error .aborted)
  | nowhere (reason : String) : a.name = proceedName →
    Yields a input w (.error (.rejected (.error reason)))
  | accepted {r : Response} : a.AnsweredIn w (.ok (some r)) → r.status = 200 →
    Yields a input w (.ok (some r))
  | refused {r : Response} : a.AnsweredIn w (.ok (some r)) → r.status ≠ 200 →
    Yields a input w (.error (.rejected (.response r)))
  | unanswered : a.AnsweredIn w (.ok none) → Yields a input w (.error (.rejected .noResponse))
  | failed {f : Fault} : a.AnsweredIn w (.error f) →
    Yields a input w (.error (.rejected (.error f.message)))

theorem AnsweredIn.yields {a : Action} {w : World κ η fixed} {answer : Answer}
    (answered : a.AnsweredIn w answer) (input : Option Response) :
    Yields a input w (World.concluded answer) := by
  rcases answer with f | r | r
  · cases f with
    | aborted => exact .aborted
    | _ => exact .failed answered
  · exact .unanswered answered
  · rw [World.concluded]
    split
    · rename_i ok
      exact .accepted answered (by simpa [Response.isOk] using ok)
    · rename_i other
      exact .refused answered (by simpa [Response.isOk] using other)

theorem submit_yields (data : Option Bound) (input : Option Response) (w : World κ η fixed) :
    (w.submit (data.map w.evaluate)).2.Ends (Yields (.submit data) input w) := by
  have answered {answer : Answer}
      (given : (Form.submit w.page (data.map w.evaluate)).2.answer? = some answer) :
      Yields (.submit data) input w (World.concluded answer) :=
    AnsweredIn.yields ⟨data, rfl, given⟩ input
  rw [World.submit]
  generalize Form.submit w.page (data.map w.evaluate) = sent at answered ⊢
  obtain ⟨page, answer | ⟨ms, answer⟩ | _⟩ := sent
  · exact answered rfl
  · dsimp only
    split
    · exact answered rfl
    · rintro (_ | _) w
      · exact ⟨_, rfl, answered rfl⟩
      · exact ⟨_, rfl, .aborted⟩
  · rintro (_ | _) w
    · exact ⟨_, rfl, .aborted⟩
    · exact ⟨_, rfl, .aborted⟩

theorem name_ne_submit {a : Action} (other : ∀ data, a ≠ .submit data) : a.name ≠ submitName := by
  cases a with
  | submit data => exact absurd rfl (other data)
  | _ => exact ne_of_beq_false rfl

theorem run_yields (react : React κ η fixed) (a : Action) (input : Option Response)
    (w : World κ η fixed) : (a.run react input w).2.Ends (Yields a input w) := by
  have handed (other : ∀ data, a ≠ .submit data) : Yields a input w (.ok input) :=
    .handed (name_ne_submit other)
  cases a with
  | submit data => exact submit_yields data input w
  | proceed fallback =>
    rw [run]
    dsimp only
    split
    · exact handed fun _ => Action.noConfusion
    · exact .nowhere _ rfl
  | delay pause => exact sleep_ends pause w (handed fun _ => Action.noConfusion) .aborted
  | okay pause => exact showDecorator_ends _ _ w (handed fun _ => Action.noConfusion) .aborted
  | bummer pause => exact showDecorator_ends _ _ w (handed fun _ => Action.noConfusion) .aborted
  | _ => exact handed fun _ => Action.noConfusion

/-- An action that has waited does nothing more. -/
theorem run_idle (react : React κ η fixed) (a : Action) {input : Option Response}
    {w : World κ η fixed} {ticket : Ticket}
    {resume : Signal → World κ η fixed → World κ η fixed × StepResult}
    (waits : (a.run react input w).2 = .waits ticket resume) (signal : Signal)
    (v : World κ η fixed) : (resume signal v).1 = v := by
  have ends := a.run_yields react input w
  rw [waits] at ends
  obtain ⟨r, same, -⟩ := ends signal v
  rw [same]

end Action

section Chains

variable [Form η]

/-- A call of a chain together with the turn it has taken. -/
abbrev Taken (κ η : Type) (fixed : Fixed) := Resolved Action × Turn (World κ η fixed)

def Taken.isSubmission (p : Taken κ η fixed) : Bool := p.1.call.name = Action.submitName

def Taken.answered (p : Taken κ η fixed) (r : Response) : Prop :=
  p.1.step.AnsweredIn p.2.before (.ok (some r))

/-- What has been handed on after some turns: the response with which the form has answered the last
submission among them, which has succeeded; or what was handed to the first of them. -/
def Handed (first : Option Response) (taken : List (Taken κ η fixed)) (value : Option Response) :
    Prop :=
  match (taken.filter Taken.isSubmission).getLast? with
  | none => value = first
  | some p => ∃ r, value = some r ∧ r.status = 200 ∧ p.answered r

theorem Handed.append {first value last : Option Response} {taken more : List (Taken κ η fixed)}
    (handed : Handed first taken value) (next : Handed value more last) :
    Handed first (taken ++ more) last := by
  rw [Handed] at *
  rw [List.filter_append, List.getLast?_append]
  cases found : (more.filter Taken.isSubmission).getLast? with
  | none =>
    rw [found] at next
    obtain rfl : last = value := next
    exact handed
  | some p =>
    rw [found] at next
    exact next

theorem Handed.status {taken : List (Taken κ η fixed)} {r : Response}
    (handed : Handed none taken (some r)) : r.status = 200 := by
  rw [Handed] at handed
  split at handed
  · cases handed
  · obtain ⟨r', same, ok, -⟩ := handed
    rwa [Option.some.inj same]

theorem Handed.isSome_iff {taken : List (Taken κ η fixed)} {value : Option Response}
    (handed : Handed none taken value) :
    value.isSome ↔ ∃ p ∈ taken, p.1.call.name = Action.submitName := by
  rw [Handed] at handed
  split at handed
  · rename_i absent
    have others : ∀ p ∈ taken, ¬p.isSubmission = true :=
      List.filter_eq_nil_iff.mp (List.getLast?_eq_none_iff.mp absent)
    simpa [handed, Taken.isSubmission] using others
  · rename_i p last
    obtain ⟨r, rfl, -, -⟩ := handed
    obtain ⟨member, submits⟩ := List.mem_filter.mp (List.mem_of_getLast? last)
    simpa using ⟨p.1, ⟨p.2, member⟩, by simpa [Taken.isSubmission] using submits⟩

/-- The last turn of a chain has rejected, and why. A response is only rejected by the submission
that has got it, and only if its status is not 200. -/
structure Caused (p : Taken κ η fixed) (why : Rejection) : Prop where
  rejects : p.2.result = .error (.rejected why)
  action : p.1.call.name = Action.submitName ∨ p.1.call.name = Action.proceedName
  response : ∀ r, why = .response r → r.status ≠ 200 ∧ p.answered r

/-- What the turns of a chain hand on, and how it ends. -/
structure Hands (plan : List (Resolved Action)) (first : Option Response)
    (turns : List (Turn (World κ η fixed))) (result : StepResult) : Prop where
  inputs : ∀ i t, turns[i]? = some t → Handed first ((plan.zip turns).take i) t.input
  value : ∀ v, result = .ok v → turns.length = plan.length ∧ Handed first (plan.zip turns) v
  cause : ∀ why, result = .error (.rejected why) →
    ∃ p, (plan.zip turns).getLast? = some p ∧ Caused p why

section Turns

variable {r : Resolved Action} {t : Turn (World κ η fixed)}

theorem submission_iff {answer : Answer} {w : World κ η fixed} (named : r.step.name = r.call.name)
    (answered : r.step.AnsweredIn w answer) : r.call.name = Action.submitName := by
  obtain ⟨data, submit, -⟩ := answered
  rw [← named, submit]
  rfl

theorem handed_turn (named : r.step.name = r.call.name) {v : Option Response}
    (yields : r.step.Yields t.input t.before (.ok v)) : Handed t.input [(r, t)] v := by
  cases yields with
  | handed other =>
    have not : Taken.isSubmission (r, t) = false := decide_eq_false (named ▸ other)
    simp [Handed, not]
  | accepted answered ok =>
    have submits : Taken.isSubmission (r, t) = true :=
      decide_eq_true (submission_iff named answered)
    simpa [Handed, submits] using ⟨ok, answered⟩

theorem caused_turn (named : r.step.name = r.call.name) {why : Rejection}
    (rejects : t.result = .error (.rejected why))
    (yields : r.step.Yields t.input t.before (.error (.rejected why))) : Caused (r, t) why := by
  refine ⟨rejects, ?_, ?_⟩
  · cases yields with
    | nowhere reason proceeds => exact .inr (named ▸ proceeds)
    | refused answered => exact .inl (submission_iff named answered)
    | unanswered answered => exact .inl (submission_iff named answered)
    | failed answered => exact .inl (submission_iff named answered)
  · rintro resp rfl
    cases yields with
    | refused answered other => exact ⟨other, answered⟩

end Turns

theorem ChainRun.hands {react : React κ η fixed} {plan : List (Resolved Action)}
    (named : ∀ r ∈ plan, r.step.name = r.call.name) {first : Option Response}
    {s last : World κ η fixed} {turns : List (Turn (World κ η fixed))} {result : StepResult}
    (run : ChainRun (plan.map fun r => r.step.run react) first s turns result last) :
    Hands plan first turns result := by
  generalize same : (plan.map fun r => r.step.run react) = steps at run
  induction run generalizing plan with
  | completed value s =>
    obtain rfl := List.map_eq_nil_iff.mp same
    refine ⟨by simp, fun v ok => ?_, fun why rejected => nomatch rejected⟩
    exact ⟨rfl, (Except.ok.inj ok).symm⟩
  | @failed t f rest genuine failed =>
    obtain ⟨r, plan, rfl, step, rfl⟩ := List.map_eq_cons_iff.mp same
    have yields := (genuine.ends (step ▸ r.step.run_yields react t.input t.before)).1
    refine ⟨fun i t' found => ?_, (fun v ok => nomatch ok), fun why rejected => ?_⟩
    · obtain ⟨rfl, rfl⟩ : i = 0 ∧ t = t' := by
        cases i <;> simp_all
      exact rfl
    · rw [rejected] at failed
      refine ⟨(r, t), by simp, caused_turn (named r List.mem_cons_self) failed ?_⟩
      rwa [failed] at yields
  | @next t value rest turns result last genuine ok run ih =>
    obtain ⟨r, plan, rfl, step, rfl⟩ := List.map_eq_cons_iff.mp same
    have yields := (genuine.ends (step ▸ r.step.run_yields react t.input t.before)).1
    rw [ok] at yields
    have now := handed_turn (named r List.mem_cons_self) yields
    have hands := ih (fun r' member => named r' (List.mem_cons_of_mem r member)) rfl
    constructor
    · intro i t' found
      cases i with
      | zero =>
        obtain rfl := Option.some.inj found
        exact rfl
      | succ i => exact now.append (hands.inputs i t' found)
    · intro v ended
      obtain ⟨all, handed⟩ := hands.value v ended
      exact ⟨congrArg (· + 1) all, now.append handed⟩
    · intro why ended
      obtain ⟨p, found, caused⟩ := hands.cause why ended
      exact ⟨p, by simp [List.getLast?_cons, found], caused⟩

/-- What the steps of an activation get, and what its outcome carries. The reject chain starts with
the response that has caused the rejection, or with nothing if none has. -/
structure Threaded (e : Expression) (plan : Chains Action)
    (turns more : List (Turn (World κ η fixed))) (o : Outcome) : Prop where
  success : ∀ i t, turns[i]? = some t → Handed none ((plan.success.zip turns).take i) t.input
  reject : ∀ i t, more[i]? = some t → ∃ p why, (plan.success.zip turns).getLast? = some p ∧
    Caused p why ∧ Handed why.response? ((plan.reject.zip more).take i) t.input
  fulfilled : ∀ v, o = .fulfilled v →
    turns.length = plan.success.length ∧ Handed none (plan.success.zip turns) v ∧
    (v.isSome ↔ ∃ c ∈ e.success, c.name = Action.submitName) ∧ ∀ r, v = some r → r.status = 200
  recovered : ∀ v, o = .recovered v → ∃ p why, (plan.success.zip turns).getLast? = some p ∧
    Caused p why ∧ Handed why.response? (plan.reject.zip more) v
  rejected : ∀ r, o = .rejected (.response r) → r.status ≠ 200
  /-- Without submissions and steps that proceed, nothing is rejected. -/
  steady : (∀ c ∈ e.success, c.name ≠ Action.submitName ∧ c.name ≠ Action.proceedName) →
    more = [] ∧ (o = .fulfilled none ∨ o = .aborted)

section Threads

variable {e : Expression} {plan : Chains Action} {turns more : List (Turn (World κ η fixed))}

theorem Hands.isSome_iff (calls : plan.success.map (·.call) = e.success) {v : Option Response}
    (hands : Hands plan.success none turns (.ok v)) :
    v.isSome ↔ ∃ c ∈ e.success, c.name = Action.submitName := by
  obtain ⟨all, handed⟩ := hands.value v rfl
  have taken : (plan.success.zip turns).map (·.1) = plan.success :=
    List.map_fst_zip (Nat.le_of_eq all.symm)
  have called : e.success = (plan.success.zip turns).map (·.1.call) := by
    rw [← calls, ← congrArg (List.map (·.call)) taken, List.map_map]
    rfl
  simp only [handed.isSome_iff, called, List.mem_map, exists_exists_and_eq_and]

theorem Caused.call_mem (calls : plan.success.map (·.call) = e.success) {p : Taken κ η fixed}
    {why : Rejection} (last : (plan.success.zip turns).getLast? = some p) (caused : Caused p why) :
    ∃ c ∈ e.success, c.name = Action.submitName ∨ c.name = Action.proceedName := by
  have member : p.1 ∈ plan.success := (List.of_mem_zip (List.mem_of_getLast? last)).1
  exact ⟨p.1.call, calls ▸ List.mem_map_of_mem member, caused.action⟩

theorem Hands.direct (calls : plan.success.map (·.call) = e.success) {result : StepResult}
    (hands : Hands plan.success none turns result) :
    Threaded e plan turns [] (.ofResult .fulfilled result) where
  success := hands.inputs
  reject := by simp
  fulfilled := by
    intro v done
    rcases result with (why | _) | value
    · cases done
    · cases done
    · obtain rfl := Outcome.fulfilled.inj done
      obtain ⟨all, handed⟩ := hands.value value rfl
      exact ⟨all, handed, hands.isSome_iff calls, fun r some => Handed.status (some ▸ handed)⟩
  recovered := by
    intro v done
    rcases result with (why | _) | value <;> cases done
  rejected := by
    intro r done
    rcases result with (why | _) | value
    · obtain rfl := Outcome.rejected.inj done
      obtain ⟨p, -, caused⟩ := hands.cause (.response r) rfl
      exact (caused.response r rfl).1
    · cases done
    · cases done
  steady := by
    intro others
    refine ⟨rfl, ?_⟩
    rcases result with (why | _) | value
    · obtain ⟨p, last, caused⟩ := hands.cause why rfl
      obtain ⟨c, member, submits | proceeds⟩ := caused.call_mem calls last
      · exact absurd submits (others c member).1
      · exact absurd proceeds (others c member).2
    · exact .inr rfl
    · have nothing : ¬value.isSome = true := by
        rw [hands.isSome_iff calls]
        rintro ⟨c, member, submits⟩
        exact (others c member).1 submits
      obtain rfl : value = none := by simpa using nothing
      exact .inl rfl

theorem Hands.viaReject (calls : plan.success.map (·.call) = e.success) {why : Rejection}
    (hands : Hands plan.success none turns (.error (.rejected why))) {result : StepResult}
    (hands' : Hands plan.reject why.response? more result) :
    Threaded e plan turns more (.ofResult .recovered result) := by
  obtain ⟨p, last, caused⟩ := hands.cause why rfl
  constructor
  case success => exact hands.inputs
  case reject => exact fun i t found => ⟨p, why, last, caused, hands'.inputs i t found⟩
  case fulfilled =>
    intro v done
    rcases result with (why | _) | value <;> cases done
  case recovered =>
    intro v done
    rcases result with (why' | _) | value
    · cases done
    · cases done
    · obtain rfl := Outcome.recovered.inj done
      exact ⟨p, why, last, caused, (hands'.value value rfl).2⟩
  case rejected =>
    intro r done
    rcases result with (why' | _) | value
    · obtain rfl := Outcome.rejected.inj done
      obtain ⟨p, -, caused⟩ := hands'.cause (.response r) rfl
      exact (caused.response r rfl).1
    · cases done
    · cases done
  case steady =>
    intro others
    obtain ⟨c, member, submits | proceeds⟩ := caused.call_mem calls last
    · exact absurd submits (others c member).1
    · exact absurd proceeds (others c member).2

theorem Execution.threaded {react : React κ η fixed} (planned : Catalogue.actions.build e = .ok plan)
    {w last : World κ η fixed} {o : Outcome}
    (law : Execution (plan.success.map fun r => r.step.run react)
      (plan.reject.map fun r => r.step.run react) w turns more o last) :
    Threaded e plan turns more o := by
  obtain ⟨calls, -, made⟩ := Catalogue.build_actions planned
  obtain ⟨first, second⟩ := List.forall_mem_append.mp made
  cases law with
  | direct run =>
    exact (run.hands fun r member => Action.ofCall_name (first r member)).direct calls
  | viaReject run some run' =>
    exact (run.hands fun r member => Action.ofCall_name (first r member)).viaReject calls
      (run'.hands fun r member => Action.ofCall_name (second r member))

end Threads

end Chains

namespace Button

variable [Form η]

/-- An activation of an expression that can be built, with the turns taken by the actions that the
expression is built from. -/
theorem execute_planned {react : React κ η fixed} {e : Expression}
    {chains : Chains (Step (World κ η fixed))}
    (built : (Catalogue.ofActions (Action.run react)).build e = .ok chains)
    (w : World κ η fixed) (waits : Nat → Interlude (World κ η fixed)) :
    let b : Button κ η fixed := { chains, world := w }
    ∃ plan turns more o last,
      Catalogue.actions.build e = .ok plan ∧ chains = plan.map (Action.run react) ∧
      Execution b.success b.reject w turns more o last ∧
      Execution (plan.success.map fun r => r.step.run react)
        (plan.reject.map fun r => r.step.run react) w turns more o last ∧
      (∀ t ∈ turns ++ more, ∀ i, t.wait = some i → ∃ n, i = waits n) ∧
      b.execute waits =
        { b with world := last.restore, started := 1, endings := [(0, .outcome o)] } := by
  intro b
  obtain ⟨plan, planned, rfl⟩ := map_ok_iff.mp ((Catalogue.build_ofActions _ e).symm.trans built)
  obtain ⟨turns, more, o, last, law, waited, executed⟩ :=
    execute_runs (plan.map (Action.run react)) w waits
  refine ⟨plan, turns, more, o, last, planned, rfl, law, ?_, wait_of_turns waited, executed⟩
  rwa [success, reject, Chains.map, Resolved.map_steps, Resolved.map_steps] at law

/-- What a button hands on, for any expression that can be built, whatever the form answers and
whatever happens while a step waits. -/
theorem execute_hands (react : React κ η fixed) {e : Expression}
    {chains : Chains (Step (World κ η fixed))}
    (built : (Catalogue.ofActions (Action.run react)).build e = .ok chains)
    (w : World κ η fixed) (waits : Nat → Interlude (World κ η fixed)) :
    let b : Button κ η fixed := { chains, world := w }
    ∃ plan turns more o last,
      Catalogue.actions.build e = .ok plan ∧ chains = plan.map (Action.run react) ∧
      Execution b.success b.reject w turns more o last ∧
      b.execute waits =
        { b with world := last.restore, started := 1, endings := [(0, .outcome o)] } ∧
      Threaded e plan turns more o := by
  intro b
  obtain ⟨plan, turns, more, o, last, planned, same, law, law', -, executed⟩ :=
    execute_planned built w waits
  exact ⟨plan, turns, more, o, last, planned, same, law, executed, law'.threaded planned⟩

open Bench

def submitTwice (reject : List Call) : Expression :=
  ⟨[⟨"submit", []⟩, ⟨"spinner", []⟩, ⟨"submit", []⟩], reject⟩

def submitTwicePlan (reject : List (Resolved Action)) : Chains Action where
  success :=
    [⟨⟨"submit", []⟩, [], .submit none⟩, ⟨⟨"spinner", []⟩, [], .spinner⟩,
      ⟨⟨"submit", []⟩, [], .submit none⟩]
  reject := reject

abbrev SaveWorld := World Unit ScriptedForm ⟨{}, ""⟩

/-- The form of this page accepts the first submission, refuses the second, and accepts the third
after a while. -/
def saveWorld : SaveWorld where
  element := { id := "save" }
  page := { replies := [.respond ⟨200, .null⟩, .respond ⟨422, .null⟩, .slow 50 ⟨200, .bool true⟩] }

/-- A reject chain hands on the response that was refused, or the one it has got itself. -/
theorem execute_hands_submitTwice :
    let react : React Unit ScriptedForm ⟨{}, ""⟩ := fun _ _ w => w
    let clear : Resolved Action := ⟨⟨"clearErrors", []⟩, [], .clearErrors⟩
    let again : Resolved Action := ⟨⟨"submit", []⟩, [], .submit none⟩
    ∀ ended ∈ [([clear], Response.mk 422 .null), ([clear, again], Response.mk 200 (.bool true))],
      let e := submitTwice (ended.1.map (·.call))
      let o := Outcome.recovered (some ended.2)
      let b : Button Unit ScriptedForm ⟨{}, ""⟩ :=
        { chains := (submitTwicePlan ended.1).map (Action.run react), world := saveWorld }
      (Catalogue.ofActions (Action.run react)).build e = .ok b.chains ∧
      ∃ (plan : Chains Action) (turns more : List (Turn SaveWorld)),
        Threaded e plan turns more o ∧
        (b.execute fun _ => ⟨.expired, id⟩).endings = [(0, .outcome o)] := by
  intro react clear again ended member e o b
  have planned : Catalogue.actions.build e = .ok (submitTwicePlan ended.1) := by
    rcases List.mem_pair.mp member with rfl | rfl <;> rfl
  have built : (Catalogue.ofActions (Action.run react)).build e = .ok b.chains := by
    rw [Catalogue.build_ofActions, planned]
    rfl
  have done : (b.execute fun _ => ⟨.expired, id⟩).endings = [(0, .outcome o)] := by
    rcases List.mem_pair.mp member with rfl | rfl <;> rfl
  obtain ⟨plan, turns, more, o', last, -, -, -, executed, threaded⟩ :=
    execute_hands react built saveWorld fun _ => ⟨.expired, id⟩
  obtain rfl : o' = o := by
    rw [executed] at done
    simpa using done
  exact ⟨built, plan, turns, more, threaded, done⟩

end Button

end ActionChain
