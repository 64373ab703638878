import ActionChain.Proofs.Locations
import ActionChain.Proofs.Proceeding

/-!
Where a button can navigate to. Main statement `navigation_guided`: a step that proceeds goes where
the response says that was handed on from the last submission before it in its chain, or else where
its call says; and while the listeners leave the location alone, no other places are reached.
-/
namespace ActionChain

variable {κ η : Type} {fixed : Fixed} [Form η]

/-- A call that proceeds, after these turns of its chain: it goes where the answer to the last
submission among them says, if there is one and it says so, or else where the call itself says. A
response that this chain has not got itself is not followed. -/
structure Proceeds (react : React κ η fixed) (taken : List (Taken κ η fixed)) (c : Call)
    (t : Turn (World κ η fixed)) : Prop where
  written : c.args = [] ∨ ∃ url, c.args = [.string url]
  alone : (taken.filter Taken.isSubmission).getLast? = none →
    (∀ r, t.input = some r → r.status ≠ 200) ∧ t.Goes react c.writtenUrl?
  answered : ∀ p, (taken.filter Taken.isSubmission).getLast? = some p → ∃ r, p.answered r ∧
    r.status = 200 ∧ t.input = some r ∧ t.Goes react (r.namedUrl?.or c.writtenUrl?)

def Action.reloadName : String := "reload"

/-- What the turns of a chain do to the location. -/
structure Guided (react : React κ η fixed) (plan : List (Resolved Action))
    (turns : List (Turn (World κ η fixed))) : Prop where
  steps : ∀ (i : Nat) (t : Turn (World κ η fixed)), turns[i]? = some t →
    ∃ r, plan[i]? = some r ∧ t.step = r.step.run react
  proceeds : ∀ (i : Nat) (r : Resolved Action) (t : Turn (World κ η fixed)),
    plan[i]? = some r → turns[i]? = some t → r.call.name = Action.proceedName →
      Proceeds react ((plan.zip turns).take i) r.call t
  /-- A reload tells the listeners, and leaves the location at its value. -/
  reloads : ∀ (i : Nat) (r : Resolved Action) (t : Turn (World κ η fixed)),
    plan[i]? = some r → turns[i]? = some t → r.call.name = Action.reloadName →
      let url := Json.string t.before.element.location
      t.after = (t.before.dispatch react ⟨"navigate", .object [("url", url)]⟩).1 ∧
        t.result = .ok t.input

section Chains

variable {react : React κ η fixed} {calls : List Call} {plan : List (Resolved Action)}
  {first : Option Response} {turns : List (Turn (World κ η fixed))} {s s' : World κ η fixed}
  {result : StepResult}

theorem ChainRun.guided (resolved : List.Forall₂ Catalogue.actions.Resolves calls plan)
    (run : ChainRun (plan.map fun r => r.step.run react) first s turns result s')
    (other : ∀ r, first = some r → r.status ≠ 200) : Guided react plan turns := by
  have resolves {i : Nat} {r : Resolved Action} (placed : plan[i]? = some r) :
      Catalogue.actions.Resolves r.call r :=
    Catalogue.resolves_of_mem resolved r (List.mem_of_getElem? placed)
  have named (r : Resolved Action) (mem : r ∈ plan) : r.step.name = r.call.name :=
    Action.ofCall_name (Catalogue.made_of_resolves (Catalogue.resolves_of_mem resolved r mem))
  have hands := run.hands named
  refine ⟨fun i t found => ?_, fun i r t placed found proceeds => ?_,
    fun i r t placed found reloads => ?_⟩
  · have taken := (run.turn found).2
    rw [List.getElem?_map] at taken
    obtain ⟨r, placed, step⟩ := Option.map_eq_some_iff.mp taken
    exact ⟨r, placed, step.symm⟩
  · obtain ⟨step, written⟩ := (resolves placed).proceed proceeds
    have goes := (run.turn found).1.goes (step ▸ run.step_eq placed found)
    have handed := hands.inputs i t found
    rw [Handed] at handed
    refine ⟨written, fun none => ?_, fun p last => ?_⟩
    · rw [none] at handed
      have failed : ∀ r, t.input = some r → r.status ≠ 200 := handed.symm ▸ other
      rw [Action.destination?_other failed] at goes
      exact ⟨failed, goes⟩
    · rw [last] at handed
      obtain ⟨r', input, ok, answered⟩ := handed
      rw [input, Action.destination?_ok ok] at goes
      exact ⟨r', answered, ok, input, goes⟩
  · have made := Catalogue.made_of_resolves (resolves placed)
    rw [reloads] at made
    have step := run.step_eq placed found
    rw [Action.noArguments_ok made] at step
    have did : t.step t.input t.before =
        ((t.before.dispatch react (.navigate t.before.element.location)).1,
          .settled (.ok t.input)) := by
      rw [step]
      rfl
    exact (run.turn found).1.settles did

theorem Execution.guided {e : Expression} {plan : Chains Action}
    (planned : Catalogue.actions.build e = .ok plan) {more : List (Turn (World κ η fixed))}
    {o : Outcome} (law : Execution (plan.success.map fun r => r.step.run react)
      (plan.reject.map fun r => r.step.run react) s turns more o s') :
    Guided react plan.success turns ∧ Guided react plan.reject more := by
  obtain ⟨first, second⟩ := Catalogue.build_ok_iff.mp planned
  obtain ⟨calls, -, made⟩ := Catalogue.build_actions planned
  cases law with
  | direct run =>
    exact ⟨run.guided first nofun, ⟨by simp, by simp, by simp⟩⟩
  | viaReject run some run' =>
    refine ⟨run.guided first nofun, run'.guided second fun r input => ?_⟩
    have named (r : Resolved Action) (mem : r ∈ plan.success) : r.step.name = r.call.name :=
      Action.ofCall_name (made r (List.mem_append_left _ mem))
    obtain ⟨p, -, caused⟩ := (run.hands named).cause _ rfl
    rename_i why _ _
    cases why with
    | response r' =>
      obtain rfl := Option.some.inj input
      exact (caused.response r' rfl).1
    | noResponse | error => cases input

end Chains

section Places

variable {P : κ → Prop} {react : React κ η fixed} {w : World κ η fixed}

/-- Only a step that proceeds moves the element, and only to its destination. -/
theorem Action.run_led (bystanding : Bystanding P react) (a : Action) (input : Option Response)
    (heard : w.HeardBy P) : (a.run react input w).1.HeardBy P ∧
      ((a.run react input w).1.location = w.location ∨ ∃ fallback, a = .proceed fallback ∧
        destination? fallback input = some (a.run react input w).1.location) := by
  have stays (s : Stays P w (a.run react input w).1) : (a.run react input w).1.HeardBy P ∧
      ((a.run react input w).1.location = w.location ∨ ∃ fallback, a = .proceed fallback ∧
        destination? fallback input = some (a.run react input w).1.location) :=
    ⟨s.heard heard, .inl s.location⟩
  cases a with
  | proceed fallback =>
    cases goal : destination? fallback input with
    | none =>
      refine stays ?_
      simp only [run, goal]
      exact .refl w
    | some url =>
      obtain ⟨heard', there⟩ := World.navigate_led bystanding heard url
      simp only [run, goal]
      exact ⟨heard', .inr ⟨fallback, rfl, by rw [goal, there]⟩⟩
  | reload =>
    obtain ⟨heard', there⟩ := World.navigate_led bystanding heard w.element.location
    exact ⟨heard', .inl there⟩
  | emit type detail => exact stays (World.dispatch_stays bystanding heard _)
  | activate args => exact stays (World.dispatch_stays bystanding heard _)
  | submit data => exact stays (.of_element (w.submit_frame _).1)
  | delay pause => exact stays (.of_element (w.sleep_frame _ _).1)
  | okay pause => exact stays (World.showDecorator_stays _ _ _ w)
  | bummer pause => exact stays (World.showDecorator_stays _ _ _ w)
  | reset | clearErrors => exact stays (.of_element rfl)
  | _ => exact stays (.of_eq rfl rfl)

theorem Action.run_tame (bystanding : Bystanding P react) (a : Action) :
    Step.Tame P (a.run react) where
  heard input _ heard := (a.run_led bystanding input heard).1
  idle _ _ _ _ waits := a.run_idle react waits

/-- A submission that is entered here was answered with this. -/
def Served (react : React κ η fixed) (entries : List (Entry (World κ η fixed))) (r : Response) :
    Prop :=
  ∃ phase a input before, .starts phase (Action.run react a) input before ∈ entries ∧
    a.AnsweredIn before (.ok (some r))

/-- A place that these calls may lead to: one of them proceeds and says so, or a successful response
to a submission that is entered here does. -/
def Allowed (react : React κ η fixed) (calls : List Call) (entries : List (Entry (World κ η fixed)))
    (url : String) : Prop :=
  (∃ c ∈ calls, c.name = Action.proceedName ∧ c.args = [.string url]) ∨
    ∃ r, Served react entries r ∧ r.status = 200 ∧ r.namedUrl? = some url

theorem Call.args_of_writtenUrl? {c : Call} {url : String} (written : c.writtenUrl? = some url) :
    c.args = [.string url] := by
  rw [writtenUrl?] at written
  split at written
  · rename_i args
    rw [args, Option.some.inj written]
  · cases written

/-- A turn that is paired with a call has run the step of this call. -/
theorem Guided.taken {plan : List (Resolved Action)} {turns : List (Turn (World κ η fixed))}
    (guided : Guided react plan turns) {i : Nat} {p : Taken κ η fixed}
    (mem : p ∈ (plan.zip turns).take i) : p.2 ∈ turns.take i ∧ p.2.step = p.1.step.run react := by
  obtain ⟨j, found⟩ := List.mem_iff_getElem?.mp mem
  rw [List.getElem?_take] at found
  split at found
  · rename_i sooner
    obtain ⟨placed, taken⟩ := List.getElem?_zip_eq_some.mp found
    obtain ⟨r, placed', step⟩ := guided.steps j p.2 taken
    obtain rfl := Option.some.inj (placed.symm.trans placed')
    exact ⟨List.mem_of_getElem? ((List.getElem?_take_of_lt sooner).trans taken), step⟩
  · cases found

theorem Guided.allowed {calls : List Call} {plan : List (Resolved Action)}
    {turns : List (Turn (World κ η fixed))} (guided : Guided react plan turns)
    (resolved : List.Forall₂ Catalogue.actions.Resolves calls plan)
    (bystanding : Bystanding P react) {phase : Phase} {own : List (Entry (World κ η fixed))}
    {i : Nat} {t : Turn (World κ η fixed)} (found : turns[i]? = some t)
    (before : ∀ p ∈ turns.take i, .starts phase p.step p.input p.before ∈ own) {url : String}
    (moved : Entry.MovedTo P url (.starts phase t.step t.input t.before)) :
    Allowed react calls own url := by
  obtain ⟨heard, there, elsewhere⟩ := moved
  obtain ⟨r, placed, step⟩ := guided.steps i t found
  obtain ⟨c, called, resolves⟩ := getElem?_of_forall₂ resolved.flip placed
  have same : r.call = c := resolves.same
  rw [step] at there
  rcases (r.step.run_led bystanding t.input heard).2 with stayed | ⟨fallback, proceeds, goal⟩
  · exact absurd (stayed.symm.trans there) elsewhere
  have named : r.call.name = Action.proceedName := by
    rw [← Action.ofCall_name (Catalogue.made_of_resolves resolves), proceeds]
    rfl
  have written : fallback = r.call.writtenUrl? := by
    have fallback' := (same ▸ resolves).proceed named
    rw [proceeds] at fallback'
    exact Action.proceed.inj fallback'.1
  have fromCall (told : r.call.writtenUrl? = some url) : Allowed react calls own url :=
    .inl ⟨c, List.mem_of_getElem? called, same ▸ named, same ▸ Call.args_of_writtenUrl? told⟩
  rw [there, written] at goal
  have led := guided.proceeds i r t placed found named
  cases last : (((plan.zip turns).take i).filter Taken.isSubmission).getLast? with
  | none => exact fromCall ((Action.destination?_other (led.alone last).1).symm.trans goal)
  | some p =>
    obtain ⟨response, answered, ok, input, -⟩ := led.answered p last
    rw [input, Action.destination?_ok ok] at goal
    rcases Option.or_eq_some_iff.mp goal with told | ⟨-, told⟩
    · have earlier := (List.mem_filter.mp (List.mem_of_getLast? last)).1
      obtain ⟨entered, step⟩ := guided.taken earlier
      exact .inr ⟨response, ⟨phase, p.1.step, p.2.input, p.2.before, step ▸ before _ entered,
        answered⟩, ok, told⟩
    · exact fromCall told

theorem Allowed.mono {calls more : List Call} {entries further : List (Entry (World κ η fixed))}
    {url : String} (allowed : Allowed react calls entries url) (called : ∀ c ∈ calls, c ∈ more)
    (entered : ∀ x ∈ entries, x ∈ further) : Allowed react more further url := by
  rcases allowed with ⟨c, mem, written⟩ | ⟨r, ⟨phase, a, input, before, mem, answered⟩, follows⟩
  · exact .inl ⟨c, called c mem, written⟩
  · exact .inr ⟨r, ⟨phase, a, input, before, entered _ mem, answered⟩, follows⟩

end Places

namespace Button

/-- Wherever a step in the ledger has moved to, it was allowed to. -/
theorem Follows.allowed {P : κ → Prop} {react : React κ η fixed} (bystanding : Bystanding P react)
    {e : Expression} {plan : Chains Action} (planned : Catalogue.actions.build e = .ok plan)
    {first : Button κ η fixed} {moves : List (Move κ η fixed)} {n : Nat}
    {turns more : List (Turn (World κ η fixed))} {o : Outcome}
    (follows : Follows first moves n turns more o) (success : Guided react plan.success turns)
    (reject : Guided react plan.reject more) {x : Entry (World κ η fixed)}
    (mem : x ∈ ofNumber n (first.ledger moves)) {url : String} (moved : x.MovedTo P url) :
    Allowed react (e.success ++ e.reject) (ofNumber n (first.ledger moves)) url := by
  obtain ⟨calls, calls'⟩ := Catalogue.build_ok_iff.mp planned
  have starts (result : StepResult) (after : World κ η fixed) : x ≠ .settles result after := by
    rintro rfl
    exact moved
  rcases starts_of_prefix follows.entered mem starts with
    ⟨i, t, found, rfl, before⟩ | ⟨later, come, mem, kept⟩
  · exact (success.allowed calls bystanding found before moved).mono
      (fun c mem => List.mem_append_left _ mem) fun y mem => mem
  · rw [← List.append_nil (more.flatMap _)] at come
    rcases starts_of_prefix come mem starts with ⟨i, t, found, rfl, before⟩ | ⟨_, none, mem, -⟩
    · exact (reject.allowed calls' bystanding found before moved).mono
        (fun c mem => List.mem_append_right _ mem) kept
    · rw [List.prefix_nil.mp none] at mem
      cases mem

/-- Where a button navigates to, whatever the form answers and however activations overlap. In each
activation, a step that proceeds goes by the answer to the last submission before it in its chain,
or else by what is written in its call, and a reload goes nowhere. So while nobody else moves the
element, it is where it was at first, or at a place that a call names, or that a successful response
to a submission has named. -/
theorem navigation_guided (react : React κ η fixed) {e : Expression}
    {chains : Chains (Step (World κ η fixed))}
    (built : (Catalogue.ofActions (Action.run react)).build e = .ok chains)
    (w : World κ η fixed) (moves : List (Move κ η fixed)) :
    let first : Button κ η fixed := { chains, world := w }
    let b := first.run moves
    ∃ plan, Catalogue.actions.build e = .ok plan ∧ chains = plan.map (Action.run react) ∧
      (∀ n < b.started, Idles first moves n ∨ ∃ turns more o, Follows first moves n turns more o ∧
        Guided react plan.success turns ∧ Guided react plan.reject more) ∧
      ∀ P : κ → Prop, Bystanding P react → w.HeardBy P →
        (∀ f, .outside f ∈ moves → ∀ v, Stays P v (f v)) →
        b.world.location = w.location ∨ Allowed react (e.success ++ e.reject)
          ((first.ledger moves).map (·.2)) b.world.location := by
  intro first b
  obtain ⟨plan, planned, rfl⟩ := map_ok_iff.mp ((Catalogue.build_ofActions _ e).symm.trans built)
  have each (n : Nat) (born : n < b.started) : Idles first moves n ∨ ∃ turns more o,
      Follows first moves n turns more o ∧ Guided react plan.success turns ∧
        Guided react plan.reject more := by
    rcases activation_planned react plan w moves born with idles |
      ⟨turns, more, o, follows, v, last, law⟩
    · exact .inl idles
    · exact .inr ⟨turns, more, o, follows, law.guided planned⟩
  refine ⟨plan, planned, rfl, each, fun P bystanding heard outside => ?_⟩
  have tame (rs : List (Resolved Action)) :
      ∀ step ∈ (rs.map (·.map (Action.run react))).map (·.step), Step.Tame P step := by
    intro step mem
    rw [Resolved.map_steps] at mem
    obtain ⟨r, -, rfl⟩ := List.mem_map.mp mem
    exact r.step.run_tame bystanding
  have guarded : Guarded P first moves :=
    guarded_run (tame plan.success) (tame plan.reject) heard rfl outside
  refine guarded.traveled.imp id fun ⟨x, mem, moved⟩ => ?_
  obtain ⟨⟨n, x⟩, entered, rfl⟩ := List.mem_map.mp mem
  have own := mem_ofNumber.mpr entered
  have born : n < b.started := by
    by_contra late
    rw [((traced first.chains w moves).unborn n (Nat.le_of_not_lt late)).2.2] at own
    cases own
  rcases each n born with idles | ⟨turns, more, o, follows, success, reject⟩
  · rw [idles.silent] at own
    cases own
  · refine (follows.allowed bystanding planned success reject own moved).mono (fun c => id) ?_
    intro y mem
    exact List.mem_map.mpr ⟨(n, y), mem_ofNumber.mp mem, rfl⟩

open Bench

def nextExpression : Expression :=
  ⟨[⟨"submit", []⟩, ⟨"proceed", [.string "/done"]⟩], [⟨"proceed", [.string "/failed"]⟩]⟩

def nextPlan : Chains Action where
  success :=
    [⟨⟨"submit", []⟩, [], .submit none⟩,
      ⟨⟨"proceed", [.string "/done"]⟩, [.literal (.string "/done")], .proceed (some "/done")⟩]
  reject :=
    [⟨⟨"proceed", [.string "/failed"]⟩, [.literal (.string "/failed")], .proceed (some "/failed")⟩]

/-- The form of this page accepts the first submission after a while, and refuses the second. Both
answers name a place. -/
def nextWorld : SaveWorld where
  element := { id := "save", location := "/edit" }
  page := { replies :=
    [.slow 50 ⟨200, .object [("success_url", .string "/next")]⟩,
      .respond ⟨422, .object [("success_url", .string "/other")]⟩] }

/-- Two activations overlap; the second is refused and over before the first has its answer. -/
theorem navigation_guided_next :
    let react : React Unit ScriptedForm ⟨{}, ""⟩ := fun _ _ w => w
    let first : Button Unit ScriptedForm ⟨{}, ""⟩ :=
      { chains := nextPlan.map (Action.run react), world := nextWorld }
    let calls := nextExpression.success ++ nextExpression.reject
    let moves : List (Move Unit ScriptedForm ⟨{}, ""⟩) := [.activate, .activate]
    let further := moves ++ [.expire 50, .resume 0 .expired]
    (Catalogue.ofActions (Action.run react)).build nextExpression = .ok first.chains ∧
      (first.run moves).world.location = "/failed" ∧
      Allowed react calls ((first.ledger moves).map (·.2)) "/failed" ∧
      (first.run further).world.location = "/next" ∧
      Allowed react calls ((first.ledger further).map (·.2)) "/next" := by
  intro react first calls moves further
  have planned : Catalogue.actions.build nextExpression = .ok nextPlan := rfl
  have built : (Catalogue.ofActions (Action.run react)).build nextExpression =
      .ok first.chains := by
    rw [Catalogue.build_ofActions, planned]
    rfl
  have bystanding : Bystanding (fun _ => True) react := fun _ _ w _ => .refl w
  have heard : nextWorld.HeardBy fun _ => True := fun _ _ => trivial
  have refused : (first.run moves).world.location = "/failed" := rfl
  have answered : (first.run further).world.location = "/next" := rfl
  obtain ⟨-, -, -, -, places⟩ := navigation_guided react built nextWorld moves
  obtain ⟨-, -, -, -, places'⟩ := navigation_guided react built nextWorld further
  have allowed := places _ bystanding heard (by simp [moves])
  have allowed' := places' _ bystanding heard (by simp [moves, further])
  rw [show (_ : String) = "/failed" from refused] at allowed
  rw [show (_ : String) = "/next" from answered] at allowed'
  exact ⟨built, refused, allowed.resolve_left (by decide), answered,
    allowed'.resolve_left (by decide)⟩

end Button

end ActionChain
