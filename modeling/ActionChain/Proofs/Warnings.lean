import ActionChain.Proofs.Checking
import ActionChain.Proofs.Proceeding

/-!
What the warnings of a check are worth. Main statement `aimless_foretold`: a call that is reported
because it has no response to follow rejects whenever it is reached, and a call like it that is not
reported always has a response to follow.
-/
namespace ActionChain

namespace Call

/-- Whether the call at this place needs a response and has no `submit` before it. -/
def aimlessAt (calls : List Call) (i : Nat) : Bool :=
  calls[i]?.any needsResponse && !(calls.take i).any isSubmit

theorem aimlessAt_iff (calls : List Call) (i : Nat) : aimlessAt calls i = true ↔
    ∃ c, calls[i]? = some c ∧ c.needsResponse = true ∧ (calls.take i).any isSubmit = false := by
  rw [aimlessAt, Bool.and_eq_true, Bool.not_eq_true']
  cases calls[i]? <;> simp

theorem needsResponse_iff (c : Call) :
    c.needsResponse = true ↔ c.name = Action.proceedName ∧ c.args = [] := by
  simp [needsResponse, Action.proceedName]

theorem isSubmit_iff (c : Call) : c.isSubmit = true ↔ c.name = Action.submitName :=
  decide_eq_true_iff

theorem not_submit_of_needs {c : Call} (needs : c.needsResponse = true) : c.isSubmit = false := by
  have named := ((needsResponse_iff c).mp needs).1
  rw [isSubmit, named]
  decide

/-- A call is reported for each such place. -/
theorem aimless_length (calls : List Call) :
    (aimless calls).length = (List.range calls.length).countP (aimlessAt calls) := by
  induction calls with
  | nil => rfl
  | cons c rest ih =>
    have later (i : Nat) : aimlessAt (c :: rest) (i + 1) = (!c.isSubmit && aimlessAt rest i) := by
      simp [aimlessAt, Bool.and_left_comm]
    have first : aimlessAt (c :: rest) 0 = c.needsResponse := by simp [aimlessAt]
    rw [List.length_cons, List.range_succ_eq_map, List.countP_cons, List.countP_map, first]
    by_cases submits : c.isSubmit = true
    · have needless : c.needsResponse = false := by
        by_contra needs
        rw [not_submit_of_needs (by simpa using needs)] at submits
        cases submits
      simp [aimless, Function.comp_def, later, submits, needless]
    · have none_before : aimlessAt (c :: rest) ∘ Nat.succ = aimlessAt rest := by
        funext i
        simp [later, submits]
      rw [none_before, ← ih]
      cases needs : c.needsResponse <;> simp [aimless, submits, needs]

end Call

/-- The warning about a call that has no response to follow. -/
def Finding.isAimless (x : Finding) : Bool := x.id = "chain.W002"

theorem Finding.ofFault_not_aimless (source : String) (f : Fault) :
    (ofFault source f).isAimless = false := by
  cases f <;> simp [isAimless, ofFault, errorId]

/-- What is reported of an expression, place by place. -/
theorem Expression.warnings_aimless (e : Expression) : e.warnings.countP Finding.isAimless =
    (List.range e.success.length).countP (Call.aimlessAt e.success) := by
  have others (b : Bool) (x : Finding) (other : x.isAimless = false) :
      (if b then [x] else []).countP Finding.isAimless = 0 := by
    cases b <;> simp [other]
  have each : ((Call.aimless e.success).map fun _ => Finding.aimless).countP Finding.isAimless =
      (Call.aimless e.success).length := by
    rw [List.countP_map, List.countP_eq_length.mpr]
    intro c _
    rfl
  rw [warnings, List.countP_append, List.countP_append, others _ _ rfl, others _ _ rfl, each,
    Call.aimless_length, Nat.zero_add, Nat.add_zero]

theorem Catalogue.check_warnings {τ : Type} {c : Catalogue τ} {source : String} {chains : Chains τ}
    (compiled : c.compile source = .ok chains) : ∃ e, Expression.parse source = .ok e ∧
      c.build e = .ok chains ∧ c.check source = e.warnings := by
  rw [compile] at compiled
  rw [check]
  cases parsed : Expression.parse source with
  | error fault => simp [parsed] at compiled
  | ok e =>
    rw [parsed] at compiled
    exact ⟨e, rfl, compiled, by simp only [show c.build e = .ok chains from compiled]⟩

variable {κ η : Type} [Form η]

/-- What the warning, and its absence, foretell of an activation. -/
structure Foretold {fixed : Fixed} (e : Expression) (turns : List (Turn (World κ η fixed)))
    (o : Outcome) : Prop where
  rejects : ∀ i t, Call.aimlessAt e.success i = true → turns[i]? = some t → t.input = none ∧
    t.result = .error (.rejected (.error "Unable to proceed to next page"))
  unfulfilled : ∀ i v, Call.aimlessAt e.success i = true → o ≠ .fulfilled v
  follows : ∀ i c t, e.success[i]? = some c → c.needsResponse = true →
    Call.aimlessAt e.success i = false → turns[i]? = some t → ∃ r, t.input = some r ∧ r.status = 200

section Foretold

variable {fixed : Fixed} {react : React κ η fixed} {e : Expression} {plan : Chains Action}
  {turns more : List (Turn (World κ η fixed))} {o : Outcome} {i : Nat} {t : Turn (World κ η fixed)}

/-- What is handed to a step is a response if a call before it submits, and nothing otherwise. -/
theorem Threaded.input_iff (calls : plan.success.map (·.call) = e.success)
    (threaded : Threaded e plan turns more o) (found : turns[i]? = some t) :
    t.input.isSome = (e.success.take i).any Call.isSubmit := by
  have handed := threaded.success i t found
  have before : (plan.success.take i).length ≤ (turns.take i).length := by
    have taken := (List.getElem?_eq_some_iff.mp found).1
    simp only [List.length_take]
    omega
  have called : ((plan.success.zip turns).take i).map (·.1.call) = e.success.take i := by
    have steps := List.map_fst_zip before
    rw [← calls, ← List.map_take, ← congrArg (List.map (·.call)) steps, List.map_map,
      List.zip_eq_zipWith, List.take_zipWith, List.zip_eq_zipWith]
    rfl
  rw [Bool.eq_iff_iff, handed.isSome_iff, ← called, List.any_map, List.any_eq_true]
  simp only [Function.comp_apply, Call.isSubmit_iff]

theorem Execution.foretold (planned : Catalogue.actions.build e = .ok plan)
    {w last : World κ η fixed} (law : Execution (plan.success.map fun r => r.step.run react)
      (plan.reject.map fun r => r.step.run react) w turns more o last) : Foretold e turns o := by
  have threaded := law.threaded planned
  obtain ⟨calls, -, -⟩ := Catalogue.build_actions planned
  obtain ⟨resolved, -⟩ := Catalogue.build_ok_iff.mp planned
  obtain ⟨result, last', run, fulfilled⟩ := law.success_run
  have rejects (i : Nat) (t : Turn (World κ η fixed))
      (aimless : Call.aimlessAt e.success i = true) (found : turns[i]? = some t) :
      t.input = none ∧
        t.result = .error (.rejected (.error "Unable to proceed to next page")) := by
    obtain ⟨c, called, needs, quiet⟩ := (Call.aimlessAt_iff _ i).mp aimless
    obtain ⟨named, empty⟩ := (Call.needsResponse_iff c).mp needs
    obtain ⟨r, placed, resolves⟩ := getElem?_of_forall₂ resolved called
    have step := run.step_eq placed found
    rw [(resolves.proceed named).1, Call.writtenUrl?, empty] at step
    have nothing : t.input = none := by
      rw [← Option.not_isSome_iff_eq_none, threaded.input_iff calls found, quiet]
      exact Bool.false_ne_true
    have goes := (run.turn found).1.goes step
    rw [nothing] at goes
    exact ⟨nothing, goes.1⟩
  refine ⟨rejects, fun i v aimless done => ?_, fun i c t called needs heeded found => ?_⟩
  · obtain ⟨all, -⟩ := threaded.fulfilled v done
    obtain ⟨c, called, -⟩ := (Call.aimlessAt_iff _ i).mp aimless
    have reached : i < turns.length := by
      rw [all, ← List.length_map (·.call), calls]
      exact (List.getElem?_eq_some_iff.mp called).1
    have failed := (rejects i turns[i] aimless (List.getElem?_eq_getElem reached)).2
    have ended := run.fails (List.getElem_mem reached) failed
    cases (fulfilled v done).symm.trans ended
  · have some : t.input.isSome := by
      rw [threaded.input_iff calls found]
      by_contra quiet
      rw [(Call.aimlessAt_iff _ i).mpr ⟨c, called, needs, by simpa using quiet⟩] at heeded
      cases heeded
    obtain ⟨r, given⟩ := Option.isSome_iff_exists.mp some
    exact ⟨r, given, Handed.status (given ▸ threaded.success i t found)⟩

end Foretold

namespace Button

/-- The warning is right about the engine, for any text, whatever the settings, the form and the
listeners are and however the activations overlap. It stands once for each place that it is about; a
call there rejects if it is reached, so nothing is ever fulfilled. Every other call like it is only
reached with a response to follow. -/
theorem aimless_foretold (settings : ButtonSettings) (element : Element κ) (page : η)
    (react : React κ η ⟨settings, element.classes.text⟩) (source : String) :
    let catalogue := Catalogue.ofActions (Action.run react)
    let made := create settings element page catalogue source
    let reported := (catalogue.check source).countP Finding.isAimless
    (0 < reported → ∃ b, made = .ok b) ∧
      ∀ b, made = .ok b → ∃ e, Expression.parse source = .ok e ∧
        reported = (List.range e.success.length).countP (Call.aimlessAt e.success) ∧
        ∀ moves,
          (0 < reported → ∀ n v, (n, .outcome (.fulfilled v)) ∉ (b.run moves).endings) ∧
          ∀ n < (b.run moves).started, Idles b moves n ∨
            ∃ turns more o, Follows b moves n turns more o ∧ Foretold e turns o := by
  intro catalogue made reported
  cases compiled : catalogue.compile source with
  | error f =>
    have unmade : made = .error (.construction element.id f) := by
      simp only [made, create, compiled]
    have unreported : reported = 0 := by
      simp [reported, Catalogue.check_of_error compiled, Finding.ofFault_not_aimless]
    refine ⟨fun some => absurd unreported (Nat.ne_of_gt some), fun b done => ?_⟩
    cases unmade.symm.trans done
  | ok chains =>
    obtain ⟨e, parsed, built, warned⟩ := Catalogue.check_warnings compiled
    obtain ⟨plan, planned, rfl⟩ := map_ok_iff.mp ((Catalogue.build_ofActions _ e).symm.trans built)
    have created : made = .ok (ofChains settings element page (plan.map (Action.run react))) := by
      simp only [made, create, compiled]
    refine ⟨fun _ => ⟨_, created⟩, fun b done => ?_⟩
    obtain rfl := Except.ok.inj (created.symm.trans done)
    have counted : reported = (List.range e.success.length).countP (Call.aimlessAt e.success) := by
      simp only [reported, warned, e.warnings_aimless]
    refine ⟨e, parsed, counted, fun moves => ?_⟩
    set b := ofChains settings element page (plan.map (Action.run react))
    have each (n : Nat) (born : n < (b.run moves).started) : Idles b moves n ∨
        ∃ turns more o, Follows b moves n turns more o ∧ Foretold e turns o := by
      rcases activation_planned react plan { element, page } moves born with idles |
        ⟨turns, more, o, follows, v, last, law⟩
      · exact .inl idles
      · exact .inr ⟨turns, more, o, follows, law.foretold planned⟩
    refine ⟨fun some n v ending => ?_, each⟩
    rw [counted, List.countP_pos_iff] at some
    obtain ⟨i, -, aimless⟩ := some
    have ended := mem_ofNumber.mpr ending
    have born : n < (b.run moves).started := by
      by_contra late
      have unborn := (traced b.chains b.world moves).unborn n (Nat.le_of_not_lt late)
      rw [show ofNumber n (b.run moves).endings = [] from unborn.2.1] at ended
      cases ended
    rcases each n born with idles | ⟨turns, more, o, follows, foretold⟩
    · rw [idles.skipped] at ended
      cases List.mem_singleton.mp ended
    · exact foretold.unfulfilled i v aimless (follows.ended _ ended).1.symm

open Bench in
theorem aimless_foretold_proceed :
    let element : Element Unit := { id := "save" }
    let react : React Unit ScriptedForm ⟨{}, element.classes.text⟩ := fun _ _ w => w
    let catalogue := Catalogue.ofActions (Action.run react)
    let e : Expression := ⟨[⟨"proceed", []⟩], []⟩
    ∃ b, create {} element {} catalogue "proceed" = .ok b ∧
      (catalogue.check "proceed").countP Finding.isAimless = 1 ∧ (b.run [.activate]).started = 1 ∧
      ∃ turns more o, Follows b [.activate] 0 turns more o ∧ Foretold e turns o := by
  intro element react catalogue e
  have parsed : Expression.parse "proceed" = .ok e := by rfl
  have planned : Catalogue.actions.build e = .ok ⟨[⟨⟨"proceed", []⟩, [], .proceed none⟩], []⟩ := rfl
  have built : ∃ chains, catalogue.build e = .ok chains :=
    ⟨_, (Catalogue.build_ofActions _ e).trans (congrArg (Chains.map _ <$> ·) planned)⟩
  obtain ⟨chains, built⟩ := built
  have created :
      create {} element {} catalogue "proceed" = .ok (ofChains {} element {} chains) := by
    simp only [create, Catalogue.compile, parsed, built]
  obtain ⟨-, foretold⟩ := aimless_foretold {} element {} react "proceed"
  obtain ⟨e', parsed', counted, foretold⟩ := foretold _ created
  obtain rfl := Except.ok.inj (parsed.symm.trans parsed')
  have started : ((ofChains {} element {} chains).run [.activate]).started = 1 := activate_started _
  have first := (foretold [.activate]).2 0 (started ▸ Nat.zero_lt_one)
  rcases first with idles | followed
  · exact absurd idles.policy (by decide)
  · exact ⟨_, created, counted, started, followed⟩

end Button

end ActionChain
