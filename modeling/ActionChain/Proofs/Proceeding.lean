import ActionChain.Proofs.Handing
import ActionChain.Proofs.Interleaving
import ActionChain.Proofs.Signatures

/-!
Steps that proceed, among the steps of many activations that overlap. A call of `proceed` that can
be built has no argument or an address written out; where its step goes depends on nothing but that
address and its input. Main statement `activation_planned`: what an activation does among others is
a run by the law of the actions of its expression.
-/
namespace ActionChain

section Chains

variable {σ : Type} {steps : List (Step σ)} {value : Option Response} {s s' : σ}
  {turns : List (Turn σ)} {result : StepResult}

theorem ChainRun.turn (run : ChainRun steps value s turns result s') {i : Nat} {t : Turn σ}
    (found : turns[i]? = some t) : t.Genuine ∧ steps[i]? = some t.step := by
  induction run generalizing i with
  | completed => cases found
  | failed rest genuine failed =>
    cases i with
    | zero =>
      obtain rfl := Option.some.inj found
      exact ⟨genuine, rfl⟩
    | succ i => cases found
  | next genuine ok run ih =>
    cases i with
    | zero =>
      obtain rfl := Option.some.inj found
      exact ⟨genuine, rfl⟩
    | succ i => exact ih found

/-- A chain fails as the turn in it fails. -/
theorem ChainRun.fails (run : ChainRun steps value s turns result s') {t : Turn σ} {f : Failure}
    (mem : t ∈ turns) (failed : t.result = .error f) : result = .error f := by
  induction run with
  | completed => cases mem
  | failed rest genuine failed' =>
    obtain rfl := List.mem_singleton.mp mem
    exact failed'.symm.trans failed
  | next genuine ok run ih =>
    rcases List.mem_cons.mp mem with rfl | later
    · cases ok.symm.trans failed
    · exact ih later

theorem Execution.success_run {success reject : List (Step σ)} {more : List (Turn σ)} {o : Outcome}
    (law : Execution success reject s turns more o s') : ∃ result last,
      ChainRun success none s turns result last ∧ ∀ v, o = .fulfilled v → result = .ok v := by
  cases law with
  | direct run final =>
    rename_i r
    refine ⟨r, s', run, fun v done => ?_⟩
    rcases r with (why | _) | value
    · cases done
    · cases done
    · exact congrArg Except.ok (Outcome.fulfilled.inj done)
  | viaReject run some run' =>
    rename_i why r t
    refine ⟨_, t, run, fun v done => ?_⟩
    rcases r with (why | _) | value <;> cases done

/-- What is entered of an activation, up to the start of a turn, are the turns before it. -/
theorem starts_of_prefix {phase : Phase} {turns : List (Turn σ)}
    {own rest : List (Entry σ)}
    (entered : own <+: turns.flatMap (·.entries phase) ++ rest) {x : Entry σ}
    (mem : x ∈ own) (starts : ∀ result after, x ≠ .settles result after) :
    (∃ i t, turns[i]? = some t ∧ x = .starts phase t.step t.input t.before ∧
        ∀ p ∈ turns.take i, .starts phase p.step p.input p.before ∈ own) ∨
      ∃ later, later <+: rest ∧ x ∈ later ∧ ∀ y ∈ later, y ∈ own := by
  induction turns generalizing own with
  | nil => exact .inr ⟨own, entered, mem, fun y => id⟩
  | cons t turns ih =>
    -- of the first turn, all may be entered, or its start alone, or nothing
    have parts : (t :: turns).flatMap (·.entries phase) ++ rest =
        .starts phase t.step t.input t.before :: .settles t.result t.after ::
          (turns.flatMap (·.entries phase) ++ rest) := rfl
    rw [parts] at entered
    rcases List.prefix_cons_iff.mp entered with rfl | ⟨next, rfl, entered'⟩
    · cases mem
    rcases List.mem_cons.mp mem with rfl | mem
    · exact .inl ⟨0, t, rfl, rfl, by simp⟩
    rcases List.prefix_cons_iff.mp entered' with rfl | ⟨own, rfl, further⟩
    · cases mem
    rcases List.mem_cons.mp mem with rfl | mem
    · exact absurd rfl (starts _ _)
    have kept : ∀ y ∈ own, y ∈ Entry.starts phase t.step t.input t.before ::
        .settles t.result t.after :: own := by
      intro y mem
      simp [mem]
    rcases ih further mem with ⟨i, u, found, same, before⟩ | ⟨later, come, mem, all⟩
    · refine .inl ⟨i + 1, u, found, same, fun p earlier => ?_⟩
      rcases List.mem_cons.mp earlier with rfl | earlier
      · exact List.mem_cons_self
      · exact kept _ (before p earlier)
    · exact .inr ⟨later, come, mem, fun y mem => kept y (all y mem)⟩

end Chains

/-- The address that the body of a response names. -/
def Response.namedUrl? (r : Response) : Option String :=
  match r.body with
  | .object ms => match ms.lookup "success_url" with
    | some (.string url) => some url
    | _ => none
  | _ => none

theorem Response.successUrl?_eq (r : Response) : r.successUrl? = r.namedUrl? := by
  rcases r with ⟨status, body⟩
  cases body with
  | object ms =>
    simp only [successUrl?, namedUrl?, Json.member?, Members.find?]
    cases ms.lookup "success_url" with
    | none => rfl
    | some v => cases v <;> rfl
  | _ => rfl

namespace Action

theorem destination?_eq (fallback : Option String) (input : Option Response) :
    destination? fallback input =
      ((input.filter (·.status = 200)).bind Response.namedUrl?).or fallback := by
  rw [destination?, funext Response.successUrl?_eq]
  rfl

theorem destination?_ok {fallback : Option String} {r : Response} (ok : r.status = 200) :
    destination? fallback (some r) = r.namedUrl?.or fallback := by
  simp [destination?_eq, Option.filter, ok]

/-- Only a successful response is followed. -/
theorem destination?_other {fallback : Option String} {input : Option Response}
    (other : ∀ r, input = some r → r.status ≠ 200) : destination? fallback input = fallback := by
  have none : input.filter (·.status = 200) = none := by simpa using other
  rw [destination?_eq, none, Option.bind_none, Option.none_or]

end Action

/-- The address that is written out in a call. -/
def Call.writtenUrl? (c : Call) : Option String :=
  match c.args with
  | [.string url] => some url
  | _ => none

theorem Argument.json?_string {a : Argument} {s : String} (read : a.json? = some (.string s)) :
    a = .string s := by
  cases a with
  | string t =>
    obtain rfl := Json.string.inj (Option.some.inj read)
    rfl
  | number x =>
    rw [json?] at read
    split at read <;> cases read
  | array | object =>
    obtain ⟨_, -, other⟩ := Option.map_eq_some_iff.mp read
    cases other
  | null | bool | call => cases read

namespace Bound

variable {action : String} {a : Argument} {b : Bound} {s : String}

theorem literalOf_string (bound : literalOf action a = .ok b) (text : b.string? = some s) :
    a = .string s := by
  rw [literalOf] at bound
  cases read : a.json? with
  | none =>
    rw [read] at bound
    cases bound
  | some v =>
    rw [read] at bound
    obtain rfl := Except.ok.inj bound
    cases v with
    | string t =>
      obtain rfl := Option.some.inj text
      exact Argument.json?_string read
    | _ => cases text

theorem literal?_call {name : String} {args : List Argument}
    (bound : bind action (.call name args) = .ok b) : b.literal? = none := by
  match args with
  | [] | _ :: _ :: _ =>
    simp only [bind] at bound
    split_ifs at bound
  | [a] =>
    simp only [bind] at bound
    split_ifs at bound <;> obtain ⟨_, -, rfl⟩ := map_ok_iff.mp bound <;> rfl

/-- What is bound to a text is that text, written out. -/
theorem bind_string (bound : bind action a = .ok b) (text : b.string? = some s) :
    a = .string s := by
  have literal (other : b.literal? = none) : a = .string s := by
    rw [string?, other] at text
    cases text
  cases a with
  | null | bool | number | string => exact literalOf_string bound text
  | array | object =>
    rw [bind] at bound
    split at bound
    · obtain ⟨_, -, rfl⟩ := map_ok_iff.mp bound
      exact literal rfl
    · exact literalOf_string bound text
  | call name args => exact literal (literal?_call bound)

end Bound

theorem Action.fallbackUrl_ok {action : String} {args : List Bound} {fallback : Option String}
    (taken : fallbackUrl action args = .ok fallback) : args = [] ∧ fallback = none ∨
      ∃ b url, args = [b] ∧ b.string? = some url ∧ fallback = some url := by
  have takes := ((fallbackUrl_settles action args).gives fallback).mp taken
  rcases takes_optional.mp takes with nothing | one
  · obtain ⟨none, kept⟩ := takes_nothing.mp nothing
    cases fallback <;> cases kept
    exact .inl ⟨none, rfl⟩
  · obtain ⟨b, h, given, kept, first⟩ := takes_one.mp one
    cases fallback <;> cases kept
    exact .inr ⟨b, _, given, takes_url.mp first, rfl⟩

namespace Catalogue

variable {call : Call} {r : Resolved Action}

/-- A step that proceeds falls back to the address that is written out in its call. -/
theorem Resolves.proceed (resolves : actions.Resolves call r)
    (named : call.name = Action.proceedName) : r.step = .proceed call.writtenUrl? ∧
      (call.args = [] ∨ ∃ url, call.args = [.string url]) := by
  have made := made_of_resolves resolves
  obtain ⟨same, bound, -⟩ := resolves
  rw [same, named] at made
  obtain ⟨fallback, taken, step⟩ := map_ok_iff.mp made
  rcases Action.fallbackUrl_ok taken with ⟨none, rfl⟩ | ⟨b, url, one, text, rfl⟩
  · rw [none] at bound
    have empty := List.forall₂_nil_right_iff.mp bound
    refine ⟨?_, .inl empty⟩
    rw [← step, Call.writtenUrl?, empty]
  · rw [one] at bound
    obtain ⟨a, rest, first, nothing, written⟩ := List.forall₂_cons_right_iff.mp bound
    rw [List.forall₂_nil_right_iff.mp nothing, Bound.bind_string first text] at written
    refine ⟨?_, .inr ⟨url, written⟩⟩
    rw [← step, Call.writtenUrl?, written]

end Catalogue

section Turns

variable {κ η : Type} {fixed : Fixed}

/-- Where a turn goes that proceeds: the element is there, then the listeners are told. Without a
place to go to it rejects. -/
def Turn.Goes (react : React κ η fixed) (t : Turn (World κ η fixed)) : Option String → Prop
  | some url =>
    let there : World κ η fixed :=
      { t.before with element := { t.before.element with location := url } }
    t.result = .ok t.input ∧
      t.after = (there.dispatch react ⟨"navigate", .object [("url", .string url)]⟩).1
  | none => t.result = .error (.rejected (.error "Unable to proceed to next page")) ∧
    t.after = t.before

variable [Form η] {react : React κ η fixed} {t : Turn (World κ η fixed)}

/-- A step that does not wait makes the turn that it says. -/
theorem Turn.Genuine.settles {σ : Type} {t : Turn σ} (genuine : t.Genuine) {s : σ} {r : StepResult}
    (did : t.step t.input t.before = (s, .settled r)) : t.after = s ∧ t.result = r := by
  cases genuine with
  | settled did' =>
    obtain ⟨after, result⟩ := Prod.mk.inj (did'.symm.trans did)
    exact ⟨after, Progress.settled.inj result⟩
  | waited did' => cases did'.symm.trans did

theorem ChainRun.step_eq {plan : List (Resolved Action)} {value : Option Response}
    {s s' : World κ η fixed} {turns : List (Turn (World κ η fixed))} {result : StepResult}
    (run : ChainRun (plan.map fun r => r.step.run react) value s turns result s') {i : Nat}
    {r : Resolved Action} (placed : plan[i]? = some r) (found : turns[i]? = some t) :
    t.step = r.step.run react := by
  have taken := (run.turn found).2
  rw [List.getElem?_map, placed] at taken
  exact (Option.some.inj taken).symm

theorem Turn.Genuine.goes (genuine : t.Genuine) {fallback : Option String}
    (step : t.step = (Action.proceed fallback).run react) :
    t.Goes react (Action.destination? fallback t.input) := by
  cases goal : Action.destination? fallback t.input with
  | some url =>
    have did : t.step t.input t.before = (t.before.navigate react url, .settled (.ok t.input)) := by
      simp only [step, Action.run, goal]
    exact (genuine.settles did).symm
  | none =>
    have did : t.step t.input t.before = (t.before,
        .settled (.error (.rejected (.error "Unable to proceed to next page")))) := by
      simp only [step, Action.run, goal]
    exact (genuine.settles did).symm

end Turns

theorem mem_ofNumber {α : Type} {n : Nat} {x : α} {tagged : List (Nat × α)} :
    x ∈ ofNumber n tagged ↔ (n, x) ∈ tagged := by
  simp [ofNumber]

namespace Button

variable {κ η : Type} {fixed : Fixed} [Form η]

/-- What has become of an activation that was started after some moves: as much of a run by the law
as is in the ledger, and the whole run when it has ended. -/
structure Follows (first : Button κ η fixed) (moves : List (Move κ η fixed)) (n : Nat)
    (turns more : List (Turn (World κ η fixed))) (o : Outcome) : Prop where
  started : ∃ earlier, earlier ++ [.activate] <+: moves ∧ (first.run earlier).started = n ∧
    ∃ last, Execution first.success first.reject (first.run earlier).world turns more o last
  entered : ofNumber n (first.ledger moves) <+:
    turns.flatMap (·.entries .success) ++ more.flatMap (·.entries .reject)
  ended : ∀ o', .outcome o' ∈ ofNumber n (first.run moves).endings → o' = o ∧
    ofNumber n (first.ledger moves) =
      turns.flatMap (·.entries .success) ++ more.flatMap (·.entries .reject)

/-- An activation that was skipped. -/
structure Idles (first : Button κ η fixed) (moves : List (Move κ η fixed)) (n : Nat) : Prop where
  policy : fixed.settings.reentrancy = .ignore
  skipped : ofNumber n (first.run moves).endings = [.outcome .skipped]
  silent : ofNumber n (first.ledger moves) = []

/-- However the activations of a button overlap, each runs by the law of its actions. -/
theorem activation_planned (react : React κ η fixed) (plan : Chains Action) (w : World κ η fixed)
    (moves : List (Move κ η fixed)) {n : Nat} :
    let first : Button κ η fixed := { chains := plan.map (Action.run react), world := w }
    n < (first.run moves).started → Idles first moves n ∨
      ∃ turns more o, Follows first moves n turns more o ∧
        ∃ v last, Execution (plan.success.map fun r => r.step.run react)
          (plan.reject.map fun r => r.step.run react) v turns more o last := by
  intro first born
  have success : first.success = plan.success.map fun r => r.step.run react :=
    Resolved.map_steps (Action.run react) plan.success
  have reject : first.reject = plan.reject.map fun r => r.step.run react :=
    Resolved.map_steps (Action.run react) plan.reject
  rcases (traced first.chains w moves).each n born with skipped | ⟨earlier, waits, begun⟩
  · exact .inl ⟨skipped.policy, skipped.endings, skipped.silent⟩
  · obtain ⟨turns, more, o, last, law, entered, ended⟩ := begun.lawful
    have started : ∃ before, before ++ [.activate] <+: moves ∧ (first.run before).started = n ∧
        ∃ last, Execution first.success first.reject (first.run before).world turns more o last :=
      ⟨earlier, begun.called, begun.numbered, last, law⟩
    rw [success, reject] at law
    exact .inr ⟨turns, more, o, ⟨started, entered, ended⟩, _, last, law⟩

end Button

end ActionChain
