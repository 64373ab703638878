import ActionChain.Proofs.Building

/-!
What the catalogue of all actions makes of an expression. Every step is an action that goes by the
name of its call, and what the actions are embedded into does not matter. Main statement
`build_ofActions`: building with embedded actions is building with plain ones, embedded afterwards.
-/
namespace ActionChain

section Maps

variable {α β γ ε : Type}

theorem mapM_map {f : α → Except ε β} (g : β → γ) (xs : List α) :
    xs.mapM (fun x => g <$> f x) = List.map g <$> xs.mapM f := by
  induction xs with
  | nil => rfl
  | cons x xs ih =>
    rw [List.mapM_cons, List.mapM_cons, ih]
    cases f x with
    | error e => rfl
    | ok y => cases xs.mapM f <;> rfl

end Maps

namespace Action

def name : Action → String
  | .disable => "disable"
  | .enable => "enable"
  | .addClass _ => "addClass"
  | .removeClass _ => "removeClass"
  | .toggleClass _ => "toggleClass"
  | .submit _ => "submit"
  | .reset => "reset"
  | .clearErrors => "clearErrors"
  | .proceed _ => "proceed"
  | .reload => "reload"
  | .emit .. => "emit"
  | .activate _ => "activate"
  | .delay _ => "delay"
  | .spinner => "spinner"
  | .okay _ => "okay"
  | .bummer _ => "bummer"
  | .intercept => "intercept"
  | .noop => "noop"

theorem noArguments_ok {name : String} {args : List Bound} {a b : Action}
    (made : noArguments name args a = .ok b) : b = a := by
  rw [noArguments] at made
  split at made
  · exact (Except.ok.inj made).symm
  · cases made

/-- An action goes by the name under which it was called. -/
theorem ofCall_name {name : String} {args : List Bound} {a : Action}
    (made : ofCall name args = .ok a) : a.name = name := by
  revert made
  fun_cases ofCall name args with
  | case1 | case2 | case7 | case8 | case10 | case17 | case20 | case21 =>
    intro made
    rw [noArguments_ok made]
    rfl
  | case3 | case4 | case5 | case6 | case9 | case11 | case12 | case15 | case18 | case19 =>
    intro made
    obtain ⟨x, -, rfl⟩ := map_ok_iff.mp made
    rfl
  | case13 | case16 | case22 =>
    intro made
    cases made
  | case14 =>
    intro made
    cases made
    rfl

end Action

variable {τ υ : Type}

def Resolved.map (f : τ → υ) (r : Resolved τ) : Resolved υ := ⟨r.call, r.arguments, f r.step⟩

theorem Resolved.map_steps (f : τ → υ) (rs : List (Resolved τ)) :
    (rs.map (·.map f)).map (·.step) = rs.map fun r => f r.step := List.map_map

def Chains.map (f : τ → υ) (c : Chains τ) : Chains υ :=
  ⟨c.success.map (·.map f), c.reject.map (·.map f)⟩

namespace Catalogue

theorem find?_registerAll (makers : String → Maker τ) (names : List String) (c : Catalogue τ)
    (name : String) : (names.foldl (fun c n => c.register n (makers n)) c).find? name =
      if name ∈ names then some (makers name) else c.find? name := by
  induction names generalizing c with
  | nil => simp
  | cons n rest ih =>
    rw [List.foldl_cons, ih, find?_register]
    by_cases later : name ∈ rest
    · simp [later]
    · by_cases now : name = n <;> simp [later, now]

theorem find?_ofActions (embed : Action → τ) (name : String) : (ofActions embed).find? name =
    if name ∈ Action.names then some fun args => embed <$> Action.ofCall name args else none :=
  find?_registerAll (fun name args => embed <$> Action.ofCall name args) Action.names empty name

theorem resolve_ofActions (embed : Action → τ) (call : Call) :
    (ofActions embed).resolve call = Resolved.map embed <$> actions.resolve call := by
  have embedded := find?_ofActions embed call.name
  have plain := find?_ofActions id call.name
  by_cases known : call.name ∈ Action.names
  · rw [if_pos known] at embedded plain
    rw [actions, resolve_known embedded, resolve_known plain]
    cases call.args.mapM (Bound.bind call.name) with
    | error f => rfl
    | ok args =>
      cases made : Action.ofCall call.name args <;>
        simp [made, bind, Except.bind, Functor.map, Except.map, pure, Except.pure, Resolved.map]
  · rw [if_neg known] at embedded plain
    rw [actions, resolve_unknown embedded, resolve_unknown plain]
    rfl

/-- What the actions are embedded into has no influence on what can be built. -/
theorem build_ofActions (embed : Action → τ) (e : Expression) :
    (ofActions embed).build e = Chains.map embed <$> actions.build e := by
  have resolves : (ofActions embed).resolve =
      fun call => Resolved.map embed <$> actions.resolve call := funext (resolve_ofActions embed)
  rw [build, build, resolves, mapM_map, mapM_map]
  cases e.success.mapM actions.resolve with
  | error f => rfl
  | ok success => cases e.reject.mapM actions.resolve <;> rfl

theorem made_of_resolves {call : Call} {r : Resolved Action} (resolves : actions.Resolves call r) :
    Action.ofCall r.call.name r.arguments = .ok r.step := by
  obtain ⟨rfl, -, maker, found, made⟩ := resolves
  rw [actions, find?_ofActions] at found
  split at found
  · cases found
    obtain ⟨a, made, rfl⟩ := map_ok_iff.mp made
    exact made
  · cases found

/-- What is built resolves the calls of the expression, each to the action that its name and its
arguments make. -/
theorem build_actions {e : Expression} {plan : Chains Action} (built : actions.build e = .ok plan) :
    plan.success.map (·.call) = e.success ∧ plan.reject.map (·.call) = e.reject ∧
      ∀ r ∈ plan.success ++ plan.reject, Action.ofCall r.call.name r.arguments = .ok r.step := by
  have made {calls : List Call} {rs : List (Resolved Action)}
      (resolved : List.Forall₂ actions.Resolves calls rs) (r : Resolved Action) (mem : r ∈ rs) :
      Action.ofCall r.call.name r.arguments = .ok r.step :=
    made_of_resolves (resolves_of_mem resolved r mem)
  obtain ⟨first, second⟩ := build_ok_iff.mp built
  exact ⟨calls_of_resolves first, calls_of_resolves second,
    List.forall_mem_append.mpr ⟨made first, made second⟩⟩

end Catalogue

end ActionChain
