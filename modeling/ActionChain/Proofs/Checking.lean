import ActionChain.Bench.ScriptedForm
import ActionChain.Button
import ActionChain.Check
import ActionChain.Proofs.Signatures

/-!
Checking an expression and making a button with it. Main statement `check_agrees`: a check has one
finding, an error, if no button can be made, and the error is worded like the fault that the making
ends with; otherwise there are warnings at most.
-/
namespace ActionChain

/-- Whether the fault lies in an expression itself: in its form, in a name or in arguments. -/
def Fault.inExpression : Fault → Bool
  | .malformed _ | .unknownAction _ | .badArguments .. => true
  | _ => false

/-- The id of a finding, by the kind of its fault. -/
inductive Fault.HasId : Fault → String → Prop
  | malformed (e : SyntaxError) : HasId (.malformed e) "syntax.E001"
  | unknownAction (name : String) : HasId (.unknownAction name) "names.E001"
  | badArguments (action : String) (why : ArgumentFault) :
    HasId (.badArguments action why) "arguments.E001"

theorem Finding.errorId_of_inExpression {f : Fault} (inside : f.inExpression = true) :
    f.HasId (errorId f) := by
  cases f with
  | malformed e => exact .malformed e
  | unknownAction name => exact .unknownAction name
  | badArguments action why => exact .badArguments action why
  | _ => cases inside

section Faults

theorem Argument.problems_inExpression (action : String) (a : Argument) :
    ∀ f ∈ a.problems action, f.inExpression = true := by
  have numbers (a : Argument) : ∀ f ∈ a.numberProblems action, f.inExpression = true := by
    intro f member
    obtain ⟨x, -, rfl⟩ := List.mem_map.mp member
    rfl
  have head (name : String) (given : Nat) :
      ∀ f ∈ headProblems name given, f.inExpression = true := by
    intro f member
    rw [headProblems] at member
    split_ifs at member
    · rw [List.mem_singleton.mp member]
      rfl
    · rw [List.mem_singleton.mp member]
      rfl
    · cases member
  have path (a : Argument) : ∀ f ∈ a.pathProblems, f.inExpression = true := by
    intro f member
    rw [pathProblems] at member
    split_ifs at member
    · cases member
    · rw [List.mem_singleton.mp member]
      rfl
  induction a using nested_induction with
  | null | bool | string | number => exact numbers _
  | array items each =>
    rw [problems, itemProblems_eq]
    split
    · exact List.forall_mem_flatMap.mpr each
    · exact numbers _
  | object ms each =>
    rw [problems, memberProblems_eq]
    split
    · exact List.forall_mem_flatMap.mpr each
    · exact numbers _
  | call name args each =>
    rw [problems, itemProblems_eq]
    refine List.forall_mem_append.mpr ⟨head name args.length, ?_⟩
    split
    · exact List.forall_mem_flatMap.mpr fun a _ => path a
    · exact List.forall_mem_flatMap.mpr each

theorem Bound.bind_inExpression {action : String} {a : Argument} {f : Fault}
    (refused : bind action a = .error f) : f.inExpression = true := by
  have first := (bind_follows action .null a).error_iff.mp refused
  exact a.problems_inExpression action f (List.mem_of_mem_head? first)

end Faults

theorem Expression.warnings_severity (e : Expression) :
    ∀ x ∈ e.warnings, x.severity = .warning := by
  intro x member
  rw [warnings, List.mem_append, List.mem_append] at member
  rcases member with (member | member) | member
  · split at member
    · rw [List.mem_singleton.mp member]
      rfl
    · cases member
  · obtain ⟨call, -, rfl⟩ := List.mem_map.mp member
    rfl
  · split at member
    · rw [List.mem_singleton.mp member]
      rfl
    · cases member

theorem Action.ofCall_inExpression {name : String} {args : List Bound} {f : Fault}
    (refused : ofCall name args = .error f) : f.inExpression = true := by
  by_cases known : name ∈ names
  · obtain ⟨why, rfl⟩ := ofCall_refuses known refused
    rfl
  · cases (ofCall_unknown known).symm.trans refused
    rfl

namespace Catalogue

variable {τ : Type} {c : Catalogue τ} {source : String} {f : Fault}

/-- The makers find fault with nothing but expressions. -/
def Exact (c : Catalogue τ) : Prop :=
  ∀ name maker args f, c.find? name = some maker → maker args = .error f → f.inExpression = true

theorem Refuses.inExpression {call : Call} (refuses : c.Refuses call f) (exact : c.Exact) :
    f.inExpression = true := by
  cases refuses with
  | name => rfl
  | argument found parts good failed => exact Bound.bind_inExpression failed
  | maker found bound refused => exact exact _ _ _ _ found refused

theorem build_inExpression {e : Expression} (refused : c.build e = .error f) (exact : c.Exact) :
    f.inExpression = true := by
  obtain ⟨before, call, after, -, -, refuses⟩ := mapM_error_iff.mp (build_error_iff.mp refused)
  exact (resolve_error_iff.mp refuses).inExpression exact

theorem compile_inExpression (refused : c.compile source = .error f) (exact : c.Exact) :
    f.inExpression = true := by
  rw [compile] at refused
  split at refused
  · exact build_inExpression refused exact
  · cases refused
    rfl

theorem check_of_error (refused : c.compile source = .error f) :
    c.check source = [.ofFault source f] := by
  rw [compile] at refused
  rw [check]
  split at refused <;> rename_i parsed <;> rw [parsed]
  · dsimp only
    rw [refused]
  · cases refused
    rfl

theorem check_of_ok {chains : Chains τ} (compiled : c.compile source = .ok chains) :
    ∀ x ∈ c.check source, x.severity = .warning := by
  rw [compile] at compiled
  rw [check]
  split at compiled <;> rename_i parsed <;> rw [parsed]
  · dsimp only
    rw [compiled]
    exact Expression.warnings_severity _
  · cases compiled

/-- All that the catalogue of all actions finds fault with are expressions. -/
theorem ofActions_exact (embed : Action → τ) : (ofActions embed).Exact := by
  intro name maker args f found refused
  rw [find?_ofActions] at found
  split at found
  · cases found
    exact Action.ofCall_inExpression (map_error_iff.mp refused)
  · cases found

end Catalogue

namespace Button

variable {κ η : Type}

/-- A check agrees with the making of a button, for any text and any catalogue. The one finding that
is an error has the message of the fault that the making wraps, and an id by its kind. -/
theorem check_agrees (settings : ButtonSettings) (element : Element κ) (page : η)
    (catalogue : Catalogue (Step (World κ η ⟨settings, element.classes.text⟩))) (source : String) :
    let findings := catalogue.check source
    let made := create settings element page catalogue source
    (findings.map (·.severity) = [.error] ↔ ∃ f, made = .error f) ∧
      ((∀ x ∈ findings, x.severity = .warning) ↔ ∃ b, made = .ok b) ∧
      ∀ f, made = .error f → ∃ cause x, f = .construction element.id cause ∧ findings = [x] ∧
        x.severity = .error ∧ x.message = cause.message ∧
        (cause.inExpression = true → cause.HasId x.id) ∧
        (catalogue.Exact → cause.inExpression = true) := by
  intro findings made
  cases compiled : catalogue.compile source with
  | ok chains =>
    have created : made = .ok (ofChains settings element page chains) := by
      simp only [made, create, compiled]
    have warned := Catalogue.check_of_ok compiled
    have no_error : findings.map (·.severity) ≠ [.error] := by
      intro same
      obtain ⟨x, alone, severity⟩ := List.map_eq_singleton_iff.mp same
      have warning := warned x (List.mem_of_mem_head? (congrArg List.head? alone))
      cases severity.symm.trans warning
    refine ⟨iff_of_false no_error ?_, iff_of_true warned ⟨_, created⟩, ?_⟩
    · simp [created]
    · simp [created]
  | error cause =>
    have created : made = .error (.construction element.id cause) := by
      simp only [made, create, compiled]
    have found : findings = [.ofFault source cause] := Catalogue.check_of_error compiled
    refine ⟨iff_of_true ?_ ⟨_, created⟩, iff_of_false ?_ ?_, ?_⟩
    · rw [found]
      rfl
    · intro warned
      have warning : (Finding.ofFault source cause).severity = .warning :=
        warned _ (List.mem_of_mem_head? (congrArg List.head? found))
      cases warning
    · simp [created]
    · intro f failed
      obtain rfl := Except.error.inj (created.symm.trans failed)
      exact ⟨cause, _, rfl, found, rfl, rfl, Finding.errorId_of_inExpression,
        Catalogue.compile_inExpression compiled⟩

open Bench in
theorem check_agrees_vanish :
    let element : Element Unit := { id := "save" }
    let catalogue : Catalogue (Step (World Unit ScriptedForm ⟨{}, element.classes.text⟩)) :=
      Catalogue.ofActions (Action.run fun _ _ w => w)
    let cause : Fault := .unknownAction "vanish"
    catalogue.Exact ∧
    create {} element {} catalogue "vanish" = .error (.construction "save" cause) ∧
    ∃ x, catalogue.check "vanish" = [x] ∧ x.severity = .error ∧ x.id = "names.E001" ∧
      x.message = "Unknown action: vanish" := by
  intro element catalogue cause
  have exact : catalogue.Exact := Catalogue.ofActions_exact _
  have parsed : Expression.parse "vanish" = .ok ⟨[⟨"vanish", []⟩], []⟩ := by rfl
  have unknown : catalogue.find? "vanish" = none :=
    (Catalogue.find?_ofActions _ _).trans (if_neg (by decide))
  have refused : catalogue.resolve ⟨"vanish", []⟩ = .error cause :=
    Catalogue.resolve_unknown unknown
  have failed : create {} element {} catalogue "vanish" = .error (.construction "save" cause) := by
    rw [create, Catalogue.compile, parsed]
    dsimp only
    rw [Catalogue.build, List.mapM_cons, refused]
    rfl
  have wrapped := (check_agrees {} element {} catalogue "vanish").2.2
  have told := wrapped _ failed
  obtain ⟨cause', x, same, found, error, message, identified, inside⟩ := told
  obtain rfl : cause = cause' := (Fault.construction.inj same).2
  have kind : Fault.HasId (.unknownAction "vanish") x.id := identified (inside exact)
  generalize named : x.id = id at kind
  cases kind
  exact ⟨exact, failed, x, found, error, named, message⟩

end Button

end ActionChain
