import ActionChain.Chain
import ActionChain.Proofs.Faults
import ActionChain.Proofs.Members

/-!
What a catalogue makes of an expression. `Resolves` says what it takes to resolve a call, `Refuses`
why a call is not resolved. Main statement `build_determined`: building resolves every call or stops
at the first that it cannot resolve, and only the makers of the names that are called matter.
-/
namespace ActionChain.Catalogue

variable {τ : Type}

/-- The name of the call has a maker, the arguments are bound, and the maker takes them. -/
structure Resolves (c : Catalogue τ) (call : Call) (r : Resolved τ) : Prop where
  same : r.call = call
  bound : List.Forall₂ (fun a b => Bound.bind call.name a = .ok b) call.args r.arguments
  made : ∃ maker, c.find? call.name = some maker ∧ maker r.arguments = .ok r.step

/-- The first reason why a call is not resolved: its name, then its arguments from the left, then
what its maker has against them. -/
inductive Refuses (c : Catalogue τ) (call : Call) : Fault → Prop
  | name : c.find? call.name = none → Refuses c call (.unknownAction call.name)
  | argument {maker : Maker τ} {before after : List Argument} {a : Argument} {f : Fault} :
    c.find? call.name = some maker → call.args = before ++ a :: after →
    (∀ x ∈ before, ∃ b, Bound.bind call.name x = .ok b) → Bound.bind call.name a = .error f →
    Refuses c call f
  | maker {maker : Maker τ} {arguments : List Bound} {f : Fault} :
    c.find? call.name = some maker →
    List.Forall₂ (fun a b => Bound.bind call.name a = .ok b) call.args arguments →
    maker arguments = .error f → Refuses c call f

section Resolve

variable {c : Catalogue τ} {call : Call}

theorem resolve_unknown (unknown : c.find? call.name = none) :
    c.resolve call = .error (.unknownAction call.name) := by
  simp [resolve, contains, unknown]

theorem resolve_known {maker : Maker τ} (known : c.find? call.name = some maker) :
    c.resolve call = (do
      let arguments ← call.args.mapM (Bound.bind call.name)
      let step ← maker arguments
      return ⟨call, arguments, step⟩) := by
  simp [resolve, contains, create, known]

theorem resolve_ok_iff {r : Resolved τ} : c.resolve call = .ok r ↔ c.Resolves call r := by
  cases known : c.find? call.name with
  | none =>
    rw [resolve_unknown known]
    constructor
    · intro resolved
      cases resolved
    · rintro ⟨-, -, maker, found, -⟩
      simp [known] at found
  | some maker =>
    rw [resolve_known known]
    simp only [bind_ok_iff, mapM_ok_iff, pure, Except.pure, Except.ok.injEq]
    constructor
    · rintro ⟨arguments, bound, step, made, rfl⟩
      exact ⟨rfl, bound, maker, known, made⟩
    · rintro ⟨rfl, bound, other, found, made⟩
      obtain rfl : maker = other := by simpa [known] using found
      exact ⟨r.arguments, bound, r.step, made, rfl⟩

theorem resolve_error_iff {f : Fault} : c.resolve call = .error f ↔ c.Refuses call f := by
  cases known : c.find? call.name with
  | none =>
    rw [resolve_unknown known]
    constructor
    · intro refused
      cases refused
      exact .name known
    · intro refused
      cases refused with
      | name => rfl
      | argument found => simp [known] at found
      | maker found => simp [known] at found
  | some maker =>
    rw [resolve_known known]
    simp only [bind_error_iff, mapM_error_iff, mapM_ok_iff, pure, Except.pure, reduceCtorEq,
      and_false, exists_false, or_false]
    constructor
    · rintro (⟨before, a, after, parts, good, failed⟩ | ⟨arguments, bound, refused⟩)
      · exact .argument known parts good failed
      · exact .maker known bound refused
    · intro refused
      cases refused with
      | name unknown => simp [known] at unknown
      | argument _ parts good failed => exact .inl ⟨_, _, _, parts, good, failed⟩
      | maker found bound refused =>
        obtain rfl := Option.some.inj (known.symm.trans found)
        exact .inr ⟨_, bound, refused⟩

/-- Resolving a call looks at one entry of the catalogue only. -/
theorem resolve_congr {other : Catalogue τ} (same : other.find? call.name = c.find? call.name) :
    other.resolve call = c.resolve call := by
  cases known : c.find? call.name with
  | none => rw [resolve_unknown known, resolve_unknown (same.trans known)]
  | some maker => rw [resolve_known known, resolve_known (same.trans known)]

theorem calls_of_resolves {calls : List Call} {rs : List (Resolved τ)}
    (resolved : List.Forall₂ c.Resolves calls rs) : rs.map (·.call) = calls := by
  induction resolved with
  | nil => rfl
  | cons now _ ih => rw [List.map_cons, now.same, ih]

theorem resolves_of_mem {calls : List Call} {rs : List (Resolved τ)}
    (resolved : List.Forall₂ c.Resolves calls rs) : ∀ r ∈ rs, c.Resolves r.call r := by
  induction resolved with
  | nil => exact nofun
  | cons now _ ih => exact List.forall_mem_cons.mpr ⟨now.same ▸ now, ih⟩

end Resolve

section Build

variable {c : Catalogue τ} {e : Expression}

theorem build_ok_iff {chains : Chains τ} : c.build e = .ok chains ↔
    List.Forall₂ c.Resolves e.success chains.success ∧
      List.Forall₂ c.Resolves e.reject chains.reject := by
  simp only [build, bind_ok_iff, mapM_ok_iff, resolve_ok_iff, pure, Except.pure, Except.ok.injEq]
  constructor
  · rintro ⟨success, first, reject, second, rfl⟩
    exact ⟨first, second⟩
  · rintro ⟨first, second⟩
    exact ⟨chains.success, first, chains.reject, second, rfl⟩

/-- The chains fail as one list of calls does, the success chain in front. -/
theorem build_error_iff {f : Fault} :
    c.build e = .error f ↔ (e.success ++ e.reject).mapM c.resolve = .error f := by
  rw [List.mapM_append]
  simp [build, bind_error_iff, pure, Except.pure]

theorem build_succeeds_iff : (∃ chains, c.build e = .ok chains) ↔
    ∃ rs, (e.success ++ e.reject).mapM c.resolve = .ok rs := by
  rw [List.mapM_append]
  simp only [build, bind_ok_iff, pure, Except.pure, Except.ok.injEq]
  constructor
  · rintro ⟨_, success, first, reject, second, rfl⟩
    exact ⟨_, success, first, reject, second, rfl⟩
  · rintro ⟨_, success, first, reject, second, rfl⟩
    exact ⟨_, success, first, reject, second, rfl⟩

theorem build_congr {other : Catalogue τ}
    (same : ∀ name ∈ e.names, other.find? name = c.find? name) : other.build e = c.build e := by
  have resolves (call : Call) (mem : call ∈ e.success ++ e.reject) :
      other.resolve call = c.resolve call :=
    resolve_congr (same call.name (List.mem_map_of_mem mem))
  have first := mapM_congr fun call mem => resolves call (List.mem_append_left _ mem)
  have second := mapM_congr fun call mem => resolves call (List.mem_append_right _ mem)
  rw [build, first, second, build]

theorem find?_register (c : Catalogue τ) (name other : String) (maker : Maker τ) :
    (c.register name maker).find? other = if other = name then some maker else c.find? other := by
  rw [register, find?, Members.find?_put, find?]

end Build

/-- Building an expression depends on the makers of the names that it calls and on nothing else of a
catalogue. If every call resolves, both chains are those calls in their order, each with its bound
arguments and its step; otherwise the fault is that of the first call that does not. -/
theorem build_determined (c : Catalogue τ) (e : Expression) :
    ((∃ chains, c.build e = .ok chains) ↔ ∀ call ∈ e.success ++ e.reject, ∃ r, c.Resolves call r) ∧
      (∀ chains, c.build e = .ok chains ↔
        List.Forall₂ c.Resolves e.success chains.success ∧
          List.Forall₂ c.Resolves e.reject chains.reject) ∧
      (∀ f, c.build e = .error f ↔ ∃ before call after, e.success ++ e.reject = before ++ call :: after ∧
        (∀ x ∈ before, ∃ r, c.Resolves x r) ∧ c.Refuses call f) ∧
      (∀ other : Catalogue τ, (∀ name ∈ e.names, other.find? name = c.find? name) →
        other.build e = c.build e) ∧
      (∀ name maker, name ∉ e.names → (c.register name maker).build e = c.build e) ∧
      ∀ name maker other, (c.register name maker).find? other =
        if other = name then some maker else c.find? other := by
  refine ⟨?_, fun _ => build_ok_iff, fun f => ?_, fun _ => build_congr, fun name maker fresh => ?_,
    fun name maker other => c.find?_register name other maker⟩
  · rw [build_succeeds_iff, mapM_ok_iff_all]
    simp only [resolve_ok_iff]
  · rw [build_error_iff, mapM_error_iff]
    simp only [resolve_ok_iff, resolve_error_iff]
  · refine build_congr fun called mem => ?_
    have other : called ≠ name := by
      rintro rfl
      exact fresh mem
    rw [find?_register, if_neg other]

end ActionChain.Catalogue
