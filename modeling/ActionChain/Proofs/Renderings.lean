import ActionChain.CommandLine.Run
import ActionChain.Proofs.Building
import ActionChain.Proofs.Reprinting

/-!
Chains are written in three places: in the text of an expression, in that of resolved chains, and in
the report on an expression. The first writes call after call, the others join the texts of calls.
Main statement `renderings_agree`: each writes a chain by the same rule.
-/
namespace ActionChain

namespace Call

variable {calls : List Call} {s t : String}

/-- The text of a chain: its calls, an arrow between each two. -/
inductive Shown : List Call → String → Prop
  | last (c : Call) : Shown [c] c.text
  | before (c : Call) {rest : List Call} {text : String} : Shown rest text →
    Shown (c :: rest) (c.text ++ " -> " ++ text)

theorem Shown.unique (first : Shown calls s) (second : Shown calls t) : s = t := by
  induction first generalizing t with
  | last c =>
    cases second with
    | last => rfl
    | before _ none => cases none
  | before c shown ih =>
    cases second with
    | last => cases shown
    | before _ other => rw [ih other]

theorem writeChain_shown (some : calls ≠ []) : Shown calls (String.ofList (writeChain calls)) := by
  induction calls with
  | nil => exact absurd rfl some
  | cons c rest ih =>
    cases rest with
    | nil => exact .last c
    | cons d rest =>
      have shown := Shown.before c (ih (List.cons_ne_nil d rest))
      have joined : String.ofList (writeChain (c :: d :: rest)) =
          c.text ++ " -> " ++ String.ofList (writeChain (d :: rest)) := by
        have chain : writeChain (c :: d :: rest) = c.write ++ arrow ++ writeChain (d :: rest) := rfl
        rw [chain, String.ofList_append, String.ofList_append]
        rfl
      exact joined ▸ shown

theorem chainText_shown (some : calls ≠ []) : Shown calls (chainText calls) := by
  induction calls with
  | nil => exact absurd rfl some
  | cons c rest ih =>
    cases rest with
    | nil =>
      rw [chainText, List.map_singleton, String.intercalate_singleton]
      exact .last c
    | cons d rest =>
      rw [chainText, List.map_cons, List.map_cons, String.intercalate_cons_cons]
      exact .before c (ih (List.cons_ne_nil d rest))

theorem chainText_eq (calls : List Call) : chainText calls = String.ofList (writeChain calls) := by
  cases calls with
  | nil => rfl
  | cons c rest =>
    have some := List.cons_ne_nil c rest
    exact (chainText_shown some).unique (writeChain_shown some)

end Call

section Texts

variable {τ : Type} {e : Expression}

theorem Expression.text_eq (e : Expression) : e.text = Call.chainText e.success ++
    if e.reject.isEmpty then "" else " !~ " ++ Call.chainText e.reject := by
  rw [text, write, String.ofList_append, Call.chainText_eq, Call.chainText_eq]
  split
  · rfl
  · rw [String.ofList_append]

theorem Catalogue.text_of_build {c : Catalogue τ} {chains : Chains τ}
    (built : c.build e = .ok chains) : chains.text = e.text := by
  obtain ⟨success, reject⟩ := build_ok_iff.mp built
  have calls := calls_of_resolves success
  have calls' := calls_of_resolves reject
  have empty : chains.reject.isEmpty = e.reject.isEmpty := by rw [← calls', List.isEmpty_map]
  rw [Chains.text, Expression.text_eq, empty]
  dsimp only
  rw [calls, calls']

theorem Expression.success_of_parse {source : String} (parsed : Expression.parse source = .ok e) :
    e.success ≠ [] := by
  obtain ⟨d, -, derived⟩ := Expression.derived_of_parse parsed
  generalize source.toList = cs at derived
  cases derived with
  | success _ chain _ => exact (Call.chain_of_derived chain).1
  | reject _ chain _ _ _ _ => exact (Call.chain_of_derived chain).1

end Texts

/-- The report on an expression shows the two chains as the text of the expression has them, and the
chains that some catalogue resolves have that text too. -/
theorem renderings_agree {source : String} {e : Expression}
    (parsed : Expression.parse source = .ok e) : ∃ success reject,
      Report.parse source false =
        ⟨"success: " ++ success ++ "\nreject:  " ++ reject ++ "\n", none⟩ ∧
      Call.Shown e.success success ∧
      ((e.reject = [] ∧ reject = "(none)" ∧ e.text = success) ∨
        (Call.Shown e.reject reject ∧ e.text = success ++ " !~ " ++ reject)) ∧
      ∀ {τ : Type} (c : Catalogue τ) (chains : Chains τ), c.build e = .ok chains →
        chains.text = e.text := by
  have shown := Call.chainText_shown (Expression.success_of_parse parsed)
  have nonempty : e.success.isEmpty = false :=
    List.isEmpty_eq_false_iff.mpr (Expression.success_of_parse parsed)
  have reported : Report.parse source false = ⟨"success: " ++ Call.chainText e.success ++
      "\nreject:  " ++ Report.chainOrNone e.reject ++ "\n", none⟩ := by
    simp [Report.parse, parsed, Report.line, Report.chains, Report.chainOrNone, nonempty]
  refine ⟨_, _, reported, shown, ?_, fun c chains => Catalogue.text_of_build⟩
  rw [Expression.text_eq, Report.chainOrNone]
  cases none : e.reject with
  | nil => exact .inl ⟨rfl, rfl, String.append_empty⟩
  | cons c rest =>
    exact .inr ⟨Call.chainText_shown (List.cons_ne_nil c rest), (String.append_assoc ..).symm⟩

theorem renderings_agree_enable :
    let e : Expression := ⟨[⟨"disable", []⟩, ⟨"submit", []⟩], [⟨"enable", []⟩]⟩
    Expression.parse "disable->submit!~enable" = .ok e ∧
    (∃ success reject, Report.parse "disable->submit!~enable" false =
        ⟨"success: " ++ success ++ "\nreject:  " ++ reject ++ "\n", none⟩ ∧
      e.text = success ++ " !~ " ++ reject) ∧
    (Catalogue.actions.build e).map Chains.text = .ok e.text := by
  have parsed : Expression.parse "disable->submit!~enable" =
      .ok ⟨[⟨"disable", []⟩, ⟨"submit", []⟩], [⟨"enable", []⟩]⟩ := rfl
  obtain ⟨success, reject, reported, -, none | ⟨-, text⟩, built⟩ := renderings_agree parsed
  · nomatch none.1
  · refine ⟨parsed, ⟨success, reject, reported, text⟩, ?_⟩
    exact congrArg Except.ok (built Catalogue.actions _ rfl)

end ActionChain
