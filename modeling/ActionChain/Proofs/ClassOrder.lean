import ActionChain.Proofs.ClassNames

/-!
Class lists as ordered sets. A class that comes in stands at the end, one that goes leaves the others
in their order, and no edit of one class touches the rest. Main statement `edits_ordered`, of every
list that edits can lead to.
-/
namespace ActionChain

/-- The class that an edit is about, if it is about one. -/
def ClassEdit.name? : ClassEdit → Option String
  | .set _ => none
  | .add c | .remove c | .toggle c => some c

namespace ClassList

variable {c : String} {cs : ClassList}

/-- A list without one class, in unchanged order. -/
structure Without (c : String) (cs less : ClassList) : Prop where
  order : less.Sublist cs
  classes : ∀ d, d ∈ less ↔ d ∈ cs ∧ d ≠ c

section Absent

variable (absent : c ∉ cs)
include absent

theorem add_absent : cs.add c = cs ++ [c] := if_neg absent

theorem toggle_absent : cs.toggle c = cs ++ [c] := if_neg absent

theorem remove_absent : cs.remove c = cs := by
  refine List.filter_eq_self.mpr fun d mem => ?_
  rw [decide_eq_true_eq]
  rintro rfl
  exact absent mem

theorem toggle_toggle_absent : (cs.toggle c).toggle c = cs := by
  have present : c ∈ cs ++ [c] := List.mem_append_right _ (List.mem_singleton_self c)
  rw [toggle_absent absent, toggle, if_pos present, List.erase_append_right _ absent,
    List.erase_cons_head, List.append_nil]

end Absent

section Present

variable (present : c ∈ cs)
include present

theorem add_present : cs.add c = cs := if_pos present

theorem toggle_present (once : cs.Nodup) : cs.toggle c = cs.remove c := by
  rw [toggle, if_pos present, once.erase_eq_filter]
  exact List.filter_congr fun d _ => decide_not.symm

end Present

theorem mem_remove (d : String) : d ∈ cs.remove c ↔ d ∈ cs ∧ d ≠ c := by
  simp [remove]

theorem remove_without : Without c cs (cs.remove c) :=
  ⟨List.filter_sublist, mem_remove⟩

theorem absent_remove : c ∉ cs.remove c := by
  simp [remove]

theorem add_add : (cs.add c).add c = cs.add c := by
  refine add_present ?_
  by_cases present : c ∈ cs
  · rwa [add_present present]
  · simp [add_absent present]

/-- An edit of one class leaves the others as they are. -/
theorem edit_others (once : cs.Nodup) {e : ClassEdit} (named : e.name? = some c) :
    (e.apply cs).remove c = cs.remove c := by
  have added : ClassList.remove c (cs ++ [c]) = cs.remove c := by
    simp [remove]
  have removed : (cs.remove c).remove c = cs.remove c := remove_absent absent_remove
  cases e with
  | set text => cases named
  | remove d =>
    cases named
    exact removed
  | add d =>
    cases named
    by_cases present : c ∈ cs
    · rw [ClassEdit.apply, add_present present]
    · rw [ClassEdit.apply, add_absent present, added]
  | toggle d =>
    cases named
    by_cases present : c ∈ cs
    · rw [ClassEdit.apply, toggle_present present once, removed]
    · rw [ClassEdit.apply, toggle_absent present, added]

theorem togglesOn_eq (once : cs.Nodup) : cs.togglesOn c = (cs.toggle c).contains c := by
  by_cases present : c ∈ cs
  · have gone : c ∉ cs.toggle c := toggle_present present once ▸ absent_remove
    simp [togglesOn, present, gone]
  · have here : c ∈ cs.toggle c := by simp [toggle_absent present]
    simp [togglesOn, present, here]

/-- In every list that edits with proper names lead to, each class is there once and the list can be
read back from its text. What comes in stands at the end; what goes leaves all others in their order,
as does every edit of one class; and toggling says what it has done. -/
theorem edits_ordered (edits : List ClassEdit) (proper : ∀ e ∈ edits, e.Proper) :
    let cs : ClassList := edits.foldl ClassEdit.apply []
    cs.Nodup ∧ ofText cs.text = cs ∧
      (∀ s, ofText s = ((Text.words s.toList).map String.ofList).eraseDups) ∧
      ∀ c,
        (c ∉ cs → cs.add c = cs ++ [c] ∧ cs.toggle c = cs ++ [c] ∧ cs.remove c = cs ∧
          (cs.toggle c).toggle c = cs) ∧
        (c ∈ cs → cs.add c = cs ∧ Without c cs (cs.remove c) ∧ Without c cs (cs.toggle c) ∧
          (cs.toggle c).toggle c = cs.remove c ++ [c]) ∧
        (∀ e : ClassEdit, e.name? = some c →
          (e.apply cs).filter (· ≠ c) = cs.filter (· ≠ c)) ∧
        cs.togglesOn c = (cs.toggle c).contains c ∧
        (cs.add c).add c = cs.add c ∧ (cs.remove c).remove c = cs.remove c := by
  intro cs
  have clean : Clean cs := ClassEdit.applyAll_of (fun _ => id) ⟨.nil, nofun⟩ proper
  have once := clean.once
  refine ⟨once, clean.ofText_text, ofText_eq_eraseDups, fun c => ⟨fun absent => ?_,
    fun present => ?_, fun e named => edit_others once named, togglesOn_eq once, add_add,
    remove_absent absent_remove⟩⟩
  · exact ⟨add_absent absent, toggle_absent absent, remove_absent absent,
      toggle_toggle_absent absent⟩
  · have off := toggle_present present once
    rw [off]
    exact ⟨add_present present, remove_without, remove_without, toggle_absent absent_remove⟩

/-- A class that is toggled off and on again moves to the end. -/
theorem edits_ordered_busy :
    let edits : List ClassEdit := [.set " btn  busy btn", .add "done"]
    let cs : ClassList := ["btn", "busy", "done"]
    (∀ e ∈ edits, e.Proper) ∧ edits.foldl ClassEdit.apply [] = cs ∧ ofText cs.text = cs ∧
      cs.togglesOn "busy" = false ∧ (cs.toggle "busy").toggle "busy" = ["btn", "done", "busy"] := by
  intro edits cs
  have proper : ∀ e ∈ edits, e.Proper := by
    intro e mem
    rcases List.mem_pair.mp mem with rfl | rfl
    · trivial
    · exact Action.isClassName_iff.mp (by decide)
  have same : edits.foldl ClassEdit.apply [] = cs := by
    decide
  have laws := edits_ordered edits proper
  simp only [same] at laws
  obtain ⟨-, back, -, each⟩ := laws
  obtain ⟨-, there, -, toggles, -⟩ := each "busy"
  obtain ⟨-, -, -, again⟩ := there (by decide)
  exact ⟨proper, same, back, toggles.trans (by decide), again.trans (by decide)⟩

end ClassList

end ActionChain
