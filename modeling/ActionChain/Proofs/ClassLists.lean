import ActionChain.Element
import ActionChain.Proofs.Words
import Mathlib.Data.List.Nodup

/-!
Class lists and the text that stands for them. Main statement `clean_iff_ofText_text`: a class list
can be read back from its text if and only if its classes are words, each there once, and then the
words of the text are its classes.
-/
namespace ActionChain

namespace ClassList

variable {c d : String} {cs : ClassList} {kind : String → Prop}

def IsName (c : String) : Prop := Text.IsWord c.toList

/-- Each class is there once, and all are of a kind. -/
structure Of (kind : String → Prop) (cs : ClassList) : Prop where
  once : cs.Nodup
  all : ∀ c ∈ cs, kind c

abbrev Clean (cs : ClassList) : Prop := Of IsName cs

section Edits

theorem Of.mono {other : String → Prop} (of : Of kind cs) (weaker : ∀ c, kind c → other c) :
    Of other cs :=
  ⟨of.once, fun c mem => weaker c (of.all c mem)⟩

theorem Of.append (of : Of kind cs) (fine : kind c) (absent : c ∉ cs) : Of kind (cs ++ [c]) := by
  constructor
  · exact of.once.append (List.nodup_singleton c) (List.disjoint_singleton.mpr absent)
  · intro d mem
    rcases List.mem_append.mp mem with there | new
    · exact of.all d there
    · exact List.mem_singleton.mp new ▸ fine

theorem Of.sublist {less : ClassList} (of : Of kind cs) (sublist : less.Sublist cs) :
    Of kind less :=
  ⟨sublist.nodup of.once, fun c mem => of.all c (sublist.subset mem)⟩

theorem Of.add (of : Of kind cs) (fine : kind c) : Of kind (cs.add c) := by
  unfold ClassList.add
  split
  · exact of
  · rename_i absent
    exact of.append fine absent

theorem Of.remove (of : Of kind cs) (c : String) : Of kind (cs.remove c) :=
  of.sublist List.filter_sublist

theorem Of.toggle (of : Of kind cs) (fine : kind c) : Of kind (cs.toggle c) := by
  unfold ClassList.toggle
  split
  · exact of.sublist List.erase_sublist
  · rename_i absent
    exact of.append fine absent

theorem Of.addAll {names : List String} (of : Of kind cs) (fine : ∀ c ∈ names, kind c) :
    Of kind (names.foldl (fun cs c => cs.add c) cs) := by
  induction names generalizing cs with
  | nil => exact of
  | cons c rest ih =>
    obtain ⟨now, later⟩ := List.forall_mem_cons.mp fine
    exact ih (of.add now) later

theorem addAll_of_nodup {names : List String} (once : (cs ++ names).Nodup) :
    names.foldl (fun cs c => cs.add c) cs = cs ++ names := by
  induction names generalizing cs with
  | nil => simp
  | cons c rest ih =>
    have absent : c ∉ cs := fun mem => List.disjoint_of_nodup_append once mem List.mem_cons_self
    have added : cs.add c = cs ++ [c] := if_neg absent
    rw [List.foldl_cons, added, ih (by simpa using once), List.append_assoc, List.singleton_append]

end Edits

section Texts

/-- Of a word that is repeated, the first occurrence is kept. -/
theorem ofText_eq_eraseDups (s : String) :
    ofText s = ((Text.words s.toList).map String.ofList).eraseDups := by
  rw [ofText]
  induction (Text.words s.toList).map String.ofList using List.reverseRecOn with
  | nil => rfl
  | append_singleton names c ih =>
    rw [List.foldl_append, ih, List.eraseDups_append]
    by_cases present : c ∈ names
    · simp [add, present, List.removeAll]
    · simp [add, present, List.removeAll, List.eraseDups_cons]

/-- The words of a text, each where it stands first. -/
def distinctWords (s : String) : List String :=
  (((s.toList.splitOnP (Text.WhiteSpace ·)).filter (· ≠ [])).map String.ofList).eraseDups

theorem ofText_eq_distinctWords (s : String) : ofText s = distinctWords s := by
  rw [ofText_eq_eraseDups, Text.words_eq, distinctWords]

theorem clean_ofText (s : String) : Clean (ofText s) := by
  have none : Clean [] := ⟨.nil, nofun⟩
  refine none.addAll fun c mem => ?_
  obtain ⟨w, word, rfl⟩ := List.mem_map.mp mem
  rw [IsName, String.toList_ofList]
  exact Text.isWord_of_mem_words word

theorem words_text (names : ∀ c ∈ cs, IsName c) :
    Text.words cs.text.toList = cs.map String.toList := by
  have space : Text.isBlank ' ' = true := by decide
  induction cs with
  | nil => rfl
  | cons c rest ih =>
    obtain ⟨now, later⟩ := List.forall_mem_cons.mp names
    cases rest with
    | nil => simpa [text] using Text.words_of_isWord now
    | cons d rest =>
      have parts : (text (c :: d :: rest)).toList =
          c.toList ++ ' ' :: (text (d :: rest)).toList := by
        rw [text, String.intercalate_cons_of_ne_nil (List.cons_ne_nil d rest)]
        simp [text]
      rw [parts, Text.words_append space, Text.words_of_isWord now, ih later]
      rfl

theorem Clean.ofText_text (clean : Clean cs) : ofText cs.text = cs := by
  have names : (Text.words cs.text.toList).map String.ofList = cs := by
    rw [words_text clean.all, List.map_map]
    simp
  rw [ofText, names]
  exact addAll_of_nodup clean.once

/-- What can be read back is clean, and what is clean can be read back. -/
theorem clean_iff_ofText_text : Clean cs ↔ ofText cs.text = cs := by
  constructor
  · exact Clean.ofText_text
  · intro same
    exact same ▸ clean_ofText cs.text

theorem Clean.mem_iff (clean : Clean cs) (c : String) :
    c ∈ cs ↔ c.toList ∈ Text.words cs.text.toList := by
  rw [words_text clean.all, List.mem_map_of_injective fun _ _ => String.toList_inj.mp]

end Texts

end ClassList

end ActionChain
