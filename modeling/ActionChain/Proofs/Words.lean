import ActionChain.Text.Blank
import Mathlib.Data.List.DropRight

/-!
White space, and the words between it. Main statement `words_eq`: the words of a text are what is
left of it when it is cut at every blank and the empty pieces are left out.
-/
namespace ActionChain.Text

section Blanks

/-- The characters of Unicode with the property `White_Space`, by their numbers. -/
def WhiteSpace (c : Char) : Prop :=
  (0x9 ≤ c.toNat ∧ c.toNat ≤ 0xd) ∨ c.toNat ∈ [0x20, 0x85, 0xa0, 0x1680] ∨
    (0x2000 ≤ c.toNat ∧ c.toNat ≤ 0x200a) ∨ c.toNat ∈ [0x2028, 0x2029, 0x202f, 0x205f, 0x3000]

instance (c : Char) : Decidable (WhiteSpace c) :=
  inferInstanceAs (Decidable (_ ∨ _ ∨ _ ∨ _))

theorem isBlank_eq (c : Char) : isBlank c = decide (WhiteSpace c) := by
  have ranges : whiteSpace.ranges = [(0x9, 0xd), (0x20, 0x20), (0x85, 0x85), (0xa0, 0xa0),
      (0x1680, 0x1680), (0x2000, 0x200a), (0x2028, 0x2029), (0x202f, 0x202f), (0x205f, 0x205f),
      (0x3000, 0x3000)] := by decide
  rw [isBlank, CodePoints.contains, ranges, Bool.eq_iff_iff]
  simp only [List.any_cons, List.any_nil, Bool.or_eq_true, Bool.and_eq_true, decide_eq_true_eq,
    Bool.or_false, WhiteSpace, List.mem_cons, List.not_mem_nil, or_false]
  omega

theorem isBlank_funext : isBlank = fun c => decide (WhiteSpace c) := funext isBlank_eq

/-- Trimming takes white space from both ends. -/
theorem trim_eq (cs : List Char) :
    trim cs = (cs.dropWhile (WhiteSpace ·)).rdropWhile (WhiteSpace ·) := by
  rw [trim, isBlank_funext]
  rfl

end Blanks

/-- A text that is one word: it is not empty, and no blank is in it. -/
structure IsWord (cs : List Char) : Prop where
  some : cs ≠ []
  solid : ∀ c ∈ cs, isBlank c = false

section Words

variable {c d : Char} {w rest : List Char} {ws : List (List Char)}

theorem words_blank (blank : isBlank c = true) (rest : List Char) :
    words (c :: rest) = words rest := by
  cases rest <;> simp [words, blank]

theorem words_last (solid : isBlank c = false) : words [c] = [[c]] := by
  simp [words, solid]

theorem words_stop (solid : isBlank c = false) (blank : isBlank d = true) (rest : List Char) :
    words (c :: d :: rest) = [c] :: words rest := by
  rw [words.eq_def]
  simp [solid, blank, words_blank blank]

theorem words_go (solid : isBlank c = false) (next : isBlank d = false)
    (split : words (d :: rest) = w :: ws) : words (c :: d :: rest) = (c :: w) :: ws := by
  rw [words.eq_def]
  simp [solid, next, split]

/-- Where no blank is first, a word begins. -/
theorem words_cons (solid : isBlank c = false) (rest : List Char) :
    ∃ w ws, words (c :: rest) = (c :: w) :: ws := by
  induction rest generalizing c with
  | nil => exact ⟨[], [], words_last solid⟩
  | cons d rest ih =>
    cases next : isBlank d with
    | true => exact ⟨[], _, words_stop solid next rest⟩
    | false =>
      obtain ⟨w, ws, split⟩ := ih next
      exact ⟨_, ws, words_go solid next split⟩

theorem isWord_of_mem_words {cs : List Char} (mem : w ∈ words cs) : IsWord w := by
  induction cs generalizing w with
  | nil => cases mem
  | cons c rest ih =>
    cases solid : isBlank c with
    | true =>
      rw [words_blank solid] at mem
      exact ih mem
    | false =>
      have alone : IsWord [c] := ⟨List.cons_ne_nil c [], List.forall_mem_singleton.mpr solid⟩
      cases rest with
      | nil =>
        rw [words_last solid, List.mem_singleton] at mem
        exact mem ▸ alone
      | cons d rest =>
        cases next : isBlank d with
        | true =>
          rw [words_stop solid next, ← words_blank next] at mem
          rcases List.mem_cons.mp mem with rfl | later
          · exact alone
          · exact ih later
        | false =>
          obtain ⟨w', ws, split⟩ := words_cons next rest
          rw [words_go solid next split] at mem
          rw [split] at ih
          rcases List.mem_cons.mp mem with rfl | later
          · have behind := (ih List.mem_cons_self).solid
            exact ⟨List.cons_ne_nil c _, List.forall_mem_cons.mpr ⟨solid, behind⟩⟩
          · exact ih (List.mem_cons_of_mem _ later)

theorem words_append (blank : isBlank d = true) (cs rest : List Char) :
    words (cs ++ d :: rest) = words cs ++ words rest := by
  induction cs with
  | nil => exact words_blank blank rest
  | cons c cs ih =>
    cases solid : isBlank c with
    | true => rw [List.cons_append, words_blank solid, words_blank solid, ih]
    | false =>
      cases cs with
      | nil =>
        rw [words_last solid]
        exact words_stop solid blank rest
      | cons e cs =>
        rw [List.cons_append] at ih
        cases next : isBlank e with
        | true =>
          rw [words_blank next, words_blank next] at ih
          rw [List.cons_append, List.cons_append, words_stop solid next, words_stop solid next, ih]
          rfl
        | false =>
          obtain ⟨w, ws, split⟩ := words_cons next cs
          rw [split] at ih
          exact (words_go solid next ih).trans (by rw [words_go solid next split]; rfl)

theorem words_of_isWord (word : IsWord w) : words w = [w] := by
  induction w with
  | nil => exact absurd rfl word.some
  | cons c w ih =>
    obtain ⟨solid, behind⟩ := List.forall_mem_cons.mp word.solid
    cases w with
    | nil => exact words_last solid
    | cons d w =>
      have rest : IsWord (d :: w) := ⟨List.cons_ne_nil d w, behind⟩
      exact words_go solid (behind d List.mem_cons_self) (ih rest)

theorem words_eq (cs : List Char) :
    words cs = (cs.splitOnP (WhiteSpace ·)).filter (· ≠ []) := by
  rw [← isBlank_funext]
  induction cs with
  | nil => rfl
  | cons c rest ih =>
    rw [List.splitOnP_cons_eq_if_modifyHead]
    cases solid : isBlank c with
    | true => rw [words_blank solid, ih]; rfl
    | false =>
      cases rest with
      | nil => exact words_last solid
      | cons d rest =>
        rw [List.splitOnP_cons_eq_if_modifyHead] at ih ⊢
        cases next : isBlank d with
        | true =>
          rw [words_blank next] at ih
          rw [words_stop solid next, ih, next]
          rfl
        | false =>
          obtain ⟨w, ws, cut⟩ := List.exists_cons_of_ne_nil (List.splitOnP_ne_nil isBlank rest)
          rw [next, cut] at ih
          rw [cut]
          exact words_go solid next ih

end Words

end ActionChain.Text
