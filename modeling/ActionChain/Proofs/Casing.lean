import ActionChain.Text.LowerCase

/-!
Words met in any case. Lower case is that of Unicode, but where the result is to be a word of ASCII
without a `k`, only the letters of ASCII count: nothing else has one of them alone as its lower case.
Main statement `lower_eq_iff`.
-/
namespace ActionChain.Text

/-- A character that is not in the lower case of anything outside ASCII. -/
def Plain (c : Char) : Prop := c.toNat < 128 ∧ c ≠ 'k'

instance : DecidablePred Plain := fun _ => inferInstanceAs (Decidable (_ ∧ _))

theorem not_plain_of_le {c : Char} (foreign : 128 ≤ c.toNat) : ¬Plain c := by
  rintro ⟨ascii, -⟩
  omega

namespace CaseRule

/-- The rule for the letters of ASCII. -/
def Native (r : CaseRule) : Prop :=
  r.first = 'A'.toNat ∧ r.last = 'Z'.toNat ∧ r.step = 1 ∧ r.target = 'a'.toNat

/-- A rule for characters outside ASCII. They stay there, but for the sign of the kelvin. -/
def Foreign (r : CaseRule) : Prop :=
  128 ≤ r.first ∧
    (r.first = r.last ∧ r.target = 'k'.toNat ∨
      128 ≤ r.target ∧ (r.target + (r.last - r.first) < 0xd800 ∨
        0xe000 ≤ r.target ∧ r.target + (r.last - r.first) < 0x110000))

instance : DecidablePred Native := fun _ => inferInstanceAs (Decidable (_ ∧ _))
instance : DecidablePred Foreign := fun _ => inferInstanceAs (Decidable (_ ∧ _))

variable {r : CaseRule} {n m : Nat}

theorem image?_eq_some : r.image? n = some m ↔
    (r.first ≤ n ∧ n ≤ r.last ∧ (n - r.first) % r.step = 0) ∧ r.target + (n - r.first) = m := by
  simp [image?]

theorem Native.image? (native : r.Native) : r.image? n =
    if 'A'.toNat ≤ n ∧ n ≤ 'Z'.toNat then some (n + 32) else none := by
  obtain ⟨first, last, step, target⟩ := native
  rw [CaseRule.image?, first, last, step, target]
  simp only [Nat.mod_one, and_true]
  split
  · rename_i letter
    have least : 65 ≤ n := letter.1
    have moved : 'a'.toNat + (n - 'A'.toNat) = n + 32 := by
      show 97 + (n - 65) = n + 32
      omega
    rw [moved]
  · rfl

theorem Foreign.image (foreign : r.Foreign) (image : r.image? n = some m) :
    128 ≤ n ∧ ¬Plain (Char.ofNat m) := by
  obtain ⟨least, kind⟩ := foreign
  obtain ⟨⟨first, last, -⟩, rfl⟩ := image?_eq_some.mp image
  refine ⟨Nat.le_trans least first, ?_⟩
  rcases kind with ⟨one, kelvin⟩ | ⟨high, range⟩
  · have here : n - r.first = 0 := by omega
    rw [here, kelvin]
    decide
  · have valid : (r.target + (n - r.first)).isValidChar := by
      unfold Nat.isValidChar
      omega
    have kept : (Char.ofNat (r.target + (n - r.first))).toNat = r.target + (n - r.first) := by
      rw [Char.ofNat, dif_pos valid]
      rfl
    refine not_plain_of_le ?_
    rw [kept]
    exact Nat.le_trans high (Nat.le_add_right _ _)

end CaseRule

/-- Some property of all rules that are written in a line. -/
def LineOf (P : CaseRule → Prop) (cs : List Char) : Prop :=
  ∀ r ∈ (split ' ' cs).map CaseRule.ofText, P r

instance (P : CaseRule → Prop) [DecidablePred P] : DecidablePred (LineOf P) :=
  fun _ => inferInstanceAs (Decidable (∀ r ∈ _, _))

-- A literal is not to be decoded where it can be taken as the list of its characters.
theorem LineOf.ofList {P : CaseRule → Prop} {cs : List Char} (line : LineOf P cs) :
    LineOf P (String.ofList cs).toList := by
  rwa [String.toList_ofList]

theorem lowerRules_kinds : ∀ r ∈ lowerRules, r.Native ∨ r.Foreign := by
  rw [lowerRules, List.forall_mem_flatMap]
  repeat refine List.forall_mem_cons.mpr ⟨LineOf.ofList (by decide +kernel), ?_⟩
  exact List.forall_mem_nil _

theorem exists_native : ∃ r ∈ lowerRules, r.Native := by
  have first : lowerRules.head? = some ⟨'A'.toNat, 'Z'.toNat, 1, 'a'.toNat⟩ := rfl
  exact ⟨_, List.mem_of_mem_head? first, rfl, rfl, rfl, rfl⟩

section Characters

variable {c : Char}

theorem lowerRules_ascii {n : Nat} (ascii : n < 128) : lowerRules.findSome? (·.image? n) =
    if 'A'.toNat ≤ n ∧ n ≤ 'Z'.toNat then some (n + 32) else none := by
  cases found : lowerRules.findSome? (·.image? n) with
  | some m =>
    obtain ⟨r, mem, image⟩ := List.exists_of_findSome?_eq_some found
    rcases lowerRules_kinds r mem with native | foreign
    · rw [← native.image?, image]
    · have := (foreign.image image).1
      omega
  | none =>
    obtain ⟨r, mem, native⟩ := exists_native
    rw [← native.image?, List.findSome?_eq_none_iff.mp found r mem]

theorem lowerChar_ascii (ascii : c.toNat < 128) : lowerChar c = [c.toLower] := by
  have letters : ∀ n < 128, Char.ofNat
      ((if 'A'.toNat ≤ n ∧ n ≤ 'Z'.toNat then some (n + 32) else none).getD n) =
        (Char.ofNat n).toLower := by decide
  have dotted : c ≠ '\u0130' := by
    rintro rfl
    exact absurd ascii (by decide)
  rw [lowerChar, if_neg dotted, lowerRules_ascii ascii, letters _ ascii, Char.ofNat_toNat]

theorem lowerChar_foreign (foreign : 128 ≤ c.toNat) : ∃ d ∈ lowerChar c, ¬Plain d := by
  rw [lowerChar]
  split
  · exact ⟨'\u0307', by simp, by decide⟩
  · refine ⟨_, List.mem_singleton_self _, ?_⟩
    cases found : lowerRules.findSome? (·.image? c.toNat) with
    | some m =>
      obtain ⟨r, mem, image⟩ := List.exists_of_findSome?_eq_some found
      rcases lowerRules_kinds r mem with native | other
      · have last : 'Z'.toNat < c.toNat := Nat.lt_of_lt_of_le (by decide) foreign
        rw [native.image?, if_neg fun letter => Nat.not_le_of_lt last letter.2] at image
        cases image
      · exact (other.image image).2
    | none =>
      rw [Option.getD_none, Char.ofNat_toNat]
      exact not_plain_of_le foreign

theorem toLower_foreign (foreign : 128 ≤ c.toNat) : c.toLower = c := by
  have last : 'Z'.toNat < c.toNat := Nat.lt_of_lt_of_le (by decide) foreign
  exact dif_neg fun upper => Nat.not_le_of_lt last (UInt32.le_iff_toNat_le.mp upper.2)

end Characters

section Words

variable {word : List Char} (plain : ∀ d ∈ word, Plain d)
include plain

/-- By induction on the text; each character yields its part of the word, or something that is not
plain. -/
theorem lowerFrom_eq_iff (before cs : List Char) :
    lowerFrom before cs = word ↔ cs.map Char.toLower = word := by
  induction cs generalizing before word with
  | nil => rfl
  | cons c rest ih =>
    rw [lowerFrom]
    by_cases ascii : c.toNat < 128
    · have sigma : c ≠ 'Σ' := by
        rintro rfl
        exact absurd ascii (by decide)
      simp only [if_neg sigma, lowerChar_ascii ascii, List.singleton_append, List.map_cons]
      cases word with
      | nil => simp
      | cons d word =>
        rw [List.cons.injEq, List.cons.injEq, ih (List.forall_mem_cons.mp plain).2]
    · have foreign : 128 ≤ c.toNat := Nat.le_of_not_lt ascii
      have odd : ∃ d ∈ (if c = 'Σ' then [if meetsCased before && !meetsCased rest then 'ς' else 'σ']
          else lowerChar c), ¬Plain d := by
        split
        · split <;> exact ⟨_, List.mem_singleton_self _, by decide⟩
        · exact lowerChar_foreign foreign
      obtain ⟨d, mem, odd⟩ := odd
      constructor
      · rintro rfl
        exact absurd (plain d (List.mem_append_left _ mem)) odd
      · rintro rfl
        have own := plain c (List.mem_map.mpr ⟨c, List.mem_cons_self, toLower_foreign foreign⟩)
        exact absurd own (not_plain_of_le foreign)

end Words

theorem lower_eq_iff {s word : String} (plain : word.toList.all (Plain ·) = true) :
    lower s = word ↔ s.toList.map Char.toLower = word.toList := by
  rw [← lowerFrom_eq_iff (by simpa using plain) [], lower, ← String.toList_inj,
    String.toList_ofList]

end ActionChain.Text
