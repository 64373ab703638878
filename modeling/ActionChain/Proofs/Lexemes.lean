import Mathlib.Data.List.Basic
import ActionChain.Proofs.Scanning

/-!
The scanners of lexemes read what the grammar derives: identifiers and strings exactly, numbers as
far as nothing follows that could belong to them.
-/
namespace ActionChain.Scanner

open Grammar

variable {p q : Place}

section Identifiers

theorem isLetter_iff {c : Char} : isLetter c = true ↔ Letter c := by
  simp [isLetter, Letter, or_assoc]

theorem isNameChar_iff {c : Char} : isNameChar c = true ↔ Letter c ∨ c.isDigit := by
  simp only [isNameChar, Char.isAlphanum, Letter, Bool.or_eq_true, decide_eq_true_eq]
  grind

theorem identifier_of_all {c : Char} {cs : List Char} (letter : isLetter c = true)
    (all : cs.all isNameChar = true) : Identifier (c :: cs) :=
  .mk (isLetter_iff.mp letter) fun d mem => isNameChar_iff.mp (List.all_eq_true.mp all d mem)

theorem reads_identifier {name : String} : identifier.Reads p name q ↔
    ∃ cs, Identifier cs ∧ name = String.ofList cs ∧ Passes cs p q ∧ Ends isNameChar q.rest := by
  rw [identifier, reads_peek_bind]
  constructor
  · intro reads
    cases first : p.rest.head? with
    | none => simp [first] at reads
    | some c =>
      simp only [first] at reads
      split at reads
      · rename_i letter
        obtain ⟨cs, r, taken, done⟩ := reads_bind.mp reads
        obtain ⟨rfl, rfl⟩ := reads_pure.mp done
        obtain ⟨passes, all, ends⟩ := reads_charsWhile.mp taken
        refine ⟨cs, ?_, rfl, passes, ends⟩
        cases cs with
        | nil =>
          have unread : isNameChar c = false := ends c (passes_nil_iff.mp passes ▸ first)
          have named : isNameChar c = true := isNameChar_iff.mpr (.inl (isLetter_iff.mp letter))
          simp [unread] at named
        | cons d ds =>
          have same : d = c := by
            have next := (passes_cons_iff.mp passes).1
            rw [first] at next
            exact (Option.some.inj next).symm
          refine .mk (same ▸ isLetter_iff.mp letter) fun e mem => ?_
          exact isNameChar_iff.mp (all e (List.mem_cons_of_mem d mem))
      · exact absurd reads not_reads_expecting
  · rintro ⟨_, @⟨c, cs, letter, all⟩, rfl, passes, ends⟩
    have first := (passes_cons_iff.mp passes).1
    have named : ∀ d ∈ c :: cs, isNameChar d = true := by
      intro d mem
      rw [isNameChar_iff]
      rcases List.mem_cons.mp mem with rfl | later
      · exact .inl letter
      · exact all d later
    simp only [first]
    rw [if_pos (isLetter_iff.mpr letter)]
    exact (reads_charsWhile.mpr ⟨passes, named, ends⟩).bind (pure_reads _ q)

end Identifiers

section Numbers

theorem reads_digits {ds : List Char} : (charsWhile Char.isDigit).Reads p ds q ↔
    Passes ds p q ∧ (∀ d ∈ ds, d.isDigit) ∧ Ends Char.isDigit q.rest := reads_charsWhile

theorem digits_of_head {d : Char} {ds : List Char} (first : p.rest.head? = some d)
    (digit : d.isDigit) (reads : (charsWhile Char.isDigit).Reads p ds q) : Digits ds := by
  obtain ⟨passes, all, ends⟩ := reads_digits.mp reads
  refine ⟨?_, all⟩
  rintro rfl
  have unread : d.isDigit = false := ends d (passes_nil_iff.mp passes ▸ first)
  simp [unread] at digit

theorem wholePart_sound {ds : List Char} (reads : wholePart.Reads p ds q) :
    Whole ds ∧ Passes ds p q := by
  rw [wholePart, reads_peek_bind] at reads
  split at reads
  · rename_i first
    rw [reads_advance_bind] at reads
    obtain ⟨rfl, rfl⟩ := reads_pure.mp reads
    exact ⟨.zero, passes_cons_iff.mpr ⟨first, .refl _⟩⟩
  · rename_i c zero first
    split at reads
    · rename_i digit
      have some := digits_of_head first digit reads
      obtain ⟨passes, all, ends⟩ := reads_digits.mp reads
      refine ⟨?_, passes⟩
      cases ds with
      | nil => exact absurd rfl some.some
      | cons d ds =>
        have same : d = c := by
          have next := (passes_cons_iff.mp passes).1
          rw [first] at next
          exact (Option.some.inj next).symm
        exact .digits (same ▸ zero) some
    · exact absurd reads not_reads_expecting
  · exact absurd reads not_reads_expecting

theorem wholePart_complete {ds : List Char} (whole : Whole ds) (passes : Passes ds p q)
    (ends : Ends Char.isDigit q.rest) : wholePart.Reads p ds q := by
  rw [wholePart, reads_peek_bind]
  cases whole with
  | zero =>
    obtain ⟨first, rest⟩ := passes_cons_iff.mp passes
    simp only [first]
    exact reads_advance_bind.mpr (reads_pure.mpr ⟨rfl, passes_nil_iff.mp rest⟩)
  | @digits d ds nonzero digits =>
    obtain ⟨first, rest⟩ := passes_cons_iff.mp passes
    rw [first]
    split
    · simp_all
    · rename_i c _ same
      cases same
      rw [if_pos (digits.all d (.head ds))]
      exact reads_digits.mpr ⟨passes, digits.all, ends⟩
    · simp_all

theorem digit_ahead {rest : List Char} :
    (rest.head?.map Char.isDigit).getD false = true ↔ ∃ d, rest.head? = some d ∧ d.isDigit := by
  cases rest.head? <;> simp

theorem ahead_of_digits {ds : List Char} (digits : Digits ds) (passes : Passes ds p q) :
    (p.rest.head?.map Char.isDigit).getD false = true := by
  cases ds with
  | nil => exact absurd rfl digits.some
  | cons d ds =>
    have first := (passes_cons_iff.mp passes).1
    exact digit_ahead.mpr ⟨d, first, digits.all d (.head ds)⟩

theorem fractionPart_sound {ds : List Char} (reads : fractionPart.Reads p ds q) :
    ∃ text, Fraction ds text ∧ Passes text p q := by
  rw [fractionPart, reads_here_bind] at reads
  split at reads
  · rename_i rest point
    have first : p.rest.head? = some '.' := by rw [point]; rfl
    split at reads
    · rename_i ahead
      obtain ⟨d, next, digit⟩ := digit_ahead.mp ahead
      rw [reads_advance_bind] at reads
      have behind : (p.advance 1).rest.head? = some d := by simp [Place.advance, point, next]
      have digits := digits_of_head behind digit reads
      exact ⟨_, .point digits, passes_cons_iff.mpr ⟨first, (reads_digits.mp reads).1⟩⟩
    · rw [reads_missed_bind] at reads
      obtain ⟨rfl, rfl⟩ := reads_pure.mp reads
      exact ⟨[], .none, .refl _⟩
  · obtain ⟨rfl, rfl⟩ := reads_pure.mp reads
    exact ⟨[], .none, .refl _⟩

theorem fractionPart_complete {ds text : List Char} (fraction : Fraction ds text)
    (passes : Passes text p q) (ends : Ends (fun c => c.isDigit || c = '.') q.rest) :
    fractionPart.Reads p ds q := by
  rw [fractionPart, reads_here_bind]
  cases fraction with
  | none =>
    obtain rfl := passes_nil_iff.mp passes
    split
    · rename_i rest point
      have stop := ends '.' (by rw [point]; rfl)
      simp at stop
    · exact pure_reads [] q
  | point digits =>
    obtain ⟨first, behind⟩ := passes_cons_iff.mp passes
    obtain ⟨rest, point⟩ := List.head?_eq_some_iff.mp first
    have ahead : (rest.head?.map Char.isDigit).getD false = true := by
      have next : (p.advance 1).rest = rest := by simp [Place.advance, point]
      exact next ▸ ahead_of_digits digits behind
    have stop : Ends Char.isDigit q.rest := ends.mono fun c digit => by simp [digit]
    simp only [point, ahead, if_true]
    exact reads_advance_bind.mpr (reads_digits.mpr ⟨behind, digits.all, stop⟩)

theorem exponentSign_sound (rest : List Char) : ∃ sign,
    ExponentSign (exponentSign rest).1 sign ∧ sign.length = (exponentSign rest).2 ∧ sign <+: rest := by
  unfold exponentSign
  split
  · exact ⟨['-'], .minus, rfl, by simp⟩
  · exact ⟨['+'], .plus, rfl, by simp⟩
  · exact ⟨[], .none, rfl, by simp⟩

theorem exponentSign_complete {minus : Bool} {sign ds : List Char}
    (signed : ExponentSign minus sign) (digits : Digits ds) (rest : List Char) :
    exponentSign (sign ++ ds ++ rest) = (minus, sign.length) := by
  cases signed with
  | plus => rfl
  | minus => rfl
  | none =>
    cases ds with
    | nil => exact absurd rfl digits.some
    | cons d ds =>
      have digit := digits.all d (.head ds)
      unfold exponentSign
      split
      · simp_all
      · simp_all
      · rfl

theorem exponentPart_sound {e : Int} (reads : exponentPart.Reads p e q) :
    ∃ text, Exponent e text ∧ Passes text p q := by
  rw [exponentPart, reads_here_bind] at reads
  split at reads
  · obtain ⟨rfl, rfl⟩ := reads_pure.mp reads
    exact ⟨[], .none, .refl _⟩
  · rename_i mark rest here
    obtain ⟨sign, signed, length, tail, parts⟩ := exponentSign_sound rest
    have lead : Passes (mark :: sign) p (p.advance ((exponentSign rest).2 + 1)) := by
      rw [← length]
      exact passes_advance (by rw [here, ← parts, List.cons_append])
    have behind : (p.advance ((exponentSign rest).2 + 1)).rest = rest.drop (exponentSign rest).2 := by
      simp [Place.advance, here]
    dsimp only at reads
    split at reads
    · rename_i marked
      split at reads
      · rename_i ahead
        obtain ⟨d, next, digit⟩ := digit_ahead.mp ahead
        rw [reads_advance_bind] at reads
        obtain ⟨ds, r, taken, done⟩ := reads_bind.mp reads
        obtain ⟨rfl, rfl⟩ := reads_pure.mp done
        have digits := digits_of_head (behind ▸ next) digit taken
        exact ⟨_, .power (by simpa using marked) signed digits, lead.trans (reads_digits.mp taken).1⟩
      · rw [reads_missed_bind] at reads
        obtain ⟨rfl, rfl⟩ := reads_pure.mp reads
        exact ⟨[], .none, .refl _⟩
    · obtain ⟨rfl, rfl⟩ := reads_pure.mp reads
      exact ⟨[], .none, .refl _⟩

theorem exponentPart_complete {e : Int} {text : List Char} (exponent : Exponent e text)
    (passes : Passes text p q) (ends : Ends (fun c => c.isDigit || c = 'e' || c = 'E') q.rest) :
    exponentPart.Reads p e q := by
  rw [exponentPart, reads_here_bind]
  cases exponent with
  | none =>
    obtain rfl := passes_nil_iff.mp passes
    split
    · exact pure_reads 0 q
    · rename_i mark rest here
      have stop := ends mark (by rw [here]; rfl)
      have unmarked : ¬ (mark = 'e' ∨ mark = 'E') := by simp_all
      dsimp only
      rw [if_neg unmarked]
      exact pure_reads 0 q
  | @power mark minus sign ds marked signed digits =>
    obtain ⟨r, lead, behind⟩ := passes_append_iff.mp passes
    have here : p.rest = mark :: (sign ++ ds ++ q.rest) := by rw [passes.1]; simp
    have place : r = p.advance (sign.length + 1) := lead.eq_advance
    have ahead : (((sign ++ ds ++ q.rest).drop sign.length).head?.map Char.isDigit).getD false := by
      have next := ahead_of_digits digits behind
      rw [behind.1] at next
      simpa using next
    have stop : Ends Char.isDigit q.rest := ends.mono fun c digit => by simp [digit]
    have signs := exponentSign_complete signed digits q.rest
    have marked : mark = 'e' ∨ mark = 'E' := by simpa using marked
    simp only [here, signs, ahead, if_true]
    rw [if_pos marked, reads_advance_bind, ← place]
    exact (reads_digits.mpr ⟨behind, digits.all, stop⟩).bind (pure_reads _ q)

theorem reads_minusSign {minus : Bool} : minusSign.Reads p minus q ↔
    Passes (if minus then ['-'] else []) p q ∧ (minus = false → p.rest.head? ≠ some '-') := by
  rw [minusSign, reads_peek_bind]
  split
  · rename_i first
    rw [reads_advance_bind, reads_pure]
    constructor
    · rintro ⟨rfl, rfl⟩
      exact ⟨passes_cons_iff.mpr ⟨first, .refl _⟩, nofun⟩
    · rintro ⟨passes, absent⟩
      cases minus with
      | true => exact ⟨rfl, passes.eq_advance⟩
      | false => exact absurd first (absent rfl)
  · rename_i other
    rw [reads_pure]
    constructor
    · rintro ⟨rfl, rfl⟩
      exact ⟨.refl _, fun _ => other⟩
    · rintro ⟨passes, absent⟩
      cases minus with
      | true => exact absurd (passes_cons_iff.mp passes).1 other
      | false => exact ⟨rfl, passes_nil_iff.mp passes⟩

theorem number_sound {x : Binary64} (reads : number.Reads p x q) :
    ∃ text, Number x text ∧ Passes text p q := by
  simp only [number, reads_bind, reads_pure] at reads
  obtain ⟨minus, p₁, sign, whole, p₂, digits, ds, p₃, point, e, _, power, rfl, rfl⟩ := reads
  obtain ⟨wholeText, passes⟩ := wholePart_sound digits
  obtain ⟨fraction, fractionText, passes'⟩ := fractionPart_sound point
  obtain ⟨exponent, exponentText, passes''⟩ := exponentPart_sound power
  have passesSign := (reads_minusSign.mp sign).1
  exact ⟨_, .mk minus wholeText fractionText exponentText,
    ((passesSign.trans passes).trans passes').trans passes''⟩

/-- No character comes next that a number or a name could go on with. -/
def Ended (rest : List Char) : Prop := Ends isNameChar rest ∧ Ends (· = '.') rest

theorem whole_starts {ds : List Char} (whole : Whole ds) : ∃ d rest, ds = d :: rest ∧ d.isDigit := by
  cases whole with
  | zero => exact ⟨'0', [], rfl, rfl⟩
  | digits _ digits => exact ⟨_, _, rfl, digits.all _ (.head _)⟩

theorem Ended.afterPower {rest : List Char} (ended : Ended rest) :
    Ends (fun c => c.isDigit || c = 'e' || c = 'E') rest := by
  refine ended.1.mono fun c goesOn => ?_
  simp only [Bool.or_eq_true, decide_eq_true_eq] at goesOn
  rcases goesOn with (digit | rfl) | rfl
  · simp [isNameChar, Char.isAlphanum, digit]
  · rfl
  · rfl

theorem exponent_ends {e : Int} {text : List Char} (exponent : Exponent e text)
    (passes : Passes text p q) (ended : Ended q.rest) :
    Ends (fun c => c.isDigit || c = '.') p.rest := by
  apply passes.ends
  · intro c next
    cases exponent with
    | none => cases next
    | power marked =>
      cases next
      simp only [List.mem_cons, List.not_mem_nil, or_false] at marked
      rcases marked with rfl | rfl <;> rfl
  · intro c next
    have noDot := ended.2 c next
    have noDigit := ended.afterPower c next
    simp only [Bool.or_eq_false_iff] at noDigit ⊢
    exact ⟨noDigit.1.1, noDot⟩

theorem fraction_ends {ds text : List Char} (fraction : Fraction ds text) (passes : Passes text p q)
    (ends : Ends (fun c => c.isDigit || c = '.') q.rest) : Ends Char.isDigit p.rest := by
  apply passes.ends
  · intro c next
    cases fraction with
    | none => cases next
    | point =>
      cases next
      rfl
  · exact ends.mono fun c digit => by simp [digit]

theorem number_complete {x : Binary64} {text : List Char} (derived : Number x text)
    (passes : Passes text p q) (ended : Ended q.rest) : number.Reads p x q := by
  obtain @⟨minus, ws, ds, fs, es, e, whole, fraction, exponent⟩ := derived
  obtain ⟨p₃, first, last⟩ := passes_append_iff.mp passes
  obtain ⟨p₂, first, point⟩ := passes_append_iff.mp first
  obtain ⟨p₁, sign, digits⟩ := passes_append_iff.mp first
  have absent : minus = false → p.rest.head? ≠ some '-' := by
    rintro rfl
    obtain rfl := passes_nil_iff.mp sign
    obtain ⟨d, rest, rfl, digit⟩ := whole_starts whole
    rw [(passes_cons_iff.mp digits).1]
    intro same
    cases same
    cases digit
  have afterPoint := exponent_ends exponent last ended
  have afterDigits := fraction_ends fraction point afterPoint
  simp only [number, reads_bind, reads_pure]
  exact ⟨minus, p₁, reads_minusSign.mpr ⟨sign, absent⟩, ws, p₂,
    wholePart_complete whole digits afterDigits, ds, p₃,
    fractionPart_complete fraction point afterPoint, e, q,
    exponentPart_complete exponent last ended.afterPower, rfl, rfl⟩

end Numbers

section Strings

/-- No character beyond ASCII is a digit, and each of the others is looked up. -/
theorem hexDigit?_eq (c : Char) : Text.hexDigit? c =
    if c.toLower ∈ hexDigits then some (hexDigits.idxOf c.toLower) else none := by
  have ascii : ∀ n < 128, Text.hexDigit? (Char.ofNat n) =
      if (Char.ofNat n).toLower ∈ hexDigits then some (hexDigits.idxOf (Char.ofNat n).toLower)
      else none := by
    decide +kernel
  by_cases small : c.toNat < 128
  · simpa using ascii c.toNat small
  · have above (d : Char) (known : d.toNat < 128) : ¬c ≤ d :=
      fun le => small (Nat.lt_of_le_of_lt le known)
    have same : c.toLower = c := dif_neg fun upper => above 'Z' (by decide) upper.2
    have absent : c ∉ hexDigits := by
      intro mem
      have known : hexDigits.all (·.toNat < 128) = true := by decide
      exact small (by simpa using List.all_eq_true.mp known c mem)
    have noDigit : c.isDigit = false :=
      Bool.eq_false_iff.mpr fun digit => above '9' (by decide) (Char.isDigit_iff_toNat.mp digit).2
    rw [same, if_neg absent, Text.hexDigit?, noDigit, if_neg Bool.false_ne_true,
      if_neg fun lower => above 'f' (by decide) lower.2,
      if_neg fun upper => above 'F' (by decide) upper.2]

theorem hexDigit?_eq_some_iff {c : Char} {n : Nat} : Text.hexDigit? c = some n ↔
    c.toLower ∈ hexDigits ∧ hexDigits.idxOf c.toLower = n := by
  rw [hexDigit?_eq]
  split <;> simp_all

theorem hexadecimal_eq {ds : List Char} (unit : CodeUnit ds) :
    Text.hexadecimal ds = unitValue ds := by
  obtain ⟨d₁, d₂, d₃, d₄, rfl⟩ := List.length_eq_four.mp unit.four
  obtain ⟨h₁, h₂, h₃, h₄⟩ := by simpa using unit.all
  simp [Text.hexadecimal, unitValue, hexDigit?_eq, h₁, h₂, h₃, h₄]

theorem reads_hexDigit {n : Nat} : hexDigit.Reads p n q ↔
    ∃ d, Text.hexDigit? d = some n ∧ Passes [d] p q := by
  rw [hexDigit, reads_peek_bind]
  constructor
  · intro reads
    split at reads
    · rename_i value found
      obtain ⟨d, first, hex⟩ := Option.bind_eq_some_iff.mp found
      rw [reads_advance_bind] at reads
      obtain ⟨rfl, rfl⟩ := reads_pure.mp reads
      exact ⟨d, hex, passes_cons_iff.mpr ⟨first, .refl _⟩⟩
    · exact absurd reads not_reads_expecting
  · rintro ⟨d, hex, passes⟩
    have first := (passes_cons_iff.mp passes).1
    simp only [first, Option.bind_some, hex, reads_advance_bind]
    exact reads_pure.mpr ⟨rfl, passes.eq_advance⟩

theorem reads_codeUnit {n : Nat} : codeUnit.Reads p n q ↔
    ∃ ds, CodeUnit ds ∧ unitValue ds = n ∧ Passes ds p q := by
  simp only [codeUnit, reads_bind, reads_pure, reads_hexDigit, hexDigit?_eq_some_iff]
  constructor
  · rintro ⟨_, p₁, ⟨d₁, ⟨hex₁, rfl⟩, at₁⟩, _, p₂, ⟨d₂, ⟨hex₂, rfl⟩, at₂⟩, _, p₃,
      ⟨d₃, ⟨hex₃, rfl⟩, at₃⟩, _, p₄, ⟨d₄, ⟨hex₄, rfl⟩, at₄⟩, rfl, rfl⟩
    refine ⟨[d₁, d₂, d₃, d₄], ⟨rfl, ?_⟩, ?_, ((at₁.trans at₂).trans at₃).trans at₄⟩
    · simp [hex₁, hex₂, hex₃, hex₄]
    · simp [unitValue, Nat.mul_comm]
  · rintro ⟨ds, ⟨four, all⟩, rfl, passes⟩
    obtain ⟨d₁, d₂, d₃, d₄, rfl⟩ : ∃ d₁ d₂ d₃ d₄, ds = [d₁, d₂, d₃, d₄] :=
      List.length_eq_four.mp four
    obtain ⟨hex₁, hex₂, hex₃, hex₄⟩ := by simpa using all
    obtain ⟨p₁, at₁, passes⟩ := passes_append_iff.mp (show Passes ([d₁] ++ _) p q from passes)
    obtain ⟨p₂, at₂, passes⟩ := passes_append_iff.mp (show Passes ([d₂] ++ _) p₁ q from passes)
    obtain ⟨p₃, at₃, at₄⟩ := passes_append_iff.mp (show Passes ([d₃] ++ [d₄]) p₂ q from passes)
    refine ⟨_, p₁, ⟨d₁, ⟨hex₁, rfl⟩, at₁⟩, _, p₂, ⟨d₂, ⟨hex₂, rfl⟩, at₂⟩, _, p₃,
      ⟨d₃, ⟨hex₃, rfl⟩, at₃⟩, _, q, ⟨d₄, ⟨hex₄, rfl⟩, at₄⟩, ?_, rfl⟩
    simp [unitValue, Nat.mul_comm]

theorem reads_scalar {n : Nat} {c : Char} :
    (scalar n).Reads p c q ↔ n.isValidChar ∧ c = Char.ofNat n ∧ q = p := by
  rw [scalar]
  split
  · rename_i valid
    simp [valid]
  · rename_i invalid
    simp [invalid]

theorem simpleEscape_iff {c d : Char} : simpleEscape? c = some d ↔ (c, d) ∈ escapes := by
  unfold simpleEscape?
  constructor
  · intro found
    split at found <;> simp_all [escapes, eq_comm]
  · intro listed
    simp only [escapes, List.mem_cons, List.not_mem_nil, Prod.mk.injEq, or_false] at listed
    rcases listed with ⟨rfl, rfl⟩ | ⟨rfl, rfl⟩ | ⟨rfl, rfl⟩ | ⟨rfl, rfl⟩ | ⟨rfl, rfl⟩ | ⟨rfl, rfl⟩ |
      ⟨rfl, rfl⟩ | ⟨rfl, rfl⟩ | ⟨rfl, rfl⟩ <;> rfl

theorem reads_secondHalf {high : Nat} {c : Char} : (secondHalf high).Reads p c q ↔
    ∃ es, CodeUnit es ∧ Passes ('\\' :: 'u' :: es) p q ∧
      0xDC00 ≤ unitValue es ∧ unitValue es < 0xE000 ∧
      (0x10000 + (high - 0xD800) * 0x400 + (unitValue es - 0xDC00)).isValidChar ∧
      c = Char.ofNat (0x10000 + (high - 0xD800) * 0x400 + (unitValue es - 0xDC00)) := by
  constructor
  · intro reads
    rw [secondHalf, reads_here_bind] at reads
    split at reads
    · rename_i another
      rw [reads_advance_bind] at reads
      obtain ⟨low, r, unit, reads⟩ := reads_bind.mp reads
      obtain ⟨es, four, rfl, passes⟩ := reads_codeUnit.mp unit
      split at reads
      · rename_i range
        obtain ⟨valid, same, rfl⟩ := reads_scalar.mp reads
        obtain ⟨rest, split⟩ := List.isPrefixOf_iff_prefix.mp another
        have lead : Passes ['\\', 'u'] p (p.advance 2) := passes_advance split.symm
        exact ⟨es, four, lead.trans passes, range.1, range.2, valid, same⟩
      · exact absurd reads not_reads_expectingAt
    · exact absurd reads not_reads_expectingAt
  · rintro ⟨es, unit, passes, least, most, valid, same⟩
    obtain ⟨r, lead, behind⟩ := passes_append_iff.mp (show Passes (['\\', 'u'] ++ es) p q from passes)
    have another : ['\\', 'u'].isPrefixOf p.rest = true :=
      List.isPrefixOf_iff_prefix.mpr ⟨_, lead.1.symm⟩
    have place : r = p.advance 2 := lead.eq_advance
    rw [secondHalf, reads_here_bind, if_pos another, reads_advance_bind, ← place]
    refine Reads.bind (reads_codeUnit.mpr ⟨es, unit, rfl, behind⟩) ?_
    rw [if_pos ⟨least, most⟩]
    exact reads_scalar.mpr ⟨valid, same, rfl⟩

theorem reads_unicodeEscape {c : Char} : unicodeEscape.Reads p c q ↔
    ∃ text, Escape c ('u' :: text) ∧ Passes text p q := by
  simp only [unicodeEscape, reads_bind, reads_codeUnit]
  constructor
  · rintro ⟨high, r, ⟨ds, unit, rfl, passes⟩, reads⟩
    split at reads
    · obtain ⟨valid, rfl, rfl⟩ := reads_scalar.mp reads
      exact ⟨ds, .unit unit valid, passes⟩
    · rename_i surrogate
      obtain ⟨es, other, passes', least, most, valid, same⟩ := reads_secondHalf.mp reads
      rw [same]
      exact ⟨_, .pair unit rfl (by omega) (by omega) other rfl least most, passes.trans passes'⟩
  · rintro ⟨text, derived, passes⟩
    cases derived with
    | letter listed => simp [escapes] at listed
    | unit unit valid =>
      refine ⟨_, q, ⟨_, unit, rfl, passes⟩, ?_⟩
      rw [if_pos (by unfold Nat.isValidChar at valid; omega)]
      exact reads_scalar.mpr ⟨valid, rfl, rfl⟩
    | pair unit high least most other low above below =>
      subst high low
      obtain ⟨r, passes, passes'⟩ := passes_append_iff.mp passes
      refine ⟨_, r, ⟨_, unit, rfl, passes⟩, ?_⟩
      rw [if_neg (by omega)]
      refine reads_secondHalf.mpr ⟨_, other, passes', above, below, ?_, rfl⟩
      unfold Nat.isValidChar
      omega

theorem reads_escape {c : Char} : escape.Reads p c q ↔ ∃ text, Escape c text ∧ Passes text p q := by
  rw [escape, reads_peek_bind]
  constructor
  · intro reads
    split at reads
    · rename_i first
      rw [reads_advance_bind] at reads
      obtain ⟨text, derived, passes⟩ := reads_unicodeEscape.mp reads
      exact ⟨_, derived, passes_cons_iff.mpr ⟨first, passes⟩⟩
    · rename_i letter _ first
      split at reads
      · rename_i d known
        rw [reads_advance_bind] at reads
        obtain ⟨rfl, rfl⟩ := reads_pure.mp reads
        exact ⟨[letter], .letter (simpleEscape_iff.mp known), passes_cons_iff.mpr ⟨first, .refl _⟩⟩
      · exact absurd reads not_reads_expecting
    · exact absurd reads not_reads_expecting
  · rintro ⟨text, derived, passes⟩
    obtain ⟨c, text, rfl⟩ : ∃ c cs, text = c :: cs := by
      cases derived <;> exact ⟨_, _, rfl⟩
    have first := (passes_cons_iff.mp passes).1
    rw [first]
    split
    · rename_i same
      cases same
      rw [reads_advance_bind]
      exact reads_unicodeEscape.mpr ⟨text, derived, (passes_cons_iff.mp passes).2⟩
    · rename_i letter other same
      cases same
      cases derived with
      | letter listed =>
        rw [simpleEscape_iff.mpr listed]
        exact reads_advance_bind.mpr (reads_pure.mpr ⟨rfl, passes.eq_advance⟩)
      | unit => exact absurd rfl other
      | pair => exact absurd rfl other
    · rename_i none
      cases none

theorem stringChar_plain {quote c : Char} (notQuote : c ≠ quote) (notBackslash : c ≠ '\\')
    (passes : Passes [c] p q) : (stringChar quote).Reads p (some c) q := by
  rw [stringChar, reads_peek_bind, (passes_cons_iff.mp passes).1]
  simp only [if_neg notQuote, if_neg notBackslash, reads_advance_bind]
  exact reads_pure.mpr ⟨rfl, passes.eq_advance⟩

theorem stringChar_escaped {quote c : Char} {text : List Char} (proper : '\\' ≠ quote)
    (derived : Escape c text) (passes : Passes ('\\' :: text) p q) :
    (stringChar quote).Reads p (some c) q := by
  obtain ⟨first, rest⟩ := passes_cons_iff.mp passes
  rw [stringChar, reads_peek_bind, first]
  simp only [if_neg proper, if_true, reads_advance_bind]
  exact (reads_escape.mpr ⟨text, derived, rest⟩).bind (pure_reads _ q)

theorem stringChar_closing {quote : Char} (passes : Passes [quote] p q) :
    (stringChar quote).Reads p none q := by
  rw [stringChar, reads_peek_bind, (passes_cons_iff.mp passes).1]
  simp only [if_true, reads_advance_bind]
  exact reads_pure.mpr ⟨rfl, passes.eq_advance⟩

theorem stringChar_sound {quote : Char} {next : Option Char}
    (reads : (stringChar quote).Reads p next q) :
    match next with
    | none => Passes [quote] p q
    | some c => (c ≠ quote ∧ c ≠ '\\' ∧ Passes [c] p q) ∨
      ∃ text, Escape c text ∧ Passes ('\\' :: text) p q := by
  rw [stringChar, reads_peek_bind] at reads
  split at reads
  · exact absurd reads not_reads_expecting
  · rename_i c first
    have one : Passes [c] p (p.advance 1) := passes_cons_iff.mpr ⟨first, .refl _⟩
    rw [reads_advance_bind] at reads
    split at reads
    · rename_i closing
      obtain ⟨rfl, rfl⟩ := reads_pure.mp reads
      exact closing ▸ one
    · rename_i notQuote
      split at reads
      · rename_i backslash
        obtain ⟨d, r, escaped, done⟩ := reads_bind.mp reads
        obtain ⟨rfl, rfl⟩ := reads_pure.mp done
        obtain ⟨text, derived, passes⟩ := reads_escape.mp escaped
        exact .inr ⟨text, derived, (backslash ▸ one).trans passes⟩
      · rename_i notBackslash
        obtain ⟨rfl, rfl⟩ := reads_pure.mp reads
        exact .inl ⟨notQuote, notBackslash, one⟩

theorem stringChars_sound {quote : Char} {n : Nat} {cs : List Char}
    (reads : (stringChars quote n).Reads p cs q) :
    ∃ text, StringBody quote cs text ∧ Passes (text ++ [quote]) p q := by
  induction n generalizing p cs with
  | zero => exact absurd reads not_reads_fail
  | succ n ih =>
    obtain ⟨next, r, step, rest⟩ := reads_bind.mp reads
    have read := stringChar_sound step
    cases next with
    | none =>
      obtain ⟨rfl, rfl⟩ := reads_pure.mp rest
      exact ⟨[], .nil, read⟩
    | some c =>
      obtain ⟨cs, r', more, done⟩ := reads_bind.mp rest
      obtain ⟨rfl, rfl⟩ := reads_pure.mp done
      obtain ⟨text, body, passes⟩ := ih more
      rcases read with ⟨notQuote, notBackslash, first⟩ | ⟨escape, derived, first⟩
      · exact ⟨_, .plain notQuote notBackslash body, first.trans passes⟩
      · refine ⟨_, .escaped derived body, ?_⟩
        rw [List.append_assoc]
        exact first.trans passes

theorem stringChars_complete {quote : Char} {n : Nat} {cs text : List Char} (proper : '\\' ≠ quote)
    (body : StringBody quote cs text) (enough : text.length < n)
    (passes : Passes (text ++ [quote]) p q) : (stringChars quote n).Reads p cs q := by
  induction body generalizing p n with
  | nil =>
    cases n with
    | zero => simp at enough
    | succ n => exact (stringChar_closing passes).bind (pure_reads [] q)
  | @plain c cs text notQuote notBackslash _ ih =>
    cases n with
    | zero => simp at enough
    | succ n =>
      obtain ⟨r, first, rest⟩ := passes_append_iff.mp (show Passes ([c] ++ _) p q from passes)
      have more := ih (by simpa using enough) rest
      exact (stringChar_plain notQuote notBackslash first).bind (more.bind (pure_reads _ q))
  | @escaped c cs escape text derived _ ih =>
    cases n with
    | zero => simp at enough
    | succ n =>
      rw [List.append_assoc] at passes
      obtain ⟨r, first, rest⟩ := passes_append_iff.mp passes
      have fewer : text.length < n := by
        simp only [List.length_append, List.length_cons] at enough
        omega
      have more := ih fewer rest
      exact (stringChar_escaped proper derived first).bind (more.bind (pure_reads _ q))

theorem stringIn_sound {quote : Char} {s : String} (listed : quote ∈ ['"', '\''])
    (first : p.rest.head? = some quote) (reads : (stringIn quote).Reads p s q) :
    ∃ text, StringText s text ∧ Passes text p q := by
  rw [stringIn, reads_advance_bind, reads_here_bind] at reads
  obtain ⟨cs, r, body, done⟩ := reads_bind.mp reads
  obtain ⟨rfl, rfl⟩ := reads_pure.mp done
  obtain ⟨text, derived, passes⟩ := stringChars_sound body
  exact ⟨_, .mk listed derived, passes_cons_iff.mpr ⟨first, passes⟩⟩

theorem stringIn_complete {quote : Char} {cs text : List Char} (listed : quote ∈ ['"', '\''])
    (body : StringBody quote cs text) (passes : Passes (quote :: text ++ [quote]) p q) :
    (stringIn quote).Reads p (String.ofList cs) q := by
  have proper : '\\' ≠ quote := by
    rintro rfl
    simp at listed
  have rest : Passes (text ++ [quote]) (p.advance 1) q := (passes_cons_iff.mp passes).2
  have enough : text.length < (p.advance 1).rest.length + 1 := by
    rw [rest.1]
    simp only [List.length_append]
    omega
  rw [stringIn, reads_advance_bind, reads_here_bind]
  exact (stringChars_complete proper body enough rest).bind (pure_reads _ q)

end Strings

end ActionChain.Scanner
