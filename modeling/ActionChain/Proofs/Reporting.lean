import ActionChain.Proofs.Lexemes

/-!
What scanners report as missing. A scanner is honest at a place of a source if it stays in the
source, if nothing that it misses is there, and if it never fails without missing something. Being
honest is closed under the ways to combine scanners, so it goes up from the lexemes to whole
expressions: `Expression.scanner_honest`.
-/
namespace ActionChain

def Place.In (source : List Char) (p : Place) : Prop := ∃ before, Passes before (.start source) p

namespace Place.In

variable {source : List Char} {p q : Place}

theorem start (source : List Char) : (Place.start source).In source := ⟨[], .refl _⟩

theorem passes {cs : List Char} (inside : p.In source) (passes : Passes cs p q) : q.In source := by
  obtain ⟨before, reached⟩ := inside
  exact ⟨before ++ cs, reached.trans passes⟩

theorem skip (inside : p.In source) (test : Char → Bool) : (p.skip test).In source :=
  inside.passes (passes_skip test p)

theorem advance_one {c : Char} (inside : p.In source) (next : p.rest.head? = some c) :
    (p.advance 1).In source := by
  obtain ⟨rest, text⟩ := List.head?_eq_some_iff.mp next
  have passes : Passes [c] p (p.advance 1) := passes_advance text
  exact inside.passes passes

/-- How much has been passed tells the places of a source apart. -/
theorem eq_of_passed (first : p.In source) (second : q.In source) (same : p.passed = q.passed) :
    p = q := by
  obtain ⟨cs, text, passed⟩ := first
  obtain ⟨ds, text', passed'⟩ := second
  have lengths : cs.length = ds.length := by omega
  obtain ⟨-, rests⟩ := List.append_inj (text.symm.trans text') lengths
  cases p
  cases q
  simp_all

end Place.In

/-- What is expected does not stand at the start of the text. Some expectations are about values
rather than texts, and say nothing here. -/
def Expectation.Absent (rest : List Char) : Expectation → Prop
  | .token text => ¬ text.toList <+: rest
  | .identifier => Ends Scanner.isLetter rest
  | .digit => Ends Char.isDigit rest
  | .endOfInput => rest ≠ []
  | .number | .string | .escapeSequence | .hexDigit | .lowSurrogate | .scalarValue
  | .shallower _ => True

theorem not_prefix_of_head {c : Char} {cs rest : List Char} (other : rest.head? ≠ some c) :
    ¬ (c :: cs) <+: rest := by
  rintro ⟨more, rfl⟩
  exact other rfl

namespace Misses

variable {source : List Char} {m n : Misses}

def Honest (source : List Char) : Misses → Prop
  | .none => True
  | .at p es => p.In source ∧ es ≠ [] ∧ ∀ e ∈ es, e.Absent p.rest
  | .tooDeep p limit => p.In source ∧ limit = Argument.depthLimit

theorem Honest.merge (first : m.Honest source) (second : n.Honest source) :
    (m.merge n).Honest source := by
  cases m with
  | none => rwa [Scanner.none_merge]
  | tooDeep =>
    cases n with
    | none | «at» => exact first
    | tooDeep => exact second
  | «at» p es =>
    cases n with
    | none => exact first
    | tooDeep => exact second
    | «at» q fs =>
      rw [Misses.merge]
      split
      · exact second
      · split
        · rename_i same
          obtain ⟨inside, some, absent⟩ := first
          obtain ⟨inside', -, absent'⟩ := second
          obtain rfl := inside.eq_of_passed inside' same
          refine ⟨inside, by simp [some], ?_⟩
          intro e mem
          exact (List.mem_append.mp mem).elim (absent e) (absent' e)
        · exact first

theorem merge_eq_none (nothing : m.merge n = .none) : m = .none ∧ n = .none := by
  cases m <;> cases n <;> simp_all [merge]
  split at nothing
  · cases nothing
  · split at nothing <;> cases nothing

end Misses

namespace Scanner

variable {α β : Type} {source : List Char} {p q : Place}

structure Honest (source : List Char) (s : Scanner α) (p : Place) : Prop where
  stays : ∀ a q, s.Reads p a q → q.In source
  misses : (s p).misses.Honest source
  /-- A failure is due to something that is missed. -/
  due : (s p).result = none → (s p).misses ≠ .none

section Rules

variable {s : Scanner α} {f : α → Scanner β}

theorem Honest.of_eq {t : Scanner α} {p' : Place} (honest : t.Honest source p')
    (same : s p = t p') : s.Honest source p := by
  constructor
  · intro a q reads
    rw [Reads, same] at reads
    exact honest.stays a q reads
  · rw [same]
    exact honest.misses
  · rw [same]
    exact honest.due

theorem Honest.bind (first : s.Honest source p)
    (rest : ∀ a q, q.In source → s.Reads p a q → (f a).Honest source q) :
    (s >>= f).Honest source p := by
  rcases did : s p with ⟨_ | ⟨a, q⟩, m⟩
  · have whole := bind_of_none (f := f) did
    constructor
    · intro b r reads
      rw [Reads, whole] at reads
      cases reads
    · have misses := first.misses
      rw [did] at misses
      rwa [whole]
    · have due := first.due
      rw [did] at due
      rw [whole]
      exact fun _ => due rfl
  · have reads : s.Reads p a q := by rw [Reads, did]
    have next := rest a q (first.stays a q reads) reads
    have whole := bind_of_some (f := f) did
    have misses := first.misses
    rw [did] at misses
    constructor
    · intro b r both
      rw [Reads, whole] at both
      exact next.stays b r both
    · rw [whole]
      exact misses.merge next.misses
    · rw [whole]
      intro failed nothing
      exact next.due failed (Misses.merge_eq_none nothing).2

theorem pure_honest (inside : p.In source) (a : α) : (pure a : Scanner α).Honest source p := by
  refine ⟨fun c q reads => ?_, trivial, nofun⟩
  obtain ⟨-, rfl⟩ := reads_pure.mp reads
  exact inside

theorem Honest.map {g : α → β} (honest : s.Honest source p) :
    (s >>= fun a => pure (g a)).Honest source p :=
  honest.bind fun a _ inside _ => pure_honest inside (g a)

theorem expecting_honest {es : List Expectation} (inside : p.In source) (some : es ≠ [])
    (absent : ∀ e ∈ es, e.Absent p.rest) : (expecting es : Scanner α).Honest source p :=
  ⟨fun _ _ reads => absurd reads not_reads_expecting, ⟨inside, some, absent⟩, nofun⟩

theorem tooDeep_honest (inside : p.In source) :
    (tooDeep Argument.depthLimit : Scanner α).Honest source p :=
  ⟨fun _ _ reads => absurd reads not_reads_tooDeep, ⟨inside, rfl⟩, nofun⟩

theorem peek_honest {f : Option Char → Scanner β} (honest : (f p.rest.head?).Honest source p) :
    (peek >>= f).Honest source p := honest.of_eq (peek_bind f p)

theorem here_honest {f : Place → Scanner β} (honest : (f p).Honest source p) :
    (here >>= f).Honest source p := honest.of_eq (here_bind f p)

theorem advance_honest {n : Nat} {f : Unit → Scanner β}
    (honest : (f ()).Honest source (p.advance n)) : (advance n >>= f).Honest source p :=
  honest.of_eq (advance_bind n f p)

theorem missed_honest {es : List Expectation} {n : Nat} (inside : p.In source)
    (behind : (p.advance n).In source) (some : es ≠ [])
    (absent : ∀ e ∈ es, e.Absent (p.advance n).rest) : (missed es n).Honest source p := by
  refine ⟨fun _ q reads => ?_, ⟨behind, some, absent⟩, nofun⟩
  cases reads
  exact inside

theorem charsWhile_honest (inside : p.In source) (test : Char → Bool) :
    (charsWhile test).Honest source p := by
  refine ⟨fun _ q reads => ?_, trivial, nofun⟩
  cases reads
  exact inside.skip test

theorem space_honest (inside : p.In source) : space.Honest source p := by
  refine ⟨fun _ q reads => ?_, trivial, nofun⟩
  cases reads
  exact inside.skip isSpace

end Rules

section Tokens

variable {text : String}

theorem token_honest (inside : p.In source) : (token text).Honest source p := by
  by_cases fits : text.toList <+: p.rest
  · have did := token_of_starts fits
    refine ⟨fun found q reads => ?_, by rw [did]; trivial, by simp [did]⟩
    obtain ⟨rest, split⟩ := fits
    rw [Reads, did] at reads
    cases reads
    exact inside.passes (passes_advance split.symm)
  · have did := token_of_not_starts fits
    refine ⟨fun found q reads => ?_, ?_, by simp [did]⟩
    · rw [Reads, did] at reads
      cases reads
      exact inside
    · rw [did]
      exact ⟨inside, by simp, by simpa [Expectation.Absent] using fits⟩

/-- A text that is required is missed if it is not there. -/
theorem required_honest (inside : p.In source) : (required text).Honest source p := by
  by_cases fits : text.toList <+: p.rest
  · refine (token_honest inside).bind fun found q inside reads => ?_
    rw [Reads, token_of_starts fits] at reads
    cases reads
    exact pure_honest inside ()
  · have looked := token_of_not_starts fits
    have did : required text p = ⟨none, .at p [.token text]⟩ := bind_of_some looked
    refine ⟨fun _ q reads => ?_, ?_, by simp [did]⟩
    · rw [Reads, did] at reads
      cases reads
    · rw [did]
      exact ⟨inside, by simp, by simpa [Expectation.Absent] using fits⟩

theorem spacedToken_honest (inside : p.In source) : (spacedToken text).Honest source p := by
  have behind := inside.skip isSpace
  have honest : (token text).Honest source (p.skip isSpace) := token_honest behind
  by_cases fits : text.toList <+: (p.skip isSpace).rest
  · exact honest.of_eq (by rw [spacedToken, token_of_starts fits])
  · have did : spacedToken text p = ⟨some (false, p), .at (p.skip isSpace) [.token text]⟩ := by
      rw [spacedToken, token_of_not_starts fits]
    refine ⟨fun _ q reads => ?_, ?_, by simp [did]⟩
    · rw [Reads, did] at reads
      cases reads
      exact inside
    · rw [did]
      exact ⟨behind, by simp, by simpa [Expectation.Absent] using fits⟩

end Tokens

section Lexemes

theorem identifier_honest (inside : p.In source) : identifier.Honest source p := by
  apply peek_honest
  split
  · rename_i c next
    split
    · exact (charsWhile_honest inside _).map
    · rename_i noLetter
      apply expecting_honest inside (by simp)
      simpa [Expectation.Absent, Ends, next] using noLetter
  · rename_i next
    apply expecting_honest inside (by simp)
    simp [Expectation.Absent, Ends, next]

theorem minusSign_honest (inside : p.In source) : minusSign.Honest source p := by
  apply peek_honest
  split
  · rename_i next
    exact advance_honest (pure_honest (inside.advance_one next) _)
  · exact pure_honest inside _

theorem wholePart_honest (inside : p.In source) : wholePart.Honest source p := by
  apply peek_honest
  split
  · rename_i next
    exact advance_honest (pure_honest (inside.advance_one next) _)
  · rename_i c _ next
    split
    · exact charsWhile_honest inside _
    · rename_i noDigit
      apply expecting_honest inside (by simp)
      simpa [Expectation.Absent, Ends, next] using noDigit
  · rename_i next
    apply expecting_honest inside (by simp)
    simp [Expectation.Absent, Ends, next]

theorem ends_digits {rest : List Char}
    (none : ¬ (rest.head?.map Char.isDigit).getD false = true) : Ends Char.isDigit rest := by
  intro c next
  simpa [next] using none

theorem fractionPart_honest (inside : p.In source) : fractionPart.Honest source p := by
  apply here_honest
  split
  · rename_i rest point
    have behind := inside.advance_one (c := '.') (by simp [point])
    split
    · exact advance_honest (charsWhile_honest behind _)
    · rename_i none
      refine (missed_honest inside behind (by simp) ?_).bind fun _ q inside _ =>
        pure_honest inside _
      simpa [Expectation.Absent, Place.advance, point] using ends_digits none
  · exact pure_honest inside _

theorem exponentPart_honest (inside : p.In source) : exponentPart.Honest source p := by
  apply here_honest
  split
  · exact pure_honest inside _
  · rename_i mark rest here
    obtain ⟨sign, -, length, tail, parts⟩ := exponentSign_sound rest
    have behind : (p.advance ((exponentSign rest).2 + 1)).In source := by
      have text : p.rest = (mark :: sign) ++ tail := by rw [here, ← parts, List.cons_append]
      rw [← length]
      exact inside.passes (passes_advance text)
    dsimp only
    split
    · split
      · refine advance_honest ((charsWhile_honest behind _).bind fun ds q inside _ => ?_)
        exact pure_honest inside _
      · rename_i none
        refine (missed_honest inside behind (by simp) ?_).bind fun _ q inside _ =>
          pure_honest inside _
        simpa [Expectation.Absent, Place.advance, here] using ends_digits none
    · exact pure_honest inside _

theorem number_honest (inside : p.In source) : Scanner.number.Honest source p := by
  refine (minusSign_honest inside).bind fun minus q inside _ => ?_
  refine (wholePart_honest inside).bind fun whole q inside _ => ?_
  refine (fractionPart_honest inside).bind fun fraction q inside _ => ?_
  exact (exponentPart_honest inside).map

theorem hexDigit_honest (inside : p.In source) : hexDigit.Honest source p := by
  apply peek_honest
  split
  · rename_i d read
    obtain ⟨c, next, -⟩ := Option.bind_eq_some_iff.mp read
    exact advance_honest (pure_honest (inside.advance_one next) _)
  · exact expecting_honest inside (by simp) (by simp [Expectation.Absent])

theorem codeUnit_honest (inside : p.In source) : codeUnit.Honest source p := by
  refine (hexDigit_honest inside).bind fun _ q inside _ => ?_
  refine (hexDigit_honest inside).bind fun _ q inside _ => ?_
  refine (hexDigit_honest inside).bind fun _ q inside _ => ?_
  exact (hexDigit_honest inside).map

theorem scalar_honest (inside : p.In source) (code : Nat) : (scalar code).Honest source p := by
  unfold scalar
  split
  · exact pure_honest inside _
  · exact expecting_honest inside (by simp) (by simp [Expectation.Absent])

theorem secondHalf_honest (inside : p.In source) (high : Nat) :
    (secondHalf high).Honest source p := by
  -- the place of the pair is named behind it, when its value is known
  have refused (q : Place) :
      (expectingAt p [.lowSurrogate] : Scanner Char).Honest source q :=
    ⟨fun _ _ reads => absurd reads not_reads_expectingAt,
      ⟨inside, by simp, by simp [Expectation.Absent]⟩, nofun⟩
  apply here_honest
  split
  · rename_i marked
    obtain ⟨rest, text⟩ := List.isPrefixOf_iff_prefix.mp marked
    have behind := inside.passes (passes_advance text.symm)
    refine advance_honest ((codeUnit_honest behind).bind fun low q inside _ => ?_)
    split
    · exact scalar_honest inside _
    · exact refused q
  · exact refused p

theorem unicodeEscape_honest (inside : p.In source) : unicodeEscape.Honest source p := by
  refine (codeUnit_honest inside).bind fun high q inside _ => ?_
  split
  · exact scalar_honest inside _
  · exact secondHalf_honest inside _

theorem escape_honest (inside : p.In source) : escape.Honest source p := by
  apply peek_honest
  split
  · rename_i next
    exact advance_honest (unicodeEscape_honest (inside.advance_one next))
  · rename_i next
    split
    · exact advance_honest (pure_honest (inside.advance_one next) _)
    · exact expecting_honest inside (by simp) (by simp [Expectation.Absent])
  · exact expecting_honest inside (by simp) (by simp [Expectation.Absent])

theorem stringChar_honest {quote : Char} (inside : p.In source) :
    (stringChar quote).Honest source p := by
  apply peek_honest
  split
  · rename_i nothing
    apply expecting_honest inside (by simp)
    simp [Expectation.Absent, List.head?_eq_none_iff.mp nothing]
  · rename_i c next
    apply advance_honest
    have behind := inside.advance_one next
    split
    · exact pure_honest behind _
    · split
      · exact (escape_honest behind).map
      · exact pure_honest behind _

theorem stringChar_shortens {quote c : Char} (reads : (stringChar quote).Reads p (some c) q) :
    q.rest.length < p.rest.length := by
  rcases stringChar_sound reads with ⟨-, -, passes⟩ | ⟨text, -, passes⟩
  all_goals
    rw [passes.1, List.length_append]
    simp

/-- There is always fuel for the rest of the source, so that the end of a string is missed. -/
theorem stringChars_honest {quote : Char} {n : Nat} (inside : p.In source)
    (enough : p.rest.length < n) : (stringChars quote n).Honest source p := by
  induction n generalizing p with
  | zero => omega
  | succ n ih =>
    refine (stringChar_honest inside).bind fun next q inside reads => ?_
    cases next with
    | none => exact pure_honest inside _
    | some c =>
      have shorter := stringChar_shortens reads
      exact (ih inside (by omega)).map

theorem stringIn_honest {quote : Char} (inside : p.In source)
    (first : p.rest.head? = some quote) : (stringIn quote).Honest source p := by
  have behind := inside.advance_one first
  exact advance_honest (here_honest (stringChars_honest behind (Nat.lt_succ_self _)).map)

end Lexemes

section Lists

variable {item : Scanner α} {separator close : String}
  (honest : ∀ p, p.In source → item.Honest source p)

include honest

theorem more_honest {n : Nat} (inside : p.In source) :
    (more item separator n).Honest source p := by
  induction n generalizing p with
  | zero => exact pure_honest inside _
  | succ n ih =>
    refine (spacedToken_honest inside).bind fun found q inside _ => ?_
    split
    · refine (space_honest inside).bind fun _ q inside _ => ?_
      refine (honest q inside).bind fun a q inside _ => ?_
      exact (ih inside).map
    · exact pure_honest inside _

theorem separated_honest (inside : p.In source) :
    (separated item separator).Honest source p := by
  refine (honest p inside).bind fun a q inside _ => ?_
  exact here_honest (more_honest honest inside).map

theorem itemsUntil_honest (inside : p.In source) : (itemsUntil item close).Honest source p := by
  refine (space_honest inside).bind fun _ q inside _ => ?_
  refine (token_honest inside).bind fun found q inside _ => ?_
  split
  · exact pure_honest inside _
  · refine (separated_honest honest inside).bind fun items q inside _ => ?_
    refine (space_honest inside).bind fun _ q inside _ => ?_
    exact (required_honest inside).map

end Lists

end Scanner

namespace Argument

open Scanner

variable {source : List Char} {p : Place}

theorem segments_honest {n : Nat} (inside : p.In source) : (segments n).Honest source p := by
  induction n generalizing p with
  | zero => exact pure_honest inside _
  | succ n ih =>
    refine (token_honest inside).bind fun found q inside _ => ?_
    split
    · refine (identifier_honest inside).bind fun s q inside _ => ?_
      exact (ih inside).map
    · exact pure_honest inside _

theorem key_honest (inside : p.In source) : key.Honest source p := by
  apply peek_honest
  split
  · rename_i first
    exact stringIn_honest inside first
  · rename_i first
    exact stringIn_honest inside first
  · have noted : (missed [.string] 0).Honest source p :=
      missed_honest inside inside (by simp) (by simp [Expectation.Absent])
    exact noted.bind fun _ q inside _ => identifier_honest inside

section Levels

variable {deeper : Option (Scanner Argument)}
  (below : ∀ item, deeper = some item → ∀ p, p.In source → item.Honest source p)

theorem member_honest {item : Scanner Argument} (honest : ∀ p, p.In source → item.Honest source p)
    (inside : p.In source) : (member item).Honest source p := by
  refine (key_honest inside).bind fun k q inside _ => ?_
  refine (space_honest inside).bind fun _ q inside _ => ?_
  refine (required_honest inside).bind fun _ q inside _ => ?_
  refine (space_honest inside).bind fun _ q inside _ => ?_
  exact (honest q inside).map

theorem nested_honest {α : Type} {scan : Scanner Argument → Scanner α} (inside : p.In source)
    (honest : ∀ item, deeper = some item → (scan item).Honest source p) :
    (nested deeper scan).Honest source p := by
  cases deeper with
  | none => exact tooDeep_honest inside
  | some item => exact honest item rfl

include below

theorem named_honest (inside : p.In source) : (named deeper).Honest source p := by
  refine (identifier_honest inside).bind fun name q inside _ => ?_
  refine (spacedToken_honest inside).bind fun found q inside _ => ?_
  split
  · refine Honest.map (nested_honest inside fun item deep => ?_)
    exact itemsUntil_honest (below item deep) inside
  · exact here_honest (segments_honest inside).map

theorem level_honest (inside : p.In source) : (level deeper).Honest source p := by
  have others : ∀ e ∈ [Expectation.number, .string, .token "[", .token "\x7b", .identifier],
      p.rest.head? ≠ some '[' → p.rest.head? ≠ some '\x7b' → Ends isLetter p.rest →
        e.Absent p.rest := by
    intro e mem noBracket noBrace noLetter
    simp only [List.mem_cons, List.not_mem_nil, or_false] at mem
    rcases mem with rfl | rfl | rfl | rfl | rfl
    · trivial
    · trivial
    · exact not_prefix_of_head noBracket
    · exact not_prefix_of_head noBrace
    · exact noLetter
  apply peek_honest
  rw [startingWith.eq_def]
  split
  case h_1 first =>
    refine nested_honest inside fun item deep => advance_honest ?_
    have honest (p : Place) (inside : p.In source) := member_honest (below item deep) inside
    exact (itemsUntil_honest honest (inside.advance_one first)).map
  case h_2 first =>
    refine nested_honest inside fun item deep => advance_honest ?_
    exact (itemsUntil_honest (below item deep) (inside.advance_one first)).map
  case h_3 first | h_4 first => exact (stringIn_honest inside first).map
  case h_5 c noBrace noBracket _ _ first =>
    split
    · exact (number_honest inside).map
    · split
      · exact named_honest below inside
      · rename_i noLetter
        apply expecting_honest inside (by simp)
        intro e mem
        apply others e mem <;> simp_all [Ends]
  case h_6 first =>
    apply expecting_honest inside (by simp)
    intro e mem
    apply others e mem <;> simp [first, Ends]

end Levels

theorem scanner_honest {k : Nat} (inside : p.In source) : (scanner k).Honest source p := by
  induction k generalizing p with
  | zero => exact level_honest nofun inside
  | succ k ih =>
    refine level_honest (fun item deep p inside => ?_) inside
    cases deep
    exact ih inside

end Argument

namespace Call

open Scanner

variable {source : List Char} {p : Place}

theorem scanner_honest (inside : p.In source) : scanner.Honest source p := by
  refine (identifier_honest inside).bind fun name q inside _ => ?_
  refine (spacedToken_honest inside).bind fun found q inside _ => ?_
  split
  · exact (itemsUntil_honest (fun p => Argument.scanner_honest) inside).map
  · exact pure_honest inside _

theorem chain_honest (inside : p.In source) : chain.Honest source p :=
  separated_honest (fun _ => scanner_honest) inside

end Call

namespace Expression

open Scanner

variable {source : List Char} {p : Place}

theorem rejectChain_honest (inside : p.In source) : rejectChain.Honest source p := by
  refine (spacedToken_honest inside).bind fun found q inside _ => ?_
  split
  · exact (space_honest inside).bind fun _ q inside _ => Call.chain_honest inside
  · exact pure_honest inside _

theorem atEnd_honest (inside : p.In source) : atEnd.Honest source p := by
  apply peek_honest
  split
  · exact pure_honest inside _
  · rename_i c next
    apply expecting_honest inside (by simp)
    intro e mem
    obtain rfl := List.mem_singleton.mp mem
    intro nothing
    simp [nothing] at next

theorem scanner_honest (inside : p.In source) : scanner.Honest source p := by
  refine (space_honest inside).bind fun _ q inside _ => ?_
  refine (Call.chain_honest inside).bind fun success q inside _ => ?_
  refine (rejectChain_honest inside).bind fun reject q inside _ => ?_
  refine (space_honest inside).bind fun _ q inside _ => ?_
  exact (atEnd_honest inside).map

end Expression

end ActionChain
