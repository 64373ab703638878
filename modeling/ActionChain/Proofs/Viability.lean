import Mathlib
import ActionChain.Proofs.Parsing

/-!
Where scanners miss what they look for. A scanner explores a language if it reads texts of the
language only, and if what it has passed before a miss is always the beginning of such a text.
Exploring is closed under the ways to combine scanners, so it goes up from the lexemes to whole
expressions. Escapes with a number are left out: they may be refused for their value, behind their
last digit.
-/
namespace ActionChain

open Grammar

/-- Every place of a miss is of the kind. Nesting too deep is not held against a place. -/
def Misses.All (kind : Place → Prop) : Misses → Prop
  | .none => True
  | .at p _ => kind p
  | .tooDeep _ limit => limit = Argument.depthLimit

theorem Misses.All.merge {kind : Place → Prop} {m n : Misses} (first : m.All kind)
    (second : n.All kind) : (m.merge n).All kind := by
  cases m with
  | none => rwa [Scanner.none_merge]
  | tooDeep =>
    cases n with
    | none | «at» => exact first
    | tooDeep => exact second
  | «at» p es =>
    cases n with
    | none => exact first
    | tooDeep => exact second
    | «at» q fs =>
      rw [Misses.merge]
      split
      · exact second
      · split <;> exact first

theorem Misses.All.mono {kind other : Place → Prop} {m : Misses} (all : m.All kind)
    (weaker : ∀ p, kind p → other p) : m.All other := by
  cases m with
  | none => trivial
  | «at» p => exact weaker p all
  | tooDeep => exact all

/-- No escape in the text is given by a number. -/
def Unnumbered (text : List Char) : Prop := ¬ ['\\', 'u'] <:+: text

theorem Passes.unnumbered {cs : List Char} {p q : Place} (passes : Passes cs p q)
    (plain : Unnumbered p.rest) : Unnumbered q.rest := by
  intro numbered
  rw [passes.1] at plain
  exact plain (numbered.trans (List.suffix_append cs q.rest).isInfix)

namespace Scanner

variable {α β : Type} {p q : Place} {K L M : Language Char}

/-- A text of the language may have begun at `p` and be unfinished at `q`. -/
def Begun (L : Language Char) (p q : Place) : Prop := ∃ cs more, cs ++ more ∈ L ∧ Passes cs p q

theorem Begun.mono (begun : Begun L p q) (less : L ≤ M) : Begun M p q := by
  obtain ⟨cs, more, mem, passes⟩ := begun
  exact ⟨cs, more, less mem, passes⟩

theorem begun_of_mem {cs : List Char} (mem : cs ∈ L) : Begun L p p := ⟨[], cs, mem, .refl p⟩

/-- Each place at which the scanner misses something is of the kind. -/
def MissesAt (s : Scanner α) (kind : Place → Prop) (p : Place) : Prop := (s p).misses.All kind

/-- The scanner reads texts of the language, and where it misses something one has begun. -/
structure Explores (s : Scanner α) (L : Language Char) (p : Place) : Prop where
  reads : ∀ a q, s.Reads p a q → ∃ cs ∈ L, Passes cs p q
  misses : Unnumbered p.rest → s.MissesAt (Begun L p) p

section Rules

variable {s : Scanner α} {f : α → Scanner β}

theorem Explores.mono (explores : s.Explores L p) (less : L ≤ M) : s.Explores M p := by
  constructor
  · intro a q reads
    obtain ⟨cs, mem, passes⟩ := explores.reads a q reads
    exact ⟨cs, less mem, passes⟩
  · intro plain
    exact (explores.misses plain).mono fun q begun => begun.mono less

theorem Explores.of_eq {t : Scanner α} (explores : t.Explores L p) (same : s p = t p) :
    s.Explores L p := by
  constructor
  · intro a q reads
    rw [Reads, same] at reads
    exact explores.reads a q reads
  · rw [MissesAt, same]
    exact explores.misses

section Misses

variable {kind : Place → Prop}

theorem missesAt_bind (first : s.MissesAt kind p)
    (rest : ∀ a q, s.Reads p a q → (f a).MissesAt kind q) : (s >>= f).MissesAt kind p := by
  rw [MissesAt] at first ⊢
  rcases did : s p with ⟨_ | ⟨a, q⟩, m⟩
  · rw [did] at first
    rwa [bind_of_none did]
  · rw [did] at first
    have reads : s.Reads p a q := by rw [Reads, did]
    rw [bind_of_some did]
    exact first.merge (rest a q reads)

theorem peek_missesAt {f : Option Char → Scanner β} (misses : (f p.rest.head?).MissesAt kind p) :
    (peek >>= f).MissesAt kind p := by
  rwa [MissesAt, peek_bind]

theorem here_missesAt {f : Place → Scanner β} (misses : (f p).MissesAt kind p) :
    (here >>= f).MissesAt kind p := by
  rwa [MissesAt, here_bind]

theorem charsWhile_missesAt {test : Char → Bool} : (charsWhile test).MissesAt kind p := trivial

theorem advance_missesAt {n : Nat} : (advance n).MissesAt kind p := trivial

theorem pure_missesAt (a : α) : (pure a : Scanner α).MissesAt kind p := trivial

end Misses

/-- What comes second may depend on what was read first. -/
theorem explores_bind (first : Unnumbered p.rest → s.MissesAt (Begun M p) p)
    (rest : ∀ a q, s.Reads p a q → ∃ cs L, Passes cs p q ∧ (∀ ds ∈ L, cs ++ ds ∈ M) ∧
      (f a).Explores L q) : (s >>= f).Explores M p := by
  constructor
  · intro b r reads
    obtain ⟨a, q, read, next⟩ := reads_bind.mp reads
    obtain ⟨cs, L, passes, continued, explores⟩ := rest a q read
    obtain ⟨ds, mem, passes'⟩ := explores.reads b r next
    exact ⟨cs ++ ds, continued ds mem, passes.trans passes'⟩
  · intro plain
    refine missesAt_bind (first plain) fun a q read => ?_
    obtain ⟨cs, L, passes, continued, explores⟩ := rest a q read
    refine (explores.misses (passes.unnumbered plain)).mono fun r => ?_
    rintro ⟨ds, more, mem, passes'⟩
    refine ⟨cs ++ ds, more, ?_, passes.trans passes'⟩
    rw [List.append_assoc]
    exact continued _ mem

theorem Explores.bind (first : s.Explores K p)
    (rest : ∀ a q, s.Reads p a q → (f a).Explores L q) (some : ∃ cs, cs ∈ L) :
    (s >>= f).Explores (K * L) p := by
  refine explores_bind (fun plain => (first.misses plain).mono fun q => ?_) fun a q read => ?_
  · rintro ⟨cs, more, mem, passes⟩
    obtain ⟨other, known⟩ := some
    refine ⟨cs, more ++ other, ?_, passes⟩
    rw [← List.append_assoc]
    exact Language.append_mem_mul mem known
  · obtain ⟨cs, mem, passes⟩ := first.reads a q read
    exact ⟨cs, L, passes, fun ds => Language.append_mem_mul mem, rest a q read⟩

theorem pure_explores (a : α) (some : [] ∈ L) : (pure a : Scanner α).Explores L p := by
  refine ⟨fun c q reads => ?_, fun _ => trivial⟩
  obtain ⟨rfl, rfl⟩ := reads_pure.mp reads
  exact ⟨[], some, .refl _⟩

/-- What comes last only turns what was read into a value. -/
theorem Explores.map {g : α → β} (explores : s.Explores L p) :
    (s >>= fun a => pure (g a)).Explores L p := by
  have both := explores.bind (f := fun a => pure (g a)) (L := 1)
    (fun a q _ => pure_explores (g a) rfl) ⟨[], rfl⟩
  rwa [mul_one] at both

theorem expecting_explores {es : List Expectation} (some : ∃ cs, cs ∈ L) :
    (expecting es : Scanner α).Explores L p := by
  obtain ⟨cs, mem⟩ := some
  exact ⟨fun _ _ reads => absurd reads not_reads_expecting, fun _ => begun_of_mem mem⟩

theorem tooDeep_explores : (tooDeep Argument.depthLimit : Scanner α).Explores L p :=
  ⟨fun _ _ reads => absurd reads not_reads_tooDeep, fun _ => rfl⟩

theorem fail_explores : (fail : Scanner α).Explores L p :=
  ⟨fun _ _ reads => absurd reads not_reads_fail, fun _ => trivial⟩

theorem peek_explores {f : Option Char → Scanner β} (explores : (f p.rest.head?).Explores L p) :
    (peek >>= f).Explores L p := explores.of_eq (peek_bind f p)

theorem here_explores {f : Place → Scanner β} (explores : (f p).Explores L p) :
    (here >>= f).Explores L p := explores.of_eq (here_bind f p)

theorem advance_explores {f : Unit → Scanner β} (cs : List Char) {rest : List Char}
    (text : p.rest = cs ++ rest) (continued : ∀ ds ∈ L, cs ++ ds ∈ M)
    (explores : (f ()).Explores L (p.advance cs.length)) :
    (advance cs.length >>= f).Explores M p := by
  refine explores_bind (fun _ => trivial) fun _ q read => ?_
  cases read
  exact ⟨cs, L, passes_advance text, continued, explores⟩

end Rules

section Tokens

variable {text : String} {found missing : Scanner α}

def blanks : Language Char := {cs | Blank cs}

def word (text : String) : Language Char := {text.toList}

theorem mem_word (text : String) : text.toList ∈ word text := rfl

theorem nil_mem_blanks : [] ∈ blanks := by
  intro c mem
  cases mem

theorem one_le_blanks : 1 ≤ blanks := by
  rintro _ rfl
  exact nil_mem_blanks

theorem blanks_mul_blanks : blanks * blanks ≤ blanks := by
  rintro _ ⟨cs, blank, ds, blank', rfl⟩ c mem
  exact (List.mem_append.mp mem).elim (blank c) (blank' c)

theorem space_explores : space.Explores blanks p :=
  ⟨fun _ _ reads => reads_blank_of_space reads, fun _ => trivial⟩

theorem token_misses (some : ∃ more, text.toList ++ more ∈ M) :
    (token text).MissesAt (Begun M p) p := by
  rw [MissesAt]
  by_cases fits : text.toList <+: p.rest
  · rw [token_of_starts fits]
    trivial
  · rw [token_of_not_starts fits]
    obtain ⟨more, mem⟩ := some
    exact begun_of_mem mem

theorem token_explores (here : ∀ q, Passes text.toList p q → found.Explores K q)
    (away : missing.Explores L p) (some : ∃ cs, cs ∈ K) :
    (do if ← token text then found else missing).Explores (word text * K + L) p := by
  refine explores_bind (fun _ => token_misses ?_) fun b q read => ?_
  · obtain ⟨cs, mem⟩ := some
    exact ⟨cs, .inl (Language.append_mem_mul (mem_word _) mem)⟩
  · have looked := reads_token.mp read
    cases b with
    | true =>
      exact ⟨text.toList, K, looked, fun ds mem => .inl (Language.append_mem_mul (mem_word _) mem),
        here q looked⟩
    | false =>
      obtain ⟨rfl, -⟩ := looked
      exact ⟨[], L, .refl q, fun ds mem => .inr mem, away⟩

theorem required_explores : (required text).Explores (word text) p := by
  refine (token_explores (K := 1) (L := 0) (fun q _ => pure_explores () rfl) fail_explores
    ⟨[], rfl⟩).mono ?_
  rw [mul_one, add_zero]

/-- The place at which a text is missed lies behind the space, so that has to be allowed there. -/
theorem spacedToken_explores (here : ∀ q, found.Explores K q) (away : missing.Explores L p)
    (some : ∀ cs ∈ blanks, ∃ more, cs ++ more ∈ blanks * word text * K + L) :
    (do if ← spacedToken text then found else missing).Explores (blanks * word text * K + L) p := by
  refine explores_bind (fun _ => ?_) fun b q read => ?_
  · have skipped : space.Reads p () (p.skip isSpace) := rfl
    obtain ⟨cs, blank, passes⟩ := reads_blank_of_space skipped
    rw [MissesAt, spacedToken]
    by_cases fits : text.toList <+: (p.skip isSpace).rest
    · rw [token_of_starts fits]
      trivial
    · rw [token_of_not_starts fits]
      obtain ⟨more, mem⟩ := some cs blank
      exact ⟨cs, more, mem, passes⟩
  · have looked := reads_spacedToken.mp read
    cases b with
    | true =>
      obtain ⟨r, skipped, passes'⟩ := looked
      obtain ⟨cs, blank, passes⟩ := reads_blank_of_space skipped
      refine ⟨cs ++ text.toList, K, passes.trans passes', fun ds mem => .inl ?_, here q⟩
      exact Language.append_mem_mul (Language.append_mem_mul blank (mem_word _)) mem
    | false =>
      obtain ⟨rfl, -⟩ := looked
      exact ⟨[], L, .refl q, fun ds mem => .inr mem, away⟩

end Tokens

section Lexemes

def identifiers : Language Char := {cs | Identifier cs}

def numbers : Language Char := {cs | ∃ x, Number x cs}

def strings : Language Char := {cs | ∃ s, StringText s cs}

theorem identifier_a : ['a'] ∈ identifiers := identifier_of_all rfl rfl

theorem digits_zero : Digits ['0'] := ⟨by simp, by simp⟩

theorem number_zero : ['0'] ∈ numbers := ⟨_, .mk false .zero .none .none⟩

theorem identifier_explores : identifier.Explores identifiers p := by
  constructor
  · intro name q reads
    obtain ⟨cs, named, -, passes, -⟩ := reads_identifier.mp reads
    exact ⟨cs, named, passes⟩
  · intro _
    apply peek_missesAt
    split
    · split
      · exact missesAt_bind charsWhile_missesAt fun _ _ _ => pure_missesAt _
      · exact begun_of_mem identifier_a
    · exact begun_of_mem identifier_a

def signs : Language Char := {cs | cs = [] ∨ cs = ['-']}

def wholes : Language Char := {cs | Whole cs}

def fractions : Language Char := {cs | ∃ ds, Fraction ds cs}

def exponents : Language Char := {cs | ∃ e, Exponent e cs}

theorem minusSign_explores : minusSign.Explores signs p := by
  constructor
  · intro minus q reads
    refine ⟨_, ?_, (reads_minusSign.mp reads).1⟩
    cases minus with
    | true => exact .inr rfl
    | false => exact .inl rfl
  · intro _
    apply peek_missesAt
    split
    · exact missesAt_bind advance_missesAt fun _ _ _ => pure_missesAt _
    · exact pure_missesAt _

theorem wholePart_explores : wholePart.Explores wholes p := by
  constructor
  · intro ds q reads
    obtain ⟨whole, passes⟩ := wholePart_sound reads
    exact ⟨ds, whole, passes⟩
  · intro _
    have zero : Begun wholes p p := begun_of_mem Whole.zero
    apply peek_missesAt
    split
    · exact missesAt_bind advance_missesAt fun _ _ _ => pure_missesAt _
    · split
      · exact charsWhile_missesAt
      · exact zero
    · exact zero

/-- If no digit stands behind a point, the miss is behind the point, though the point is not read. -/
theorem fractionPart_explores : fractionPart.Explores fractions p := by
  constructor
  · intro ds q reads
    obtain ⟨cs, fraction, passes⟩ := fractionPart_sound reads
    exact ⟨cs, ⟨ds, fraction⟩, passes⟩
  · intro _
    apply here_missesAt
    split
    · rename_i rest point
      split
      · exact missesAt_bind advance_missesAt fun _ _ _ => charsWhile_missesAt
      · have behind : Passes ['.'] p (p.advance 1) := passes_advance point
        refine missesAt_bind ?_ fun _ _ _ => pure_missesAt _
        exact ⟨['.'], ['0'], ⟨_, .point digits_zero⟩, behind⟩
    · exact pure_missesAt _

theorem exponentPart_explores : exponentPart.Explores exponents p := by
  constructor
  · intro e q reads
    obtain ⟨cs, exponent, passes⟩ := exponentPart_sound reads
    exact ⟨cs, ⟨e, exponent⟩, passes⟩
  · intro _
    apply here_missesAt
    split
    · exact pure_missesAt _
    · rename_i mark rest here
      obtain ⟨sign, signed, length, tail, parts⟩ := exponentSign_sound rest
      dsimp only
      split
      · rename_i marked
        split
        · refine missesAt_bind advance_missesAt fun _ _ _ => ?_
          exact missesAt_bind charsWhile_missesAt fun _ _ _ => pure_missesAt _
        · have behind : Passes (mark :: sign) p (p.advance ((exponentSign rest).2 + 1)) := by
            rw [← length]
            exact passes_advance (by rw [here, ← parts, List.cons_append])
          refine missesAt_bind ?_ fun _ _ _ => pure_missesAt _
          exact ⟨mark :: sign, ['0'], ⟨_, .power (by simpa using marked) signed digits_zero⟩, behind⟩
      · exact pure_missesAt _

theorem number_parts : signs * (wholes * (fractions * exponents)) ≤ numbers := by
  rintro _ ⟨sign, signed, _, ⟨whole, first, _, ⟨fraction, ⟨ds, point⟩, power, ⟨e, exponent⟩, rfl⟩,
    rfl⟩, rfl⟩
  rcases signed with rfl | rfl
  · exact ⟨_, by simpa using Number.mk false first point exponent⟩
  · exact ⟨_, by simpa using Number.mk true first point exponent⟩

theorem number_explores : number.Explores numbers p := by
  have whole : ['0'] ∈ wholes := Whole.zero
  have noFraction : [] ∈ fractions := ⟨_, .none⟩
  have noExponent : [] ∈ exponents := ⟨_, .none⟩
  have last := Language.append_mem_mul noFraction noExponent
  have behind := Language.append_mem_mul whole last
  refine Explores.mono ?_ number_parts
  refine minusSign_explores.bind (fun minus q _ => ?_) ⟨_, behind⟩
  refine wholePart_explores.bind (fun _ q _ => ?_) ⟨_, last⟩
  refine fractionPart_explores.bind (fun ds q _ => ?_) ⟨_, noExponent⟩
  exact exponentPart_explores.map

def stringEnds (quote : Char) : Language Char :=
  {cs | ∃ body text, StringBody quote body text ∧ cs = text ++ [quote]}

theorem closing_mem (quote : Char) : [quote] ∈ stringEnds quote := ⟨[], [], .nil, rfl⟩

theorem escape_missesAt {kind : Place → Prop} (plain : p.rest.head? ≠ some 'u') (here : kind p) :
    escape.MissesAt kind p := by
  apply peek_missesAt
  split
  · contradiction
  · split
    · exact missesAt_bind advance_missesAt fun _ _ _ => pure_missesAt _
    · exact here
  · exact here

theorem unmarked_behind {rest : List Char} (plain : Unnumbered ('\\' :: rest)) :
    rest.head? ≠ some 'u' := by
  intro next
  obtain ⟨rest, rfl⟩ := List.head?_eq_some_iff.mp next
  exact plain ⟨[], rest, rfl⟩

theorem stringChar_missesAt {quote : Char} (plain : Unnumbered p.rest) :
    (stringChar quote).MissesAt (Begun (stringEnds quote) p) p := by
  apply peek_missesAt
  split
  · exact begun_of_mem (closing_mem quote)
  · rename_i c first
    obtain ⟨rest, text⟩ := List.head?_eq_some_iff.mp first
    refine missesAt_bind advance_missesAt fun _ q read => ?_
    cases read
    split
    · exact pure_missesAt _
    · split
      · rename_i backslash
        subst backslash
        have one : Passes ['\\'] p (p.advance 1) := passes_advance text
        have unmarked : (p.advance 1).rest.head? ≠ some 'u' := by
          rw [text] at plain
          simpa [Place.advance, text] using unmarked_behind plain
        have newline : '\\' :: ['n'] ++ [quote] ∈ stringEnds quote :=
          ⟨_, _, .escaped (.letter (d := '\n') (by simp [escapes])) .nil, rfl⟩
        refine missesAt_bind (escape_missesAt unmarked ?_) fun _ _ _ => pure_missesAt _
        exact ⟨['\\'], _, newline, one⟩
      · exact pure_missesAt _

theorem Begun.afterChar {quote c : Char} {r : Place} (begun : Begun (stringEnds quote) q r)
    (reads : (stringChar quote).Reads p (some c) q) : Begun (stringEnds quote) p r := by
  obtain ⟨cs, more, ⟨body, text, derived, same⟩, passes⟩ := begun
  rcases stringChar_sound reads with ⟨notQuote, notBackslash, first⟩ | ⟨escape, escaped, first⟩
  · refine ⟨_, more, ⟨_, _, .plain notQuote notBackslash derived, ?_⟩, first.trans passes⟩
    simp [same]
  · refine ⟨_, more, ⟨_, _, .escaped escaped derived, ?_⟩, first.trans passes⟩
    simp [same]

theorem stringChars_explores {quote : Char} {n : Nat} :
    (stringChars quote n).Explores (stringEnds quote) p := by
  constructor
  · intro body q reads
    obtain ⟨text, derived, passes⟩ := stringChars_sound reads
    exact ⟨_, ⟨body, text, derived, rfl⟩, passes⟩
  · intro plain
    induction n generalizing p with
    | zero => trivial
    | succ n ih =>
      refine missesAt_bind (stringChar_missesAt plain) fun next q read => ?_
      cases next with
      | none => exact pure_missesAt _
      | some c =>
        have plain : Unnumbered q.rest := by
          rcases stringChar_sound read with ⟨-, -, passes⟩ | ⟨_, -, passes⟩
          · exact passes.unnumbered plain
          · exact passes.unnumbered plain
        refine missesAt_bind ((ih plain).mono fun r begun => ?_) fun _ _ _ => pure_missesAt _
        exact begun.afterChar read

theorem stringIn_explores {quote : Char} (listed : quote ∈ ['"', '\''])
    (first : p.rest.head? = some quote) : (stringIn quote).Explores strings p := by
  obtain ⟨rest, text⟩ := List.head?_eq_some_iff.mp first
  refine advance_explores (L := stringEnds quote) [quote] text ?_
    (here_explores stringChars_explores.map)
  rintro _ ⟨body, text, derived, rfl⟩
  exact ⟨_, .mk listed derived⟩

end Lexemes

section Lists

variable {item : Scanner α} {good : Piece α → Prop} {separator close : String}

def texts (good : Piece α → Prop) : Language Char := {cs | ∃ x, good x ∧ x.text = cs}

def mores (separator : String) (good : Piece α → Prop) : Language Char :=
  {cs | ∃ xs, (∀ x ∈ xs, good x) ∧ More separator.toList xs cs}

def separateds (separator : String) (good : Piece α → Prop) : Language Char :=
  {cs | ∃ xs, (∀ x ∈ xs, good x) ∧ Separated separator.toList xs cs}

def listeds (good : Piece α → Prop) : Language Char :=
  {cs | ∃ xs, (∀ x ∈ xs, good x) ∧ Listed xs cs}

theorem nil_mem_mores : [] ∈ mores separator good := ⟨[], by simp, .nil⟩

theorem blanks_le_mores : blanks ≤ mores separator good * blanks := by
  intro cs blank
  exact Language.append_mem_mul nil_mem_mores blank

theorem blanks_mul_mores :
    blanks * (mores separator good * blanks) ≤ mores separator good * blanks := by
  rintro _ ⟨lead, blank, _, ⟨_, ⟨xs, all, more⟩, last, blank', rfl⟩, rfl⟩
  cases more with
  | nil => exact blanks_le_mores (blanks_mul_blanks (Language.append_mem_mul blank blank'))
  | @cons x rest before after text blankBefore blankAfter more =>
    have blanks := blanks_mul_blanks (Language.append_mem_mul blank blankBefore)
    refine ⟨_, ⟨x :: rest, all, .cons blanks blankAfter more⟩, last, blank', ?_⟩
    simp

theorem mores_cons :
    blanks * word separator * (blanks * (texts good * (mores separator good * blanks))) ≤
      mores separator good * blanks := by
  rintro _ ⟨_, ⟨before, blank, _, rfl, rfl⟩, _, ⟨after, blank', _, ⟨_, ⟨x, fine, rfl⟩, _,
    ⟨text, ⟨xs, all, more⟩, last, blank'', rfl⟩, rfl⟩, rfl⟩, rfl⟩
  refine ⟨_, ⟨x :: xs, List.forall_mem_cons.mpr ⟨fine, all⟩, .cons blank blank' more⟩, last,
    blank'', ?_⟩
  simp

theorem texts_mul_mores : texts good * mores separator good ≤ separateds separator good := by
  rintro _ ⟨_, ⟨x, fine, rfl⟩, text, ⟨xs, all, more⟩, rfl⟩
  exact ⟨x :: xs, List.forall_mem_cons.mpr ⟨fine, all⟩, .mk more⟩

theorem item_mul_mores : texts good * blanks * (mores separator good * blanks) ≤
    texts good * (mores separator good * blanks) := by
  rw [mul_assoc]
  exact mul_le_mul_right blanks_mul_mores _

section Items

variable (explores : ∀ p, item.Explores (texts good * blanks) p) (some : ∃ x, good x)

include explores some

theorem more_explores {n : Nat} :
    (more item separator n).Explores (mores separator good * blanks) p := by
  induction n generalizing p with
  | zero => exact pure_explores _ (blanks_le_mores nil_mem_blanks)
  | succ n ih =>
    obtain ⟨x, fine⟩ := some
    have last : [] ∈ mores separator good * blanks := blanks_le_mores nil_mem_blanks
    have behind := Language.append_mem_mul
      (Language.append_mem_mul (show x.text ∈ texts good from ⟨x, fine, rfl⟩) nil_mem_blanks) last
    have found (q : Place) : (do space; let a ← item; return a :: (← more item separator n)).Explores
        (blanks * (texts good * blanks * (mores separator good * blanks))) q := by
      refine space_explores.bind (fun _ r _ => ?_) ⟨_, behind⟩
      exact (explores r).bind (fun a _ _ => ih.map) ⟨_, last⟩
    refine (spacedToken_explores found (pure_explores [] nil_mem_blanks) fun cs blank => ?_).mono ?_
    · exact ⟨[], .inr (by rwa [List.append_nil])⟩
    · refine add_le (le_trans ?_ mores_cons) blanks_le_mores
      exact mul_le_mul' le_rfl (mul_le_mul' le_rfl item_mul_mores)

theorem separated_explores :
    (separated item separator).Explores (separateds separator good * blanks) p := by
  have last : [] ∈ mores separator good * blanks := blanks_le_mores nil_mem_blanks
  have items : (separated item separator).Explores
      (texts good * blanks * (mores separator good * blanks)) p :=
    (explores p).bind (fun a q _ => here_explores (more_explores explores some).map) ⟨_, last⟩
  refine items.mono (le_trans item_mul_mores ?_)
  rw [← mul_assoc]
  exact mul_le_mul' texts_mul_mores le_rfl

theorem itemsUntil_explores : (itemsUntil item close).Explores (listeds good * word close) p := by
  have closed := Language.append_mem_mul nil_mem_blanks (mem_word close)
  have items : (itemsUntil item close).Explores
      (blanks * (word close * 1 + separateds "," good * blanks * (blanks * word close))) p := by
    refine space_explores.bind (fun _ q _ => ?_) ⟨_, .inl (Language.append_mem_mul (mem_word _) rfl)⟩
    refine token_explores (fun r _ => pure_explores [] rfl) ?_ ⟨_, rfl⟩
    refine (separated_explores explores some).bind (fun items r _ => ?_) ⟨_, closed⟩
    exact space_explores.bind (fun _ _ _ => required_explores.map) ⟨_, mem_word _⟩
  refine items.mono ?_
  rintro _ ⟨before, blank, _, ⟨_, rfl, _, rfl, rfl⟩ |
    ⟨_, ⟨text, ⟨xs, all, separated⟩, after, blank', rfl⟩, _, ⟨after', blank'', _, rfl, rfl⟩, rfl⟩, rfl⟩
  · refine ⟨before, ⟨[], by simp, .none blank⟩, _, mem_word _, ?_⟩
    simp
  · have spaces := blanks_mul_blanks (Language.append_mem_mul blank' blank'')
    refine ⟨_, ⟨xs, all, .some blank separated spaces⟩, _, mem_word _, ?_⟩
    simp

end Items

end Lists

end Scanner

namespace Argument

open Scanner

variable {p q : Place} {k : Nat}

def keys : Language Char := {cs | ∃ key, Key key cs}

/-- The arguments that nest no deeper than the limit. -/
def within (limit : Nat) : Language Char := texts (IsArgument · limit)

theorem zero_within : ∃ x, IsArgument x k := by
  obtain ⟨x, derived⟩ := number_zero
  exact ⟨⟨0, .number x, ['0']⟩, .number derived, Nat.zero_le k⟩

theorem within_of_derived {d : Nat} {a : Argument} {text : List Char}
    (derived : ArgumentText d a text) (shallow : d ≤ k) : text ∈ within k :=
  ⟨⟨d, a, text⟩, ⟨derived, shallow⟩, rfl⟩

theorem key_explores : key.Explores keys p := by
  have quoted : strings ≤ keys := fun cs ⟨s, derived⟩ => ⟨s, .string derived⟩
  have named : identifiers ≤ keys := fun cs derived => ⟨_, .name derived⟩
  apply peek_explores
  split
  · rename_i first
    exact (stringIn_explores (by simp) first).mono quoted
  · rename_i first
    exact (stringIn_explores (by simp) first).mono quoted
  · refine Scanner.explores_bind (fun _ => begun_of_mem (named identifier_a)) fun _ q read => ?_
    cases read
    exact ⟨[], keys, .refl p, fun ds mem => mem, identifier_explores.mono named⟩

theorem member_explores {item : Scanner Argument}
    (explores : ∀ p, item.Explores (within k * blanks) p) :
    (member item).Explores (texts (IsMember · k) * blanks) p := by
  obtain ⟨x, derived⟩ := zero_within (k := k)
  have value :=
    Language.append_mem_mul (show x.text ∈ within k from ⟨x, derived, rfl⟩) nil_mem_blanks
  have after := Language.append_mem_mul nil_mem_blanks value
  have colon := Language.append_mem_mul (mem_word ":") after
  have before := Language.append_mem_mul nil_mem_blanks colon
  have parts : (member item).Explores
      (keys * (blanks * (word ":" * (blanks * (within k * blanks))))) p := by
    refine key_explores.bind (fun key _ _ => ?_) ⟨_, before⟩
    refine space_explores.bind (fun _ _ _ => ?_) ⟨_, colon⟩
    refine required_explores.bind (fun _ _ _ => ?_) ⟨_, after⟩
    refine space_explores.bind (fun _ r _ => ?_) ⟨_, value⟩
    exact (explores r).map
  refine parts.mono ?_
  rintro _ ⟨_, ⟨key, named⟩, _, ⟨before, blank, _, ⟨_, rfl, _, ⟨after, blank', _,
    ⟨_, ⟨x, derived, rfl⟩, last, blank'', rfl⟩, rfl⟩, rfl⟩, rfl⟩, rfl⟩
  let m : Member := ⟨key, named, blank, blank', x⟩
  refine ⟨m.piece.text, ⟨m.piece, ⟨m, rfl, derived⟩, rfl⟩, last, blank'', ?_⟩
  simp [m, Member.piece]

theorem zero_member : ∃ x, IsMember x k := by
  obtain ⟨x, derived⟩ := zero_within (k := k)
  exact ⟨_, ⟨_, .name identifier_a, nil_mem_blanks, nil_mem_blanks, x⟩, rfl, derived⟩

def dots : Language Char :=
  {cs | ∃ more : List (List Char), (∀ name ∈ more, Identifier name) ∧ more.flatMap ('.' :: ·) = cs}

theorem nil_mem_dots : [] ∈ dots := ⟨[], by simp, rfl⟩

theorem segments_explores {n : Nat} : (segments n).Explores dots p := by
  induction n generalizing p with
  | zero => exact pure_explores [] nil_mem_dots
  | succ n ih =>
    have named := Language.append_mem_mul identifier_a nil_mem_dots
    have parts : (segments (n + 1)).Explores (word "." * (identifiers * dots) + 1) p := by
      refine token_explores (fun q _ => ?_) (pure_explores [] rfl) ⟨_, named⟩
      exact identifier_explores.bind (fun _ _ _ => ih.map) ⟨_, nil_mem_dots⟩
    refine parts.mono (add_le ?_ ?_)
    · rintro _ ⟨_, rfl, _, ⟨name, derived, _, ⟨more, all, rfl⟩, rfl⟩, rfl⟩
      exact ⟨name :: more, List.forall_mem_cons.mpr ⟨derived, all⟩, rfl⟩
    · rintro _ rfl
      exact nil_mem_dots

section Levels

/-- What may be nested `limit` levels below stands for a list up to its closing text. -/
def inner (limit : Nat) (close : String) : Language Char :=
  {cs | ∃ j, limit = j + 1 ∧ cs ∈ listeds (IsArgument · j) * word close}

variable (below : ∀ j, k = j + 1 → ∀ p, (scanner j).Explores (within j * blanks) p)

theorem nested_explores {α : Type} {scan : Scanner Argument → Scanner α} {L : Language Char}
    (explores : ∀ j, k = j + 1 → (scan (scanner j)).Explores L p) :
    (nested (levelBelow k) scan).Explores L p := by
  cases k with
  | zero => exact tooDeep_explores
  | succ j => exact explores j rfl

include below

theorem named_explores : (named (levelBelow k)).Explores (within k * blanks) p := by
  have inside (name : String) (q : Place) : (do
      return Argument.call name (← nested (levelBelow k) fun item => itemsUntil item ")")).Explores
        (inner k ")") q := by
    refine (nested_explores fun j deeper => ?_).map
    exact (itemsUntil_explores (below j deeper) zero_within).mono fun cs mem => ⟨j, deeper, mem⟩
  have nothing := Language.append_mem_mul nil_mem_dots nil_mem_blanks
  have parts : (named (levelBelow k)).Explores
      (identifiers * (blanks * word "(" * inner k ")" + dots * blanks)) p := by
    refine identifier_explores.bind (fun name q _ => ?_) ⟨[], .inr nothing⟩
    refine spacedToken_explores (inside name) ?_ fun cs blank => ⟨[], .inr ?_⟩
    · refine (here_explores segments_explores.map).mono ?_
      exact le_mul_of_one_le_right' one_le_blanks
    · rw [List.append_nil]
      exact Language.append_mem_mul nil_mem_dots blank
  refine parts.mono ?_
  rintro _ ⟨name, identifier, _,
    ⟨_, ⟨space, blank, _, rfl, rfl⟩, _, ⟨j, rfl, text, ⟨xs, all, listed⟩, _, rfl, rfl⟩, rfl⟩ |
    ⟨_, ⟨more, all, rfl⟩, last, blank, rfl⟩, rfl⟩
  · have derived := ArgumentText.call xs identifier blank (fun x mem => (all x mem).1) listed
    have shallow := Nat.succ_le_succ (deepest_le_iff.mpr fun x mem => (all x mem).2)
    refine ⟨_, within_of_derived derived shallow, [], nil_mem_blanks, ?_⟩
    simp
  · refine ⟨_, ?_, last, blank, List.append_assoc _ _ _⟩
    cases more with
    | nil =>
      rw [List.flatMap_nil, List.append_nil]
      exact within_of_derived (ofName_derived identifier) (Nat.zero_le k)
    | cons second more =>
      rw [← join_dots]
      exact within_of_derived (.path (List.forall_mem_cons.mpr ⟨identifier, all⟩)
        (fun _ _ _ same => by cases same)) (Nat.zero_le k)

theorem level_explores : (level (levelBelow k)).Explores (within k * blanks) p := by
  have alone {cs : List Char} (mem : cs ∈ within k) : cs ∈ within k * blanks :=
    le_mul_of_one_le_right' one_le_blanks mem
  have quoted : strings ≤ within k * blanks := fun cs ⟨s, derived⟩ =>
    alone (within_of_derived (.string derived) (Nat.zero_le k))
  have numeral : numbers ≤ within k * blanks := fun cs ⟨x, derived⟩ =>
    alone (within_of_derived (.number derived) (Nat.zero_le k))
  refine peek_explores ?_
  rw [startingWith.eq_def]
  split
  case h_1 first =>
    obtain ⟨rest, text⟩ := List.head?_eq_some_iff.mp first
    refine nested_explores fun j deeper => ?_
    subst deeper
    refine advance_explores ['\x7b'] text ?_
      (itemsUntil_explores (fun p => member_explores (below j rfl)) zero_member).map
    rintro _ ⟨text, ⟨xs, all, listed⟩, _, rfl, rfl⟩
    obtain ⟨ms, rfl, each⟩ := members_of_pieces all
    have derived :=
      ArgumentText.object ms (fun m mem => (each m mem).1) listed (keepsLast_iff.mpr rfl)
    have shallow : deepest (ms.map Member.piece) ≤ j :=
      deepest_le_iff.mpr (List.forall_mem_map.mpr fun m mem => (each m mem).2)
    exact alone (within_of_derived derived (Nat.succ_le_succ shallow))
  case h_2 first =>
    obtain ⟨rest, text⟩ := List.head?_eq_some_iff.mp first
    refine nested_explores fun j deeper => ?_
    subst deeper
    refine advance_explores ['['] text ?_ (itemsUntil_explores (below j rfl) zero_within).map
    rintro _ ⟨text, ⟨xs, all, listed⟩, _, rfl, rfl⟩
    have derived := ArgumentText.array xs (fun x mem => (all x mem).1) listed
    have shallow := Nat.succ_le_succ (deepest_le_iff.mpr fun x mem => (all x mem).2)
    exact alone (within_of_derived derived shallow)
  case h_3 first | h_4 first => exact (stringIn_explores (by simp) first).map.mono quoted
  case h_5 =>
    split
    · exact number_explores.map.mono numeral
    · split
      · exact named_explores below
      · exact expecting_explores ⟨_, numeral number_zero⟩
  case h_6 => exact expecting_explores ⟨_, numeral number_zero⟩

end Levels

theorem scanner_explores : (scanner k).Explores (within k * blanks) p := by
  induction k generalizing p with
  | zero => exact level_explores (k := 0) fun _ deeper => nomatch deeper
  | succ k ih =>
    refine level_explores (k := k + 1) fun j deeper p => ?_
    cases deeper
    exact ih

end Argument

namespace Call

open Scanner Argument

variable {p : Place}

theorem call_a : ∃ x, IsCall x depthLimit :=
  ⟨⟨0, ⟨"a", []⟩, ['a']⟩, .bare identifier_a, Nat.zero_le _⟩

theorem scanner_explores : scanner.Explores (texts (IsCall · depthLimit) * blanks) p := by
  have parts : scanner.Explores (identifiers *
      (blanks * word "(" * (listeds (IsArgument · depthLimit) * word ")") + blanks)) p := by
    refine identifier_explores.bind (fun name q _ => ?_) ⟨[], .inr nil_mem_blanks⟩
    refine spacedToken_explores (fun r => ?_) (pure_explores _ nil_mem_blanks)
      fun cs blank => ⟨[], .inr ?_⟩
    · exact (itemsUntil_explores (fun _ => Argument.scanner_explores) zero_within).map
    · rwa [List.append_nil]
  refine parts.mono ?_
  rintro _ ⟨name, identifier, _, ⟨_, ⟨space, blank, _, rfl, rfl⟩, _, ⟨text, ⟨xs, all, listed⟩, _,
    rfl, rfl⟩, rfl⟩ | blank, rfl⟩
  · have derived := CallText.applied xs identifier blank (fun x mem => (all x mem).1) listed
    have shallow := deepest_le_iff.mpr fun x mem => (all x mem).2
    refine ⟨_, ⟨⟨_, _, _⟩, ⟨derived, shallow⟩, rfl⟩, [], nil_mem_blanks, ?_⟩
    simp
  · exact ⟨name, ⟨⟨0, _, name⟩, ⟨.bare identifier, Nat.zero_le _⟩, rfl⟩, _, blank, rfl⟩

def chains : Language Char := {cs | ∃ d ≤ depthLimit, ∃ calls, ChainText d calls cs}

theorem chain_a : ['a'] ∈ chains := by
  have call : CallText 0 ⟨"a", []⟩ ['a'] := .bare identifier_a
  have separated : Separated ['-', '>'] [(⟨0, ⟨"a", []⟩, ['a']⟩ : Piece Call)] (['a'] ++ []) :=
    .mk .nil
  exact ⟨_, Nat.zero_le _, _, .mk [⟨0, ⟨"a", []⟩, ['a']⟩] (by simpa using call) separated⟩

theorem chain_explores : chain.Explores (chains * blanks) p := by
  have calls : separateds "->" (IsCall · depthLimit) ≤ chains := by
    rintro _ ⟨xs, all, separated⟩
    exact ⟨deepest xs, deepest_le_iff.mpr fun x mem => (all x mem).2, _,
      .mk xs (fun x mem => (all x mem).1) separated⟩
  exact (separated_explores (fun _ => scanner_explores) call_a).mono (mul_le_mul' calls le_rfl)

end Call

namespace Expression

open Scanner Argument Call

variable {p : Place}

/-- The texts that are parsed. -/
def accepted : Language Char := {cs | ∃ d ≤ depthLimit, ∃ e, ExpressionText d e cs}

theorem rejectChain_explores :
    rejectChain.Explores (blanks * word "!~" * (blanks * (chains * blanks)) + blanks) p := by
  have chain := Language.append_mem_mul chain_a nil_mem_blanks
  refine spacedToken_explores (fun q => ?_) (pure_explores [] nil_mem_blanks)
    fun cs blank => ⟨[], .inr ?_⟩
  · exact space_explores.bind (fun _ _ _ => chain_explores) ⟨_, chain⟩
  · rwa [List.append_nil]

theorem atEnd_explores : atEnd.Explores 1 p := by
  apply peek_explores
  split
  · exact pure_explores () rfl
  · exact expecting_explores ⟨[], rfl⟩

/-- Whatever a scan of a text misses is missed behind the beginning of a text that is parsed. -/
theorem scanner_explores : scanner.Explores accepted p := by
  have ended := Language.append_mem_mul nil_mem_blanks (show [] ∈ (1 : Language Char) from rfl)
  have rejected : [] ++ ([] ++ []) ∈ (blanks * word "!~" * (blanks * (chains * blanks)) + blanks) *
      (blanks * 1) := Language.append_mem_mul (.inr nil_mem_blanks) ended
  have chained := Language.append_mem_mul (Language.append_mem_mul chain_a nil_mem_blanks) rejected
  have parts : scanner.Explores (blanks * (chains * blanks *
      ((blanks * word "!~" * (blanks * (chains * blanks)) + blanks) * (blanks * 1)))) p := by
    refine space_explores.bind (fun _ _ _ => ?_) ⟨_, chained⟩
    refine chain_explores.bind (fun _ _ _ => ?_) ⟨_, rejected⟩
    refine rejectChain_explores.bind (fun _ _ _ => ?_) ⟨_, ended⟩
    refine space_explores.bind (fun _ _ _ => ?_) ⟨[], rfl⟩
    exact atEnd_explores.map
  refine parts.mono ?_
  rintro _ ⟨before, blank, _, ⟨_, ⟨first, ⟨d, shallow, calls, derived⟩, space, blank', rfl⟩, _,
    ⟨_, tail, _, ⟨after, blank'', _, rfl, rfl⟩, rfl⟩, rfl⟩, rfl⟩
  rcases tail with ⟨_, ⟨space', blank₁, _, rfl, rfl⟩, _, ⟨lead, blank₂, _, ⟨second,
    ⟨d', shallow', calls', derived'⟩, after', blank₃, rfl⟩, rfl⟩, rfl⟩ | blank₁
  · have behind := blanks_mul_blanks (Language.append_mem_mul blank' blank₁)
    have last := blanks_mul_blanks (Language.append_mem_mul blank₃ blank'')
    refine ⟨max d d', Nat.max_le.mpr ⟨shallow, shallow'⟩, ⟨calls, calls'⟩, ?_⟩
    simpa using ExpressionText.reject blank derived behind blank₂ derived' last
  · have behind := blanks_mul_blanks (Language.append_mem_mul blank' blank₁)
    have last := blanks_mul_blanks (Language.append_mem_mul behind blank'')
    refine ⟨d, shallow, ⟨calls, []⟩, ?_⟩
    simpa using ExpressionText.success blank derived last

end Expression

end ActionChain
