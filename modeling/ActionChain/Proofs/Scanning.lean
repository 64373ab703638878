import ActionChain.Expression.Parser
import ActionChain.Proofs.Grammar

/-!
What scanners read. `Reads` is the result of a scan without its misses, `Passes` says which text lies
between two places, and each way to combine scanners has one lemma that takes a scan apart. `Answers`
also says when a scan is given up because the text nests too deep.
-/
namespace ActionChain

def Passes (cs : List Char) (p q : Place) : Prop :=
  p.rest = cs ++ q.rest ∧ q.passed = p.passed + cs.length

theorem Passes.refl (p : Place) : Passes [] p p := ⟨rfl, rfl⟩

theorem Passes.trans {cs ds : List Char} {p q r : Place} (first : Passes cs p q)
    (second : Passes ds q r) : Passes (cs ++ ds) p r := by
  constructor
  · rw [first.1, second.1, List.append_assoc]
  · rw [second.2, first.2, List.length_append, Nat.add_assoc]

theorem Passes.eq_advance {cs : List Char} {p q : Place} (passes : Passes cs p q) :
    q = p.advance cs.length := by
  have rest : (cs ++ q.rest).drop cs.length = q.rest := List.drop_left
  rw [Place.advance, passes.1, rest, ← passes.2]

theorem passes_advance {cs rest : List Char} {p : Place} (text : p.rest = cs ++ rest) :
    Passes cs p (p.advance cs.length) := by
  constructor
  · simp [Place.advance, text]
  · rfl

theorem passes_nil_iff {p q : Place} : Passes [] p q ↔ q = p := by
  constructor
  · intro passes
    exact passes.eq_advance
  · rintro rfl
    exact .refl q

theorem passes_append_iff {cs ds : List Char} {p r : Place} :
    Passes (cs ++ ds) p r ↔ ∃ q, Passes cs p q ∧ Passes ds q r := by
  constructor
  · intro passes
    have text : p.rest = cs ++ (ds ++ r.rest) := by rw [passes.1, List.append_assoc]
    refine ⟨p.advance cs.length, passes_advance text, ?_, ?_⟩
    · simp [Place.advance, text]
    · rw [passes.2, List.length_append, ← Nat.add_assoc]
      rfl
  · rintro ⟨q, first, second⟩
    exact first.trans second

theorem passes_cons_iff {c : Char} {cs : List Char} {p r : Place} :
    Passes (c :: cs) p r ↔ p.rest.head? = some c ∧ Passes cs (p.advance 1) r := by
  constructor
  · intro passes
    obtain ⟨q, first, rest⟩ := passes_append_iff.mp (show Passes ([c] ++ cs) p r from passes)
    have place : q = p.advance 1 := first.eq_advance
    exact ⟨by simp [first.1], place ▸ rest⟩
  · rintro ⟨first, rest⟩
    obtain ⟨ds, text⟩ := List.head?_eq_some_iff.mp first
    have passes : Passes [c] p (p.advance 1) := passes_advance text
    exact passes.trans rest

/-- No character that passes the test comes next. -/
def Ends (test : Char → Bool) (rest : List Char) : Prop := ∀ c, rest.head? = some c → test c = false

theorem Ends.mono {test other : Char → Bool} {rest : List Char} (ends : Ends test rest)
    (weaker : ∀ c, other c = true → test c = true) : Ends other rest := by
  intro c next
  have stop := ends c next
  cases fits : other c with
  | false => rfl
  | true =>
    rw [weaker c fits] at stop
    cases stop

theorem Passes.ends {test : Char → Bool} {cs : List Char} {p q : Place} (passes : Passes cs p q)
    (first : ∀ c, cs.head? = some c → test c = false) (ends : Ends test q.rest) :
    Ends test p.rest := by
  rw [passes.1]
  cases cs with
  | nil => exact ends
  | cons c cs => exact first

theorem takeWhile_of_ends {test : Char → Bool} {cs rest : List Char}
    (all : ∀ c ∈ cs, test c = true) (ends : Ends test rest) :
    (cs ++ rest).takeWhile test = cs := by
  have none : rest.takeWhile test = [] := by
    cases rest with
    | nil => rfl
    | cons d rest => rw [List.takeWhile_cons_of_neg (by simp [ends d rfl])]
  rw [List.takeWhile_append_of_pos all, none, List.append_nil]

theorem ends_dropWhile (test : Char → Bool) (rest : List Char) : Ends test (rest.dropWhile test) := by
  intro c next
  have found := List.head?_dropWhile_not test rest
  rw [next] at found
  simpa using found

theorem passes_skip (test : Char → Bool) (p : Place) :
    Passes (p.rest.takeWhile test) p (p.skip test) :=
  passes_advance List.takeWhile_append_dropWhile.symm

theorem skip_rest (test : Char → Bool) (p : Place) :
    (p.skip test).rest = p.rest.dropWhile test := by
  have parts : p.rest.takeWhile test ++ p.rest.dropWhile test = p.rest :=
    List.takeWhile_append_dropWhile
  exact List.append_cancel_left ((passes_skip test p).1.symm.trans parts.symm)

namespace Scanner

variable {α β : Type}

def Reads (s : Scanner α) (p : Place) (a : α) (q : Place) : Prop := (s p).result = some (a, q)

/-- The scan is given up, because the text nests too deep. -/
def TooDeep (s : Scanner α) (p : Place) : Prop :=
  ∃ q, s p = ⟨none, .tooDeep q Argument.depthLimit⟩

/-- The scan succeeds if the text fits, and is given up if it does not. -/
structure Answers (s : Scanner α) (fits : Prop) (p : Place) (a : α) (q : Place) : Prop where
  reads : fits → s.Reads p a q
  tooDeep : ¬ fits → s.TooDeep p

theorem none_merge (m : Misses) : Misses.none.merge m = m := by
  cases m <;> rfl

theorem Reads.iff_eq {s : Scanner α} {p q r : Place} {a b : α} (known : s.Reads p b r) :
    s.Reads p a q ↔ a = b ∧ q = r := by
  rw [Reads, known]
  simp [eq_comm]

section Bind

variable {s : Scanner α} {f : α → Scanner β} {p q r : Place} {a : α} {b : β}

theorem bind_of_none {m : Misses} (did : s p = ⟨none, m⟩) : (s >>= f) p = ⟨none, m⟩ := by
  simp only [bind, did]

theorem bind_of_some {m : Misses} (did : s p = ⟨some (a, q), m⟩) :
    (s >>= f) p = ⟨(f a q).result, m.merge (f a q).misses⟩ := by
  simp only [bind, did]

theorem bind_of_reads (first : s.Reads p a q) :
    ∃ m : Misses, (s >>= f) p = ⟨(f a q).result, m.merge (f a q).misses⟩ := by
  rcases did : s p with ⟨result, m⟩
  have found : result = some (a, q) := by
    rw [Reads, did] at first
    exact first
  subst found
  exact ⟨m, bind_of_some did⟩

theorem reads_bind : (s >>= f).Reads p b r ↔ ∃ a q, s.Reads p a q ∧ (f a).Reads q b r := by
  constructor
  · intro both
    rcases did : s p with ⟨_ | ⟨a, q⟩, m⟩
    · rw [Reads, bind_of_none did] at both
      cases both
    · have first : s.Reads p a q := by rw [Reads, did]
      obtain ⟨m, whole⟩ := bind_of_reads (f := f) first
      rw [Reads, whole] at both
      exact ⟨a, q, first, both⟩
  · rintro ⟨a, q, first, second⟩
    obtain ⟨m, whole⟩ := bind_of_reads (f := f) first
    rw [Reads, whole]
    exact second

theorem TooDeep.bind (deep : s.TooDeep p) : (s >>= f).TooDeep p := by
  obtain ⟨q, did⟩ := deep
  exact ⟨q, bind_of_none did⟩

theorem Reads.bind_tooDeep (first : s.Reads p a q) (deep : (f a).TooDeep q) :
    (s >>= f).TooDeep p := by
  obtain ⟨m, whole⟩ := bind_of_reads (f := f) first
  obtain ⟨r, did⟩ := deep
  refine ⟨r, ?_⟩
  rw [whole, did]
  cases m <;> rfl

theorem Reads.bind (first : s.Reads p a q) (second : (f a).Reads q b r) : (s >>= f).Reads p b r :=
  reads_bind.mpr ⟨a, q, first, second⟩

theorem Reads.bind_answers {fits : Prop} (first : s.Reads p a q)
    (second : (f a).Answers fits q b r) : (s >>= f).Answers fits p b r :=
  ⟨fun fit => first.bind (second.reads fit), fun deep => first.bind_tooDeep (second.tooDeep deep)⟩

theorem Answers.bind {fits later : Prop} (first : s.Answers fits p a q)
    (second : fits → (f a).Answers later q b r) : (s >>= f).Answers (fits ∧ later) p b r := by
  constructor
  · rintro ⟨now, next⟩
    exact (first.reads now).bind ((second now).reads next)
  · intro deep
    by_cases now : fits
    · exact (first.reads now).bind_tooDeep ((second now).tooDeep fun next => deep ⟨now, next⟩)
    · exact (first.tooDeep now).bind

theorem Answers.bind_reads {fits : Prop} (first : s.Answers fits p a q)
    (second : (f a).Reads q b r) : (s >>= f).Answers fits p b r :=
  ⟨fun fit => (first.reads fit).bind second, fun deep => (first.tooDeep deep).bind⟩

theorem Answers.of_eq {t : Scanner α} {fits : Prop} {p' : Place} (answers : t.Answers fits p' a q)
    (same : s p = t p') : s.Answers fits p a q := by
  constructor
  · intro fit
    rw [Reads, same]
    exact answers.reads fit
  · intro deep
    rw [TooDeep, same]
    exact answers.tooDeep deep

theorem Answers.congr {fits other : Prop} (answers : s.Answers fits p a q) (same : fits ↔ other) :
    s.Answers other p a q := propext same ▸ answers

theorem Reads.answers {fits : Prop} (reads : s.Reads p a q) (fit : fits) : s.Answers fits p a q :=
  ⟨fun _ => reads, fun deep => absurd fit deep⟩

end Bind

section Basic

variable {p q : Place} {b : β}

@[simp] theorem reads_pure {a c : α} : (pure a : Scanner α).Reads p c q ↔ c = a ∧ q = p := by
  show some (a, p) = some (c, q) ↔ _
  simp [eq_comm]

theorem pure_reads (a : α) (p : Place) : (pure a : Scanner α).Reads p a p := rfl

@[simp] theorem not_reads_fail {a : α} : ¬ (fail : Scanner α).Reads p a q := by
  intro reads
  cases reads

@[simp] theorem not_reads_expecting {a : α} {es : List Expectation} :
    ¬ (expecting es : Scanner α).Reads p a q := by
  intro reads
  cases reads

@[simp] theorem not_reads_expectingAt {a : α} {r : Place} {es : List Expectation} :
    ¬ (expectingAt r es : Scanner α).Reads p a q := by
  intro reads
  cases reads

@[simp] theorem not_reads_tooDeep {a : α} {limit : Nat} :
    ¬ (Scanner.tooDeep limit : Scanner α).Reads p a q := by
  intro reads
  cases reads

theorem here_bind (f : Place → Scanner β) (p : Place) : (here >>= f) p = f p p := by
  show (⟨(f p p).result, Misses.none.merge (f p p).misses⟩ : Scan β) = f p p
  rw [none_merge]

theorem peek_bind (f : Option Char → Scanner β) (p : Place) :
    (peek >>= f) p = f p.rest.head? p := by
  show (⟨(f p.rest.head? p).result, Misses.none.merge (f p.rest.head? p).misses⟩ : Scan β) = _
  rw [none_merge]

theorem advance_bind (n : Nat) (f : Unit → Scanner β) (p : Place) :
    (advance n >>= f) p = f () (p.advance n) := by
  show (⟨(f () (p.advance n)).result, Misses.none.merge (f () (p.advance n)).misses⟩ : Scan β) = _
  rw [none_merge]

theorem reads_here_bind {f : Place → Scanner β} :
    (here >>= f).Reads p b q ↔ (f p).Reads p b q := by
  rw [Reads, here_bind, Reads]

theorem reads_peek_bind {f : Option Char → Scanner β} :
    (peek >>= f).Reads p b q ↔ (f p.rest.head?).Reads p b q := by
  rw [Reads, peek_bind, Reads]

theorem reads_advance_bind {n : Nat} {f : Unit → Scanner β} :
    (advance n >>= f).Reads p b q ↔ (f ()).Reads (p.advance n) b q := by
  rw [Reads, advance_bind, Reads]

theorem reads_missed_bind {es : List Expectation} {n : Nat} {f : Unit → Scanner β} :
    (missed es n >>= f).Reads p b q ↔ (f ()).Reads p b q := by
  rw [reads_bind]
  constructor
  · rintro ⟨a, r, noted, rest⟩
    cases noted
    exact rest
  · exact fun rest => ⟨_, _, rfl, rest⟩

theorem reads_charsWhile {test : Char → Bool} {cs : List Char} :
    (charsWhile test).Reads p cs q ↔
      Passes cs p q ∧ (∀ c ∈ cs, test c = true) ∧ Ends test q.rest := by
  constructor
  · intro reads
    cases reads
    have all : (p.rest.takeWhile test).all test = true := List.all_takeWhile
    have ends : Ends test (p.skip test).rest := skip_rest test p ▸ ends_dropWhile test p.rest
    exact ⟨passes_skip test p, List.all_eq_true.mp all, ends⟩
  · rintro ⟨passes, all, ends⟩
    have taken : p.rest.takeWhile test = cs := by rw [passes.1, takeWhile_of_ends all ends]
    rw [passes.eq_advance, ← taken]
    rfl

end Basic

section Tokens

open Grammar (Blank)

variable {p q : Place}

theorem isSpace_iff {c : Char} : isSpace c = true ↔ c ∈ [' ', '\t', '\r', '\n'] := by
  simp [isSpace, or_assoc]

theorem reads_space : space.Reads p () q ↔ ∃ cs, Blank cs ∧ Passes cs p q ∧ Ends isSpace q.rest := by
  have skips : space.Reads p () q ↔ ∃ cs, (charsWhile isSpace).Reads p cs q := by
    constructor
    · intro reads
      cases reads
      exact ⟨_, rfl⟩
    · rintro ⟨cs, reads⟩
      cases reads
      rfl
  simp only [skips, reads_charsWhile, isSpace_iff]
  constructor
  · rintro ⟨cs, passes, blank, ends⟩
    exact ⟨cs, blank, passes, ends⟩
  · rintro ⟨cs, blank, passes, ends⟩
    exact ⟨cs, passes, blank, ends⟩

theorem token_of_starts {text : String} (here : text.toList <+: p.rest) :
    token text p = ⟨some (true, p.advance text.toList.length), .none⟩ :=
  if_pos (List.isPrefixOf_iff_prefix.mpr here)

theorem token_of_not_starts {text : String} (missing : ¬ text.toList <+: p.rest) :
    token text p = ⟨some (false, p), .at p [.token text]⟩ :=
  if_neg (mt List.isPrefixOf_iff_prefix.mp missing)

theorem reads_token {text : String} {found : Bool} : (token text).Reads p found q ↔
    if found then Passes text.toList p q else q = p ∧ ¬ text.toList <+: p.rest := by
  by_cases here : text.toList <+: p.rest
  · rw [Reads, token_of_starts here]
    obtain ⟨_, split⟩ := here
    cases found with
    | true =>
      constructor
      · intro same
        cases same
        exact passes_advance split.symm
      · intro passes
        rw [passes.eq_advance]
    | false => simp [← split]
  · rw [Reads, token_of_not_starts here]
    cases found with
    | true =>
      constructor
      · intro same
        cases same
      · intro passes
        exact absurd ⟨_, passes.1.symm⟩ here
    | false => simp [here, eq_comm]

theorem token_found {text : String} (passes : Passes text.toList p q) :
    (token text).Reads p true q :=
  reads_token.mpr passes

theorem token_missed {text : String} (missing : ¬ text.toList <+: p.rest) :
    (token text).Reads p false p := by
  rw [reads_token]
  exact ⟨rfl, missing⟩

theorem reads_required {text : String} : (required text).Reads p () q ↔ Passes text.toList p q := by
  rw [required, reads_bind]
  constructor
  · rintro ⟨found, r, looked, next⟩
    cases found with
    | true =>
      obtain ⟨-, rfl⟩ := reads_pure.mp next
      exact reads_token.mp looked
    | false => exact absurd next not_reads_fail
  · intro passes
    exact ⟨true, q, reads_token.mpr passes, rfl⟩

/-- White space in front of a text is only passed together with the text. -/
theorem reads_spacedToken {text : String} {found : Bool} : (spacedToken text).Reads p found q ↔
    if found then ∃ r, space.Reads p () r ∧ Passes text.toList r q
    else q = p ∧ ¬ text.toList <+: p.rest.dropWhile isSpace := by
  have space_reads : space.Reads p () (p.skip isSpace) := rfl
  have space_iff : ∀ r, space.Reads p () r ↔ r = p.skip isSpace := by
    intro r
    rw [space_reads.iff_eq]
    simp
  simp only [space_iff, exists_eq_left, ← skip_rest]
  by_cases here : text.toList <+: (p.skip isSpace).rest
  · have reads : (spacedToken text).Reads p true ((p.skip isSpace).advance text.toList.length) := by
      rw [Reads, spacedToken, token_of_starts here]
    obtain ⟨_, split⟩ := here
    have passes := passes_advance split.symm
    rw [reads.iff_eq]
    cases found with
    | true =>
      constructor
      · rintro ⟨-, rfl⟩
        exact passes
      · intro passes
        exact ⟨rfl, passes.eq_advance⟩
    | false => simp [← split]
  · have reads : (spacedToken text).Reads p false p := by
      rw [Reads, spacedToken, token_of_not_starts here]
    rw [reads.iff_eq]
    cases found with
    | true =>
      constructor
      · rintro ⟨same, -⟩
        cases same
      · intro passes
        exact absurd ⟨_, passes.1.symm⟩ here
    | false => simp [here]

theorem spacedToken_found {text : String} {r : Place} (before : space.Reads p () r)
    (passes : Passes text.toList r q) : (spacedToken text).Reads p true q :=
  reads_spacedToken.mpr ⟨r, before, passes⟩

theorem spacedToken_missed {text : String} (missing : ¬ text.toList <+: p.rest.dropWhile isSpace) :
    (spacedToken text).Reads p false p := by
  rw [reads_spacedToken]
  exact ⟨rfl, missing⟩

end Tokens

end Scanner

end ActionChain
