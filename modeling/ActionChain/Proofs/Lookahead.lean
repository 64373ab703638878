import ActionChain.Proofs.Viability

/-!
How far scanners look ahead. What a scanner does at one place it does again at a place of another
source, if the two sources agree up to what it missed last. The character behind that counts as
well, unless the last one rules out `->` and `!~`, the only texts of two characters that are looked
for. Escapes with a number are left out, as they may be refused at their start.
-/
namespace ActionChain

/-- Two sources agree before the limit. At the limit they do too, or nothing is looked for there. -/
structure Alike (limit : Nat) (p p' : Place) : Prop where
  passed : p'.passed = p.passed
  before : ∀ i, p.passed + i < limit → p'.rest[i]? = p.rest[i]?
  behind : (∀ i, p.passed + i = limit → p'.rest[i]? = p.rest[i]?) ∨
    ∀ i c, p.passed + i + 1 = limit → p.rest[i]? = some c → c ∉ ['-', '!']
  plain : Unnumbered p.rest

/-- Nothing is missed at the limit or behind it. -/
def Misses.Before (limit : Nat) : Misses → Prop
  | .none => True
  | .at p _ => p.passed < limit
  | .tooDeep .. => False

theorem Misses.Before.of_merge {limit : Nat} {m n : Misses} (before : (m.merge n).Before limit) :
    m.Before limit ∧ n.Before limit := by
  cases m with
  | none => exact ⟨trivial, by rwa [Scanner.none_merge] at before⟩
  | tooDeep => cases n <;> cases before
  | «at» p es =>
    cases n with
    | none => exact ⟨before, trivial⟩
    | tooDeep => cases before
    | «at» q fs =>
      rw [Misses.merge] at before
      split at before
      · rename_i less
        exact ⟨Nat.lt_trans less before, before⟩
      · rename_i notLess
        split at before
        · rename_i same
          exact ⟨before, lt_of_eq_of_lt same.symm before⟩
        · exact ⟨before, Nat.lt_of_le_of_lt (Nat.not_lt.mp notLess) before⟩

theorem Place.advance_add (p : Place) (m n : Nat) : (p.advance m).advance n = p.advance (m + n) := by
  simp [Place.advance, Nat.add_assoc]

namespace Alike

variable {limit : Nat} {p p' : Place}

theorem advance (alike : Alike limit p p') (n : Nat) : Alike limit (p.advance n) (p'.advance n) := by
  refine ⟨?_, fun i inside => ?_, ?_, ?_⟩
  · simp [Place.advance, alike.passed]
  · simp only [Place.advance, List.getElem?_drop] at inside ⊢
    exact alike.before (n + i) (by omega)
  · simp only [Place.advance, List.getElem?_drop]
    refine alike.behind.imp (fun same i here => ?_) fun other i c here => ?_
    · exact same (n + i) (by omega)
    · exact other (n + i) c (by omega)
  · intro numbered
    exact alike.plain (numbered.trans (List.drop_suffix n p.rest).isInfix)

theorem head (alike : Alike limit p p') (inside : p.passed < limit) :
    p'.rest.head? = p.rest.head? := by
  simpa [List.head?_eq_getElem?] using alike.before 0 inside

end Alike

namespace Scanner

variable {α β : Type} {limit : Nat} {p p' : Place}

/-- If nothing is missed at the limit or behind, the other scanner does the same at the other place: a
failure is repeated, and so is a result that stops short of the limit. -/
def Copies (limit : Nat) (s s' : Scanner α) (p p' : Place) : Prop :=
  (s p).misses.Before limit →
    match (s p).result with
    | none => p.passed < limit ∧ (s' p').result = none
    | some (a, q) => ∃ n, q = p.advance n ∧ (p.passed + n < limit → s'.Reads p' a (p'.advance n))

/-- The scanner does the same at all places that are alike. -/
def Faithful (s : Scanner α) : Prop := ∀ ⦃limit p p'⦄, Alike limit p p' → Copies limit s s p p'

section Rules

variable {s s' : Scanner α} {f f' : α → Scanner β}

theorem Copies.congr {t t' : Scanner α} {q q' : Place} (copies : Copies limit t t' q q')
    (same : s p = t q) (same' : s' p' = t' q') (here : q = p) (here' : q' = p') :
    Copies limit s s' p p' := by
  subst here here'
  rw [Copies, same]
  intro before
  have did := copies before
  revert did
  rcases (t q).result with _ | ⟨a, r⟩
  · rintro ⟨inside, failed⟩
    exact ⟨inside, by rw [same', failed]⟩
  · rintro ⟨n, place, reads⟩
    exact ⟨n, place, fun inside => by rw [Reads, same']; exact reads inside⟩

theorem bind_fails (failed : (s p).result = none) : ((s >>= f) p).result = none := by
  rcases did : s p with ⟨result, m⟩
  rw [did] at failed
  cases failed
  rw [bind_of_none did]

theorem Copies.bind (first : Copies limit s s' p p')
    (rest : ∀ a n, s.Reads p a (p.advance n) →
      (p.passed + n < limit → s'.Reads p' a (p'.advance n)) →
        Copies limit (f a) (f' a) (p.advance n) (p'.advance n)) :
    Copies limit (s >>= f) (s' >>= f') p p' := by
  intro before
  rcases did : s p with ⟨_ | ⟨a, q⟩, m⟩
  · rw [bind_of_none did] at before ⊢
    rw [Copies, did] at first
    obtain ⟨inside, failed⟩ := first before
    exact ⟨inside, bind_fails failed⟩
  · rw [bind_of_some did] at before ⊢
    rw [Copies, did] at first
    obtain ⟨now, later⟩ := before.of_merge
    obtain ⟨n, rfl, again⟩ := first now
    have reads : s.Reads p a (p.advance n) := by rw [Reads, did]
    have next := rest a n reads again later
    revert next
    show (match (f a (p.advance n)).result with | none => _ | some (b, r) => _) → _
    rcases (f a (p.advance n)).result with _ | ⟨b, r⟩
    · rintro ⟨inside, failed⟩
      have inside : p.passed + n < limit := inside
      refine ⟨by omega, ?_⟩
      obtain ⟨m', whole'⟩ := bind_of_reads (f := f') (again inside)
      rw [whole', failed]
    · rintro ⟨k, rfl, reads'⟩
      refine ⟨n + k, Place.advance_add p n k, fun inside => ?_⟩
      rw [← Place.advance_add]
      have short : p.passed + n < limit := by omega
      have inside : (p.advance n).passed + k < limit := by
        simp only [Place.advance]
        omega
      exact (again short).bind (reads' inside)

/-- A scanner that is run in the same way everywhere. -/
theorem Faithful.bind (first : s.Faithful) (rest : ∀ a, (f a).Faithful) : (s >>= f).Faithful :=
  fun _ _ _ alike => (first alike).bind fun a n _ _ => rest a (alike.advance n)

theorem copies_pure (a : α) : Copies limit (pure a) (pure a) p p' := fun _ => ⟨0, rfl, fun _ => rfl⟩

theorem pure_faithful (a : α) : (pure a : Scanner α).Faithful := fun _ _ _ _ => copies_pure a

theorem advance_faithful (n : Nat) : (advance n).Faithful := fun _ _ _ _ _ => ⟨n, rfl, fun _ => rfl⟩

theorem missed_faithful (es : List Expectation) (n : Nat) : (missed es n).Faithful :=
  fun _ _ _ _ _ => ⟨0, rfl, fun _ => rfl⟩

theorem expecting_faithful (es : List Expectation) : (expecting es : Scanner α).Faithful :=
  fun _ _ _ _ before => ⟨before, rfl⟩

theorem tooDeep_faithful (n : Nat) : (tooDeep n : Scanner α).Faithful :=
  fun _ _ _ _ before => nomatch before

/-- The other scanner only has to be the same if what was done lies before the limit. -/
theorem Copies.before {t : Scanner α} (copies : Copies limit s s' p p')
    (same : (s p).misses.Before limit → p.passed < limit →
      (∀ a q, s.Reads p a q → q.passed < limit) → t p' = s' p') : Copies limit s t p p' := by
  intro before
  have did := copies before
  revert did
  rcases found : (s p).result with _ | ⟨a, r⟩
  · rintro ⟨inside, failed⟩
    refine ⟨inside, ?_⟩
    rw [same before inside fun a q reads => ?_, failed]
    rw [Reads, found] at reads
    cases reads
  · rintro ⟨n, rfl, reads⟩
    refine ⟨n, rfl, fun inside => ?_⟩
    rw [Reads, same before (by omega) fun b q reads' => ?_]
    · exact reads inside
    · rw [Reads, found] at reads'
      cases reads'
      exact inside

/-- A scanner that is the same as a faithful one for what it looks at before the limit. -/
theorem Faithful.copies {t : Scanner α} (faithful : s.Faithful) (alike : Alike limit p p')
    (here : t p = s p) (same : (s p).misses.Before limit → p.passed < limit →
      (∀ a q, s.Reads p a q → q.passed < limit) → t p' = s p') : Copies limit t t p p' :=
  ((faithful alike).before same).congr here rfl rfl rfl

theorem Copies.here {f f' : Place → Scanner β} (copies : Copies limit (f p) (f' p') p p') :
    Copies limit (Scanner.here >>= f) (Scanner.here >>= f') p p' :=
  copies.congr (here_bind f p) (here_bind f' p') rfl rfl

theorem Copies.peek {f : Option Char → Scanner β} (alike : Alike limit p p')
    (copies : Copies limit (f p.rest.head?) (f p.rest.head?) p p') :
    Copies limit (Scanner.peek >>= f) (Scanner.peek >>= f) p p' := by
  refine (copies.congr (peek_bind f p) rfl rfl rfl).before fun _ inside _ => ?_
  rw [peek_bind, alike.head inside]

theorem peek_faithful {f : Option Char → Scanner β} (rest : ∀ c, (f c).Faithful) :
    (peek >>= f).Faithful := fun _ _ _ alike => .peek alike (rest _ alike)

theorem Copies.advance {f f' : Unit → Scanner β}
    (copies : Copies limit (f ()) (f' ()) (p.advance 1) (p'.advance 1)) :
    Copies limit (Scanner.advance 1 >>= f) (Scanner.advance 1 >>= f') p p' := by
  refine Copies.bind (fun _ => ⟨1, rfl, fun _ => rfl⟩) fun _ n read _ => ?_
  have same : p.advance 1 = p.advance n := congrArg Prod.snd (Option.some.inj read)
  have one : p.passed + 1 = p.passed + n := congrArg Place.passed same
  obtain rfl : n = 1 := by omega
  exact copies

end Rules

section Tokens

theorem takeWhile_eq {test : Char → Bool} {cs ds : List Char}
    (same : ∀ i ≤ (cs.takeWhile test).length, ds[i]? = cs[i]?) :
    ds.takeWhile test = cs.takeWhile test := by
  induction cs generalizing ds with
  | nil =>
    have none := same 0 (Nat.zero_le _)
    cases ds with
    | nil => rfl
    | cons => simp at none
  | cons c cs ih =>
    have first := same 0 (Nat.zero_le _)
    cases ds with
    | nil => simp at first
    | cons d ds =>
      obtain rfl : d = c := by simpa using first
      by_cases fits : test d = true
      · rw [List.takeWhile_cons_of_pos fits, List.takeWhile_cons_of_pos fits] at *
        rw [ih fun i inside => by simpa using same (i + 1) (by simpa using inside)]
      · rw [List.takeWhile_cons_of_neg fits, List.takeWhile_cons_of_neg fits]

theorem charsWhile_faithful (test : Char → Bool) : (charsWhile test).Faithful := by
  intro limit p p' alike _
  refine ⟨(p.rest.takeWhile test).length, rfl, fun inside => ?_⟩
  have same : p'.rest.takeWhile test = p.rest.takeWhile test :=
    takeWhile_eq fun i short => alike.before i (by omega)
  show some (p'.rest.takeWhile test, p'.advance (p'.rest.takeWhile test).length) = _
  rw [same]

theorem space_faithful : space.Faithful := by
  intro limit p p' alike _
  refine ⟨(p.rest.takeWhile isSpace).length, rfl, fun inside => ?_⟩
  have same : p'.rest.takeWhile isSpace = p.rest.takeWhile isSpace :=
    takeWhile_eq fun i short => alike.before i (by omega)
  show some ((), p'.advance (p'.rest.takeWhile isSpace).length) = _
  rw [same]

/-- One character, or one of two with a first half that a limit is told by. -/
def Short (text : String) : Prop :=
  (∃ c, text.toList = [c]) ∨ ∃ c d, text.toList = [c, d] ∧ c ∈ ['-', '!']

theorem prefix_again {text : String} (here : text.toList <+: p.rest) (alike : Alike limit p p')
    (inside : p.passed + text.toList.length ≤ limit) : text.toList <+: p'.rest := by
  rw [List.prefix_iff_getElem?] at here ⊢
  intro i short
  rw [alike.before i (by omega)]
  exact here i short

theorem missing_again {text : String} (short : Short text) (missing : ¬ text.toList <+: p.rest)
    (alike : Alike limit p p') (inside : p.passed < limit) : ¬ text.toList <+: p'.rest := by
  intro here
  apply missing
  have first := alike.before 0 inside
  rw [List.prefix_iff_getElem?] at here ⊢
  rcases short with ⟨c, spelled⟩ | ⟨c, d, spelled, listed⟩
  · intro i short
    obtain rfl : i = 0 := by simpa [spelled] using short
    rw [← first]
    exact here 0 short
  · have second : p'.rest[1]? = p.rest[1]? := by
      by_cases far : p.passed + 1 < limit
      · exact alike.before 1 far
      · rcases alike.behind with same | other
        · exact same 1 (by omega)
        · have next := here 0 (by simp [spelled])
          rw [first] at next
          simp only [spelled, List.getElem_cons_zero] at next
          exact absurd listed (other 0 c (by omega) next)
    intro i short
    obtain rfl | rfl : i = 0 ∨ i = 1 := by
      simp only [spelled, List.length_cons, List.length_nil] at short
      omega
    · rw [← first]
      exact here 0 short
    · rw [← second]
      exact here 1 short

theorem token_faithful {text : String} (short : Short text) : (token text).Faithful := by
  intro limit p p' alike before
  by_cases here : text.toList <+: p.rest
  · rw [token_of_starts here]
    refine ⟨text.toList.length, rfl, fun inside => ?_⟩
    rw [Reads, token_of_starts (prefix_again here alike (Nat.le_of_lt inside))]
  · rw [token_of_not_starts here] at before ⊢
    refine ⟨0, rfl, fun inside => ?_⟩
    exact token_missed (missing_again short here alike inside)

theorem required_faithful {text : String} (short : Short text) : (required text).Faithful := by
  intro limit p p' alike before
  by_cases here : text.toList <+: p.rest
  · have reads : (required text).Reads p () (p.advance text.toList.length) := by
      obtain ⟨rest, parts⟩ := here
      exact reads_required.mpr (passes_advance parts.symm)
    rw [reads]
    refine ⟨text.toList.length, rfl, fun inside => ?_⟩
    obtain ⟨rest, parts⟩ := prefix_again here alike (Nat.le_of_lt inside)
    exact reads_required.mpr (passes_advance parts.symm)
  · have fails {q : Place} (missing : ¬ text.toList <+: q.rest) :
        required text q = ⟨none, .at q [.token text]⟩ := by
      simp only [required, bind, token_of_not_starts missing]
      rfl
    rw [fails here] at before ⊢
    exact ⟨before, by rw [fails (missing_again short here alike before)]⟩

theorem skip_again (alike : Alike limit p p') {test : Char → Bool}
    (inside : (p.skip test).passed < limit) :
    p'.skip test = p'.advance (p.rest.takeWhile test).length := by
  have inside : p.passed + (p.rest.takeWhile test).length < limit := inside
  have same : p'.rest.takeWhile test = p.rest.takeWhile test :=
    takeWhile_eq fun i short => alike.before i (by omega)
  rw [Place.skip, same]

theorem spacedToken_faithful {text : String} (short : Short text) : (spacedToken text).Faithful := by
  intro limit p p' alike before
  have skipped := alike.advance (p.rest.takeWhile isSpace).length
  have place : (p.skip isSpace).passed = p.passed + (p.rest.takeWhile isSpace).length := rfl
  by_cases here : text.toList <+: (p.skip isSpace).rest
  · rw [spacedToken, token_of_starts here]
    refine ⟨_, Place.advance_add _ _ _, fun inside => ?_⟩
    have again := prefix_again here skipped (Nat.le_of_lt (by rw [place]; omega))
    rw [← skip_again alike (by omega)] at again
    rw [Reads, spacedToken, token_of_starts again, skip_again alike (by omega), Place.advance_add]
  · rw [spacedToken, token_of_not_starts here] at before
    rw [spacedToken, token_of_not_starts here]
    refine ⟨0, rfl, fun _ => ?_⟩
    have again := missing_again short here skipped before
    rw [← skip_again alike before] at again
    rw [Reads, spacedToken, token_of_not_starts again]
    rfl

end Tokens

section Lexemes

theorem identifier_faithful : identifier.Faithful := by
  refine peek_faithful fun c => ?_
  split
  · split
    · exact (charsWhile_faithful isNameChar).bind fun _ => pure_faithful _
    · exact expecting_faithful _
  · exact expecting_faithful _

theorem minusSign_faithful : minusSign.Faithful := by
  refine peek_faithful fun c => ?_
  split
  · exact (advance_faithful 1).bind fun _ => pure_faithful _
  · exact pure_faithful _

theorem wholePart_faithful : wholePart.Faithful := by
  refine peek_faithful fun c => ?_
  split
  · exact (advance_faithful 1).bind fun _ => pure_faithful _
  · split
    · exact charsWhile_faithful _
    · exact expecting_faithful _
  · exact expecting_faithful _

def isDigitNext (c : Option Char) : Bool := (c.map Char.isDigit).getD false

theorem fractionPart_eq (p : Place) : fractionPart p =
    (if p.rest[0]? = some '.' then
      if isDigitNext p.rest[1]? then do advance 1; charsWhile Char.isDigit
      else do missed [.digit] 1; return []
    else return []) p := by
  rw [fractionPart, here_bind]
  refine congrFun (?_ : (_ : Scanner (List Char)) = _) p
  split
  · rename_i rest point
    simp [point, isDigitNext, List.head?_eq_getElem?]
  · rename_i other
    rw [if_neg]
    intro point
    cases text : p.rest with
    | nil => simp [text] at point
    | cons c rest =>
      obtain rfl : c = '.' := by simpa [text] using point
      exact other rest text

theorem fractionPart_faithful : fractionPart.Faithful := by
  intro limit p p' alike
  by_cases point : p.rest[0]? = some '.'
  · by_cases digit : isDigitNext p.rest[1]?
    · have digits := (advance_faithful 1).bind fun _ => charsWhile_faithful Char.isDigit
      refine digits.copies alike ?_ fun _ inside read => ?_
      · rw [fractionPart_eq, if_pos point, if_pos digit]
      · have end_inside := read _ ((p.advance 1).skip Char.isDigit) (reads_advance_bind.mpr rfl)
        have far : p.passed + 1 < limit := lt_of_le_of_lt (Nat.le_add_right _ _) end_inside
        rw [fractionPart_eq, alike.before 0 inside, alike.before 1 far, if_pos point, if_pos digit]
    · have missing := (missed_faithful [.digit] 1).bind fun _ => pure_faithful ([] : List Char)
      refine missing.copies alike ?_ fun before inside _ => ?_
      · rw [fractionPart_eq, if_pos point, if_neg digit]
      · have far : p.passed + 1 < limit := before
        rw [fractionPart_eq, alike.before 0 inside, alike.before 1 far, if_pos point, if_neg digit]
  · refine (pure_faithful []).copies alike ?_ fun _ inside _ => ?_
    · rw [fractionPart_eq, if_neg point]
    · rw [fractionPart_eq, alike.before 0 inside, if_neg point]

theorem exponentSign_again {rest rest' : List Char} (same : rest'[0]? = rest[0]?) :
    exponentSign rest' = exponentSign rest := by
  have first (cs : List Char) : exponentSign cs = if cs[0]? = some '-' then (true, 1)
      else if cs[0]? = some '+' then (false, 1) else (false, 0) := by
    cases cs with
    | nil => rfl
    | cons c cs =>
      unfold exponentSign
      split <;> simp_all
  rw [first, first, same]

theorem exponentPart_eq (p : Place) : exponentPart p =
    (if p.rest[0]? = some 'e' ∨ p.rest[0]? = some 'E' then
      if isDigitNext (p.rest[(exponentSign (p.rest.drop 1)).2 + 1]?) then do
        advance ((exponentSign (p.rest.drop 1)).2 + 1)
        let n : Int := Text.decimal (← charsWhile Char.isDigit)
        return if (exponentSign (p.rest.drop 1)).1 then -n else n
      else do
        missed [.digit] ((exponentSign (p.rest.drop 1)).2 + 1)
        return 0
    else return 0) p := by
  rw [exponentPart, here_bind]
  refine congrFun (?_ : (_ : Scanner Int) = _) p
  split
  · rename_i none
    simp [none]
  · rename_i mark rest here
    simp only [here, List.getElem?_cons_zero, Option.some.injEq, List.drop_one, List.tail_cons,
      List.getElem?_cons_succ, isDigitNext, List.head?_drop]

theorem exponentPart_faithful : exponentPart.Faithful := by
  intro limit p p' alike
  by_cases marked : p.rest[0]? = some 'e' ∨ p.rest[0]? = some 'E'
  · have again (far : p.passed + ((exponentSign (p.rest.drop 1)).2 + 1) < limit) :
        exponentSign (p'.rest.drop 1) = exponentSign (p.rest.drop 1) := by
      apply exponentSign_again
      rw [List.getElem?_drop, List.getElem?_drop, alike.before 1 (by omega)]
    by_cases digit : isDigitNext (p.rest[(exponentSign (p.rest.drop 1)).2 + 1]?)
    · have power := (advance_faithful ((exponentSign (p.rest.drop 1)).2 + 1)).bind fun _ =>
        (charsWhile_faithful Char.isDigit).bind fun ds => pure_faithful
          (if (exponentSign (p.rest.drop 1)).1 then -(Text.decimal ds : Int) else Text.decimal ds)
      refine power.copies alike ?_ fun _ inside read => ?_
      · rw [exponentPart_eq, if_pos marked, if_pos digit]
      · have end_inside := read _
          ((p.advance ((exponentSign (p.rest.drop 1)).2 + 1)).skip Char.isDigit)
          (reads_advance_bind.mpr (Reads.bind (f := fun ds => pure _) rfl rfl))
        have far : p.passed + ((exponentSign (p.rest.drop 1)).2 + 1) < limit :=
          lt_of_le_of_lt (Nat.le_add_right _ _) end_inside
        rw [exponentPart_eq, again far, alike.before 0 inside, alike.before _ far, if_pos marked,
          if_pos digit]
    · have missing := (missed_faithful [.digit] ((exponentSign (p.rest.drop 1)).2 + 1)).bind
        fun _ => pure_faithful (0 : Int)
      refine missing.copies alike ?_ fun before inside _ => ?_
      · rw [exponentPart_eq, if_pos marked, if_neg digit]
      · have far : p.passed + ((exponentSign (p.rest.drop 1)).2 + 1) < limit := before
        rw [exponentPart_eq, again far, alike.before 0 inside, alike.before _ far, if_pos marked,
          if_neg digit]
  · refine (pure_faithful 0).copies alike ?_ fun _ inside _ => ?_
    · rw [exponentPart_eq, if_neg marked]
    · rw [exponentPart_eq, alike.before 0 inside, if_neg marked]

theorem number_faithful : number.Faithful := by
  refine minusSign_faithful.bind fun minus => ?_
  refine wholePart_faithful.bind fun whole => ?_
  refine fractionPart_faithful.bind fun fraction => ?_
  exact exponentPart_faithful.bind fun exponent => pure_faithful _

theorem escape_copies (alike : Alike limit p p') (plain : p.rest.head? ≠ some 'u') :
    Copies limit escape escape p p' := by
  refine .peek alike ?_
  split
  · contradiction
  · split
    · exact (advance_faithful 1).bind (fun _ => pure_faithful _) alike
    · exact expecting_faithful _ alike
  · exact expecting_faithful _ alike

theorem stringChar_faithful (quote : Char) : (stringChar quote).Faithful := by
  intro limit p p' alike
  refine .peek alike ?_
  split
  · exact expecting_faithful _ alike
  · rename_i c first
    obtain ⟨rest, text⟩ := List.head?_eq_some_iff.mp first
    refine .advance ?_
    split
    · exact copies_pure _
    · split
      · rename_i backslash
        subst backslash
        have plain := alike.plain
        rw [text] at plain
        have unmarked : (p.advance 1).rest.head? ≠ some 'u' := by
          simpa [Place.advance, text] using unmarked_behind plain
        exact (escape_copies (alike.advance 1) unmarked).bind fun _ _ _ _ => copies_pure _
      · exact copies_pure _

end Lexemes

section Repetition

/-- A repetition is counted down to end somewhere. What is left of the source is count enough. -/
theorem copies_of_count {s : Nat → Scanner α} {m m' : Nat}
    (step : ∀ {n n' p p'}, Alike limit p p' →
      (∀ k, p.rest ≠ [] → 0 < k → Copies limit (s n) (s n') (p.advance k) (p'.advance k)) →
      Copies limit (s (n + 1)) (s (n' + 1)) p p')
    (alike : Alike limit p p') (enough : p.rest.length < m)
    (enough' : p.passed < limit → p'.rest.length < m') : Copies limit (s m) (s m') p p' := by
  induction m generalizing m' p p' with
  | zero => simp at enough
  | succ n ih =>
    have counted (n' : Nat) (enough' : p.passed < limit → p'.rest.length < n' + 1) :
        Copies limit (s (n + 1)) (s (n' + 1)) p p' := by
      refine step alike fun k some pos => ih (alike.advance k) ?_ fun inside => ?_
      · have left := List.length_pos_iff.mpr some
        simp only [Place.advance, List.length_drop]
        omega
      · have left := List.length_pos_iff.mpr some
        have inside : p.passed + k < limit := inside
        have same : p'.rest[0]? = p.rest[0]? := alike.before 0 (by omega)
        have left' : 0 < p'.rest.length := by
          refine Nat.pos_of_ne_zero fun none => ?_
          rw [List.getElem?_eq_none (by omega), List.getElem?_eq_getElem left] at same
          cases same
        have short := enough' (by omega)
        simp only [Place.advance, List.length_drop]
        omega
    cases m' with
    | succ n' => exact counted n' enough'
    | zero =>
      -- The other scanner is not needed then: it would have to read what is behind the limit.
      refine (counted p'.rest.length fun _ => Nat.lt_succ_self _).before fun _ inside _ => ?_
      exact absurd (enough' inside) (Nat.not_lt_zero _)

theorem left_of_passes {cs : List Char} {n : Nat} (passes : Passes cs p (p.advance n))
    (some : cs ≠ []) : p.rest ≠ [] ∧ 0 < n := by
  have length : p.passed + n = p.passed + cs.length := passes.2
  have pos := List.length_pos_iff.mpr some
  refine ⟨?_, by omega⟩
  rw [passes.1]
  simp [some]

theorem stringChars_copies (quote : Char) {n n' : Nat} (alike : Alike limit p p')
    (enough : p.rest.length < n) (enough' : p.passed < limit → p'.rest.length < n') :
    Copies limit (stringChars quote n) (stringChars quote n') p p' := by
  refine copies_of_count (fun {n n' p p'} alike rest => ?_) alike enough enough'
  refine (stringChar_faithful quote alike).bind fun next k read _ => ?_
  cases next with
  | none => exact copies_pure _
  | some c =>
    have left : p.rest ≠ [] ∧ 0 < k := by
      rcases stringChar_sound read with ⟨-, -, passes⟩ | ⟨_, -, passes⟩
      · exact left_of_passes passes (by simp)
      · exact left_of_passes passes (by simp)
    exact (rest k left.1 left.2).bind fun _ _ _ _ => copies_pure _

theorem stringIn_faithful (quote : Char) : (stringIn quote).Faithful := by
  intro limit p p' alike
  refine .advance (.here ?_)
  have chars := stringChars_copies quote (alike.advance 1) (Nat.lt_succ_self _)
    fun _ => Nat.lt_succ_self _
  exact chars.bind fun _ _ _ _ => copies_pure _

variable {item : Scanner α} {separator close : String}

section Items

variable (faithful : item.Faithful) (short : Short separator)

include faithful short

theorem more_copies {n n' : Nat} (alike : Alike limit p p')
    (enough : p.rest.length < n) (enough' : p.passed < limit → p'.rest.length < n') :
    Copies limit (more item separator n) (more item separator n') p p' := by
  refine copies_of_count (fun {n n' p p'} alike rest => ?_) alike enough enough'
  refine (spacedToken_faithful short alike).bind fun found k read _ => ?_
  cases found with
  | false => exact copies_pure _
  | true =>
    obtain ⟨r, before, separated⟩ := reads_spacedToken.mp read
    obtain ⟨cs, -, passes⟩ := reads_blank_of_space before
    have spelled : separator.toList ≠ [] := by
      rcases short with ⟨c, same⟩ | ⟨c, d, same, -⟩ <;> simp [same]
    obtain ⟨some, pos⟩ := left_of_passes (passes.trans separated) (by simp [spelled])
    refine (space_faithful (alike.advance k)).bind fun _ i _ _ => ?_
    refine (faithful ((alike.advance k).advance i)).bind fun a j _ _ => ?_
    rw [Place.advance_add, Place.advance_add, Place.advance_add, Place.advance_add]
    exact (rest (k + (i + j)) some (by omega)).bind fun _ _ _ _ => copies_pure _

theorem separated_faithful : (separated item separator).Faithful := by
  intro limit p p' alike
  refine (faithful alike).bind fun a n _ _ => .here ?_
  refine (more_copies faithful short (alike.advance n) (Nat.lt_succ_self _)
    fun _ => Nat.lt_succ_self _).bind fun _ _ _ _ => copies_pure _

end Items

theorem itemsUntil_faithful (faithful : item.Faithful) (short : Short close) :
    (itemsUntil item close).Faithful := by
  have comma : Short "," := .inl ⟨',', rfl⟩
  refine space_faithful.bind fun _ => (token_faithful short).bind fun found => ?_
  split
  · exact pure_faithful _
  · refine (separated_faithful faithful comma).bind fun items => ?_
    exact space_faithful.bind fun _ => (required_faithful short).bind fun _ => pure_faithful _

end Repetition

end Scanner

open Scanner

variable {limit : Nat} {p p' : Place}

namespace Argument

theorem key_faithful : key.Faithful := by
  refine peek_faithful fun c => ?_
  split
  · exact stringIn_faithful _
  · exact stringIn_faithful _
  · exact (missed_faithful _ 0).bind fun _ => identifier_faithful

theorem member_faithful {item : Scanner Argument} (faithful : item.Faithful) :
    (member item).Faithful := by
  have colon : Short ":" := .inl ⟨':', rfl⟩
  refine key_faithful.bind fun key => space_faithful.bind fun _ => ?_
  refine (required_faithful colon).bind fun _ => space_faithful.bind fun _ => ?_
  exact faithful.bind fun a => pure_faithful _

theorem segments_copies {n n' : Nat} (alike : Alike limit p p') (enough : p.rest.length < n)
    (enough' : p.passed < limit → p'.rest.length < n') :
    Copies limit (segments n) (segments n') p p' := by
  have dot : Short "." := .inl ⟨'.', rfl⟩
  refine copies_of_count (fun {n n' p p'} alike rest => ?_) alike enough enough'
  refine (token_faithful dot alike).bind fun found k read _ => ?_
  cases found with
  | false => exact copies_pure _
  | true =>
    obtain ⟨some, pos⟩ := left_of_passes (reads_token.mp read) (by simp)
    refine (identifier_faithful (alike.advance k)).bind fun name i _ _ => ?_
    rw [Place.advance_add, Place.advance_add]
    exact (rest (k + i) some (by omega)).bind fun _ _ _ _ => copies_pure _

section Levels

variable {deeper : Option (Scanner Argument)}

theorem nested_faithful {α : Type} {scan : Scanner Argument → Scanner α}
    (faithful : ∀ item, deeper = some item → (scan item).Faithful) :
    (nested deeper scan).Faithful := by
  cases deeper with
  | none => exact tooDeep_faithful _
  | some item => exact faithful item rfl

variable (below : ∀ item, deeper = some item → item.Faithful)

include below

theorem named_faithful : (named deeper).Faithful := by
  have paren : Short "(" := .inl ⟨'(', rfl⟩
  have closing : Short ")" := .inl ⟨')', rfl⟩
  refine identifier_faithful.bind fun name => (spacedToken_faithful paren).bind fun found => ?_
  split
  · have inner : (nested deeper fun item => itemsUntil item ")").Faithful :=
      nested_faithful fun item known => itemsUntil_faithful (below item known) closing
    exact inner.bind fun args => pure_faithful _
  · intro limit p p' alike
    have dots := segments_copies alike (Nat.lt_succ_self _) fun _ => Nat.lt_succ_self _
    exact .here (dots.bind fun more _ _ _ => copies_pure _)

theorem level_faithful : (level deeper).Faithful := by
  have bracket : Short "]" := .inl ⟨']', rfl⟩
  have brace : Short "\x7d" := .inl ⟨'\x7d', rfl⟩
  refine peek_faithful fun c => ?_
  rw [startingWith.eq_def]
  split
  · refine nested_faithful fun item known => (advance_faithful 1).bind fun _ => ?_
    exact (itemsUntil_faithful (member_faithful (below item known)) brace).bind
      fun _ => pure_faithful _
  · refine nested_faithful fun item known => (advance_faithful 1).bind fun _ => ?_
    exact (itemsUntil_faithful (below item known) bracket).bind fun _ => pure_faithful _
  · exact (stringIn_faithful _).bind fun _ => pure_faithful _
  · exact (stringIn_faithful _).bind fun _ => pure_faithful _
  · split
    · exact number_faithful.bind fun _ => pure_faithful _
    · split
      · exact named_faithful below
      · exact expecting_faithful _
  · exact expecting_faithful _

end Levels

theorem scanner_faithful (k : Nat) : (scanner k).Faithful := by
  induction k with
  | zero => exact level_faithful nofun
  | succ k ih =>
    refine level_faithful fun item known => ?_
    cases known
    exact ih

end Argument

namespace Call

theorem scanner_faithful : scanner.Faithful := by
  have paren : Short "(" := .inl ⟨'(', rfl⟩
  have closing : Short ")" := .inl ⟨')', rfl⟩
  refine identifier_faithful.bind fun name => (spacedToken_faithful paren).bind fun found => ?_
  split
  · exact (itemsUntil_faithful (Argument.scanner_faithful _) closing).bind fun _ => pure_faithful _
  · exact pure_faithful _

theorem chain_faithful : chain.Faithful :=
  separated_faithful scanner_faithful (.inr ⟨'-', '>', rfl, by simp⟩)

end Call

namespace Expression

theorem rejectChain_faithful : rejectChain.Faithful := by
  have sign : Short "!~" := .inr ⟨'!', '~', rfl, by simp⟩
  refine (spacedToken_faithful sign).bind fun found => ?_
  split
  · exact space_faithful.bind fun _ => Call.chain_faithful
  · exact pure_faithful _

theorem atEnd_faithful : atEnd.Faithful := by
  refine peek_faithful fun c => ?_
  split
  · exact pure_faithful ()
  · exact expecting_faithful _

theorem scanner_faithful : scanner.Faithful := by
  refine space_faithful.bind fun _ => Call.chain_faithful.bind fun success => ?_
  refine rejectChain_faithful.bind fun reject => space_faithful.bind fun _ => ?_
  exact atEnd_faithful.bind fun _ => pure_faithful _

end Expression

end ActionChain
