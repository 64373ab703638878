import ActionChain.Proofs.Lookahead

/-!
The place of a syntax error. Main statement `error_place`: it is the first place at which a text
goes wrong. An expression can begin with what stands before it, and none can begin with what stands
before it together with the next two characters.
-/
namespace ActionChain.Expression

open Scanner

/-- A text that begins in this way goes wrong where the two parts meet, and no earlier. The second
character behind the place only counts where the first may be half of `->` or `!~`. -/
structure GoesWrong (before after : List Char) : Prop where
  begun : ∃ more e, parse (String.ofList (before ++ more)) = .ok e
  two : ∀ c d rest, after = c :: d :: rest →
    ∀ text e, before ++ [c, d] <+: text.toList → parse text ≠ .ok e
  one : ∀ c rest, after = c :: rest → c ≠ '-' → c ≠ '!' →
    ∀ text e, before ++ [c] <+: text.toList → parse text ≠ .ok e

theorem accepted_iff {cs : List Char} : cs ∈ accepted ↔ ∃ e, parse (String.ofList cs) = .ok e := by
  constructor
  · rintro ⟨d, shallow, e, derived⟩
    exact ⟨e, parse_of_derived shallow (by simpa using derived)⟩
  · rintro ⟨e, parsed⟩
    obtain ⟨d, shallow, derived⟩ := derived_of_parse parsed
    exact ⟨d, shallow, e, by simpa using derived⟩

theorem parse_eq_error {text : String} {error : SyntaxError} (refused : parse text = .error error) :
    ∃ m, scanner (.start text.toList) = ⟨none, m⟩ ∧ m.error text.toList = error := by
  rw [parse, run] at refused
  rcases did : scanner (.start text.toList) with ⟨_ | ⟨a, q⟩, m⟩
  · rw [did] at refused
    exact ⟨m, rfl, Except.error.inj refused⟩
  · rw [did] at refused
    cases refused

theorem getElem?_of_front {front cs ds : List Char} (first : front <+: cs) (second : front <+: ds)
    {i : Nat} (inside : i < front.length) : ds[i]? = cs[i]? := by
  rw [List.prefix_iff_getElem?] at first second
  rw [first i inside, second i inside]

section Other

variable {text other : String} {m : Misses} {limit : Nat}

/-- A text that cannot be told from a refused one is refused as well. -/
theorem refused_again (failed : scanner (.start text.toList) = ⟨none, m⟩) (before : m.Before limit)
    (alike : Alike limit (.start text.toList) (.start other.toList)) (e : Expression) :
    0 < limit ∧ parse other ≠ .ok e := by
  have copies := scanner_faithful alike
  rw [Copies, failed] at copies
  obtain ⟨pos, again⟩ := copies before
  refine ⟨pos, fun parsed => ?_⟩
  obtain ⟨q, reads⟩ := parse_eq_ok_iff.mp parsed
  rw [Reads, again] at reads
  cases reads

end Other

theorem foldl_utf8Size (n : Nat) (cs : List Char) :
    cs.foldl (fun n c => n + c.utf8Size) n = n + SyntaxError.byteCount cs := by
  induction cs generalizing n with
  | nil => rfl
  | cons c cs ih =>
    have whole : SyntaxError.byteCount (c :: cs) = 0 + c.utf8Size + SyntaxError.byteCount cs := ih _
    rw [List.foldl_cons, ih, whole]
    omega

theorem byteCount_append (cs ds : List Char) :
    SyntaxError.byteCount (cs ++ ds) = SyntaxError.byteCount cs + SyntaxError.byteCount ds := by
  show (cs ++ ds).foldl (fun n c => n + c.utf8Size) 0 = _
  rw [List.foldl_append]
  exact foldl_utf8Size _ ds

/-- Two texts that both begin with what was passed before a miss, and with the next character. -/
theorem alike_of_front {text other : String} {front : List Char} {c : Char}
    (here : front ++ [c] <+: text.toList) (there : front ++ [c] <+: other.toList)
    (plain : Unnumbered text.toList)
    (behind : (∃ d, front ++ [c, d] <+: text.toList ∧ front ++ [c, d] <+: other.toList) ∨
      c ∉ ['-', '!']) :
    Alike (front.length + 1) (.start text.toList) (.start other.toList) := by
  refine ⟨rfl, fun i inside => ?_, behind.imp ?_ fun other i d last next => ?_, plain⟩
  · exact getElem?_of_front here there (by simpa [Place.start] using inside)
  · rintro ⟨d, here, there⟩ i last
    have last : i = front.length + 1 := by simpa [Place.start] using last
    exact getElem?_of_front here there (by simp [last])
  · obtain rfl : i = front.length := by simpa [Place.start] using last
    rw [List.prefix_iff_getElem?] at here
    have same := here front.length (by simp)
    have next : text.toList[front.length]? = some d := next
    rw [next] at same
    simp at same
    exact same ▸ other

theorem error_place {text : String} {error : SyntaxError} (refused : parse text = .error error)
    (plain : Unnumbered text.toList) (shallow : error.expected ≠ ["nesting depth <= 128"]) :
    (∃ before after, text.toList = before ++ after ∧ SyntaxError.byteCount before = error.offset ∧
        after.head? = error.found ∧ GoesWrong before after) ∧
      (error.found = none → ∃ more e, parse (text ++ more) = .ok e) := by
  obtain ⟨m, failed, rfl⟩ := parse_eq_error refused
  have misses := (scanner_explores (p := .start text.toList)).misses plain
  rw [MissesAt, failed] at misses
  cases m with
  | none =>
    have alike : Alike 0 (.start text.toList) (.start text.toList) :=
      ⟨rfl, fun _ _ => rfl, .inl fun _ _ => rfl, plain⟩
    exact absurd (refused_again failed trivial alike default).1 (Nat.lt_irrefl 0)
  | tooDeep q limit =>
    obtain rfl : limit = Argument.depthLimit := misses
    exact absurd rfl shallow
  | «at» p es =>
    obtain ⟨before, more, mem, passes⟩ := misses
    have parts : text.toList = before ++ p.rest := passes.1
    have length : p.passed = before.length := by simpa [Place.start] using passes.2
    have refuses {c : Char} {other : String} (e : Expression) (next : before ++ [c] <+: text.toList)
        (there : before ++ [c] <+: other.toList)
        (behind : (∃ d, before ++ [c, d] <+: text.toList ∧ before ++ [c, d] <+: other.toList) ∨
          c ∉ ['-', '!']) : parse other ≠ .ok e :=
      (refused_again failed (by rw [Misses.Before, length]; exact Nat.lt_succ_self _)
        (alike_of_front next there plain behind) e).2
    have begun := accepted_iff.mp mem
    refine ⟨⟨before, p.rest, parts, ?_, rfl, ⟨_, begun⟩, ?_, ?_⟩, fun none => ?_⟩
    · show _ = min (SyntaxError.byteCount (text.toList.take p.passed)) _
      rw [length, parts, List.take_left, byteCount_append]
      omega
    · rintro c d rest same other e there
      have here : before ++ [c, d] <+: text.toList := ⟨rest, by simp [parts, same]⟩
      have one : before ++ [c] <+: before ++ [c, d] := ⟨[d], by simp⟩
      exact refuses e (one.trans here) (one.trans there) (.inl ⟨d, here, there⟩)
    · rintro c rest same noMinus noMark other e there
      exact refuses e ⟨rest, by simp [parts, same]⟩ there (.inr (by simp [noMinus, noMark]))
    · have nothing : p.rest = [] := List.head?_eq_none_iff.mp none
      obtain ⟨e, parsed⟩ := begun
      refine ⟨String.ofList more, e, ?_⟩
      rw [nothing, List.append_nil] at parts
      rwa [← parts, String.ofList_append, String.ofList_toList] at parsed

theorem error_place_point : ∃ error, parse "f(1.)" = .error error ∧ error.offset = 4 ∧
    error.found = some ')' ∧ Unnumbered "f(1.)".toList ∧ error.expected ≠ ["nesting depth <= 128"] ∧
    (∃ before after, "f(1.)".toList = before ++ after ∧
      SyntaxError.byteCount before = error.offset ∧ after.head? = error.found ∧
        GoesWrong before after) ∧
      (error.found = none → ∃ more e, parse ("f(1.)" ++ more) = .ok e) := by
  have refused : parse "f(1.)" = .error ⟨4, 1, 5, ["digit"], some ')'⟩ := by rfl
  have plain : Unnumbered "f(1.)".toList := by
    unfold Unnumbered
    decide
  have shallow : (["digit"] : List String) ≠ ["nesting depth <= 128"] := by decide
  exact ⟨_, refused, rfl, rfl, plain, shallow, error_place refused plain shallow⟩

end ActionChain.Expression
