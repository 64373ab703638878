import ActionChain.Check
import ActionChain.Proofs.ErrorPlace
import ActionChain.Proofs.Reporting

/-!
What a syntax error reports. Main statement `error_report`: the offset, the line and the column are
one place of the text, the character found is the one there, and nothing that was expected stands
there. Where the place is in the first line, the check of the text shows this line with a caret
under the character, or behind the line if there is none.
-/
namespace ActionChain

namespace SyntaxError

section Bytes

theorem byteCount_cons (c : Char) (cs : List Char) :
    byteCount (c :: cs) = c.utf8Size + byteCount cs := by
  have one : byteCount [c] = c.utf8Size := Nat.zero_add _
  rw [← List.singleton_append, Expression.byteCount_append, one]

theorem byteCount_eq (cs : List Char) : byteCount cs = (String.ofList cs).utf8ByteSize := by
  rw [String.utf8ByteSize_ofList]
  induction cs with
  | nil => rfl
  | cons c cs ih =>
    rw [byteCount_cons, ih, String.utf8Len, Nat.add_comm]

theorem takeBytes_byteCount (before after : List Char) :
    takeBytes (byteCount before) (before ++ after) = before := by
  induction before with
  | nil =>
    cases after with
    | nil => rfl
    | cons c after =>
      have wide : ¬ c.utf8Size ≤ 0 := Nat.not_le.mpr c.utf8Size_pos
      exact if_neg wide
  | cons c before ih =>
    rw [byteCount_cons, List.cons_append, takeBytes, if_pos (Nat.le_add_right _ _),
      Nat.add_sub_cancel_left, ih]

end Bytes

section Sorting

variable {s t : String} {texts : List String}

theorem mem_insertSorted : t ∈ insertSorted s texts ↔ t = s ∨ t ∈ texts := by
  induction texts with
  | nil => simp [insertSorted]
  | cons u rest ih =>
    rw [insertSorted]
    split
    · exact List.mem_cons
    · split
      · rename_i same
        simp [same]
      · rw [List.mem_cons, ih, List.mem_cons]
        tauto

theorem insertSorted_pairwise (s : String) (ascending : texts.Pairwise (· < ·)) :
    (insertSorted s texts).Pairwise (· < ·) := by
  induction texts with
  | nil => exact List.pairwise_singleton _ s
  | cons u rest ih =>
    obtain ⟨least, tail⟩ := List.pairwise_cons.mp ascending
    rw [insertSorted]
    split
    · rename_i before
      refine List.pairwise_cons.mpr ⟨?_, ascending⟩
      intro t mem
      rcases List.mem_cons.mp mem with rfl | later
      · exact before
      · exact String.lt_trans before (least t later)
    · split
      · exact ascending
      · rename_i notBefore other
        have after : u < s := by
          rcases Std.lt_trichotomy s u with before | same | after
          · exact absurd before notBefore
          · exact absurd same other
          · exact after
        refine List.pairwise_cons.mpr ⟨?_, ih tail⟩
        intro t mem
        rcases mem_insertSorted.mp mem with rfl | old
        · exact after
        · exact least t old

theorem sorted_spec (texts : List String) :
    (sorted texts).Pairwise (· < ·) ∧ ∀ t, t ∈ sorted texts ↔ t ∈ texts := by
  have inserts : ∀ acc : List String, acc.Pairwise (· < ·) →
      (texts.foldl (fun acc s => insertSorted s acc) acc).Pairwise (· < ·) ∧
        ∀ t, t ∈ texts.foldl (fun acc s => insertSorted s acc) acc ↔ t ∈ texts ∨ t ∈ acc := by
    induction texts with
    | nil => exact fun acc ascending => ⟨ascending, by simp⟩
    | cons s rest ih =>
      intro acc ascending
      obtain ⟨later, mem⟩ := ih _ (insertSorted_pairwise s ascending)
      refine ⟨later, fun t => ?_⟩
      rw [List.foldl_cons, mem, mem_insertSorted, List.mem_cons]
      tauto
  obtain ⟨ascending, mem⟩ := inserts [] .nil
  exact ⟨ascending, fun t => by simpa [sorted] using mem t⟩

end Sorting

/-- The place between the two parts of a text is the one that the error tells, in bytes and as a
line and a column. -/
structure IsAt (error : SyntaxError) (before after : List Char) : Prop where
  offset : error.offset = (String.ofList before).utf8ByteSize
  found : error.found = after.head?
  atEnd : error.found = none ↔ error.offset = (String.ofList (before ++ after)).utf8ByteSize
  /-- The lines before it are over, and in its own line it has as many characters before it. -/
  lines : ∃ earlier current, before = earlier ++ current ∧
    (earlier ≠ [] → earlier.getLast? = some '\n') ∧ '\n' ∉ current ∧
    error.line = earlier.count '\n' + 1 ∧ error.column = current.length + 1

theorem IsAt.first_line {error : SyntaxError} {before after : List Char}
    (place : error.IsAt before after) (first : error.line = 1) :
    '\n' ∉ before ∧ error.column = before.length + 1 := by
  obtain ⟨earlier, current, rfl, ended, alone, line, column⟩ := place.lines
  have none : '\n' ∉ earlier := List.count_eq_zero.mp (by omega)
  obtain rfl : earlier = [] := by
    by_contra some
    exact none (List.mem_of_getLast? (ended some))
  exact ⟨alone, column⟩

theorem last_line (before : List Char) : ∃ earlier current, before = earlier ++ current ∧
    (earlier ≠ [] → earlier.getLast? = some '\n') ∧ '\n' ∉ current ∧
    (before.reverse.takeWhile (· != '\n')).length = current.length := by
  refine ⟨(before.reverse.dropWhile (· != '\n')).reverse,
    (before.reverse.takeWhile (· != '\n')).reverse, ?_, ?_, ?_, by simp⟩
  · rw [← List.reverse_append, List.takeWhile_append_dropWhile, List.reverse_reverse]
  · intro some
    rw [List.getLast?_reverse]
    cases rest : before.reverse.dropWhile (· != '\n') with
    | nil => simp [rest] at some
    | cons c cs =>
      have stop := ends_dropWhile (· != '\n') before.reverse c (by rw [rest]; rfl)
      simpa using stop
  · intro mem
    have passed := List.all_eq_true.mp (List.all_takeWhile (l := before.reverse)) _
      (List.mem_reverse.mp mem)
    simp at passed

theorem make_isAt (before after : List Char) (expected : List String) :
    (make (before ++ after) (byteCount before) expected after.head?).IsAt before after := by
  have whole := Expression.byteCount_append before after
  have offset : min (byteCount before) (byteCount (before ++ after)) = byteCount before := by omega
  constructor
  · show min _ _ = _
    rw [offset, byteCount_eq]
  · rfl
  · show after.head? = none ↔ min _ _ = _
    rw [offset, ← byteCount_eq, whole]
    cases after with
    | nil => simp [byteCount]
    | cons c after =>
      have wide := c.utf8Size_pos
      rw [byteCount_cons]
      simp
      omega
  · obtain ⟨earlier, current, parts, ended, alone, length⟩ := last_line before
    refine ⟨earlier, current, parts, ended, alone, ?_, ?_⟩
    · show (takeBytes _ _).count '\n' + 1 = _
      rw [takeBytes_byteCount, parts, List.count_append, List.count_eq_zero.mpr alone, Nat.add_zero]
    · show ((takeBytes _ _).reverse.takeWhile _).length + 1 = _
      rw [takeBytes_byteCount, length]

/-- Something is expected, everything once and in order, and none of it stands at the start of the
text. -/
structure IsMissing (expected : List String) (after : List Char) : Prop where
  some : expected ≠ []
  ascending : expected.Pairwise (· < ·)
  tokens : ∀ text : String, "\"" ++ text ++ "\"" ∈ expected → ¬ text.toList <+: after
  identifier : "identifier" ∈ expected → ∀ name, Grammar.Identifier name → ¬ name <+: after
  digit : "digit" ∈ expected → ∀ c, after.head? = .some c → c.isDigit = false
  endOfInput : "end of input" ∈ expected → after ≠ []

end SyntaxError

namespace Expectation

variable {e : Expectation} {text : String}

@[simp] theorem token_text (t : String) : (Expectation.token t).text = "\"" ++ t ++ "\"" := rfl

@[simp] theorem shallower_text (limit : Nat) :
    (Expectation.shallower limit).text = "nesting depth <= " ++ toString limit := rfl

theorem token_text_ne (first : text.toList.head? ≠ some '"') (t : String) :
    (Expectation.token t).text ≠ text := by
  rintro rfl
  simp at first

theorem shallower_text_ne (first : text.toList.head? ≠ some 'n') (limit : Nat) :
    (Expectation.shallower limit).text ≠ text := by
  rintro rfl
  simp at first

theorem token_of_text (same : e.text = "\"" ++ text ++ "\"") : e = .token text := by
  cases e with
  | token t =>
    have chars := congrArg String.toList same
    simpa [String.toList_inj] using chars
  | shallower limit => exact absurd same (shallower_text_ne (by simp) limit)
  | _ => exact absurd same.symm (token_text_ne (by decide) text)

theorem eq_of_text {plain : Expectation} (listed : plain ∈ [.identifier, .digit, .endOfInput])
    (same : e.text = plain.text) : e = plain := by
  simp only [List.mem_cons, List.not_mem_nil, or_false] at listed
  cases e with
  | token t =>
    refine absurd same (token_text_ne ?_ t)
    rcases listed with rfl | rfl | rfl <;> decide
  | shallower limit =>
    refine absurd same (shallower_text_ne ?_ limit)
    rcases listed with rfl | rfl | rfl <;> decide
  | _ =>
    rcases listed with rfl | rfl | rfl
    all_goals first | rfl | exact absurd same (by decide)

end Expectation

namespace Misses

variable {source : List Char} {m : Misses}

theorem Honest.place (honest : m.Honest source) : (m.place source).In source := by
  cases m with
  | none => exact .start source
  | «at» p es => exact honest.1
  | tooDeep p limit => exact honest.1

/-- Where the report cuts the source in two. -/
theorem Honest.isAt (honest : m.Honest source) :
    ∃ before, source = before ++ (m.place source).rest ∧
      (m.error source).IsAt before (m.place source).rest := by
  obtain ⟨before, text, passed⟩ := honest.place
  have parts : source = before ++ (m.place source).rest := text
  have length : (m.place source).passed = before.length := by simpa [Place.start] using passed
  have taken : source.take (m.place source).passed = before := by
    rw [length]
    exact (List.prefix_iff_eq_take.mp ⟨_, parts.symm⟩).symm
  have made : m.error source = .make (before ++ (m.place source).rest)
      (SyntaxError.byteCount before) (m.expected.map Expectation.text)
      (m.place source).rest.head? := by
    rw [error, taken, ← parts]
  exact ⟨before, parts, made ▸ SyntaxError.make_isAt before _ _⟩

theorem Honest.absent (honest : m.Honest source) {text : String}
    (mem : text ∈ (m.error source).expected) :
    ∃ e : Expectation, e.text = text ∧ e.Absent (m.place source).rest := by
  obtain ⟨e, mem, same⟩ := List.mem_map.mp (((SyntaxError.sorted_spec _).2 text).mp mem)
  refine ⟨e, same, ?_⟩
  cases m with
  | none => cases mem
  | «at» p es => exact honest.2.2 e mem
  | tooDeep p limit =>
    obtain rfl := List.mem_singleton.mp mem
    trivial

theorem Honest.some (honest : m.Honest source) (due : m ≠ .none) :
    (m.error source).expected ≠ [] := by
  have expected : m.expected ≠ [] := by
    cases m with
    | none => exact absurd rfl due
    | «at» p es => exact honest.2.1
    | tooDeep p limit => exact List.cons_ne_nil _ _
  obtain ⟨e, mem⟩ := List.exists_mem_of_ne_nil _ expected
  have named : e.text ∈ m.expected.map Expectation.text := List.mem_map_of_mem mem
  exact List.ne_nil_of_mem (((SyntaxError.sorted_spec _).2 _).mpr named)

theorem Honest.isMissing (honest : m.Honest source) (due : m ≠ .none) :
    SyntaxError.IsMissing (m.error source).expected (m.place source).rest := by
  constructor
  · exact honest.some due
  · exact (SyntaxError.sorted_spec _).1
  · intro text mem
    obtain ⟨e, same, gone⟩ := honest.absent mem
    obtain rfl := Expectation.token_of_text same
    exact gone
  · rintro mem _ ⟨letter, -⟩ begun
    obtain ⟨e, same, gone⟩ := honest.absent mem
    obtain rfl : e = .identifier := Expectation.eq_of_text (by simp) same
    obtain ⟨rest, begun⟩ := begun
    have none := gone _ (by rw [← begun]; rfl)
    exact Bool.false_ne_true (none.symm.trans (Scanner.isLetter_iff.mpr letter))
  · intro mem
    obtain ⟨e, same, gone⟩ := honest.absent mem
    obtain rfl : e = .digit := Expectation.eq_of_text (by simp) same
    exact gone
  · intro mem
    obtain ⟨e, same, gone⟩ := honest.absent mem
    obtain rfl : e = .endOfInput := Expectation.eq_of_text (by simp) same
    exact gone

end Misses

section Carets

inductive LineEnd : List Char → Prop
  | newline : LineEnd ['\n']
  | carriageReturn : LineEnd ['\r', '\n']

/-- The first line of a text, without its end. A text that has no end of a line is a line, whatever
its last character. -/
inductive FirstLine : List Char → List Char → Prop
  | whole {line : List Char} : '\n' ∉ line → FirstLine line line
  | ended {line ending rest : List Char} : '\n' ∉ line → LineEnd ending →
    (ending = ['\n'] → line.getLast? ≠ some '\r') → FirstLine (line ++ ending ++ rest) line

theorem firstLine_spec (source : List Char) : FirstLine source (Finding.firstLine source) := by
  have alone : '\n' ∉ source.takeWhile (· ≠ '\n') := by
    intro mem
    have passed := List.all_eq_true.mp List.all_takeWhile _ mem
    simp at passed
  have parts : source.takeWhile (· ≠ '\n') ++ source.dropWhile (· ≠ '\n') = source :=
    List.takeWhile_append_dropWhile
  have stop := ends_dropWhile (· ≠ '\n') source
  unfold Finding.firstLine
  generalize source.takeWhile (· ≠ '\n') = line at alone parts
  generalize source.dropWhile (· ≠ '\n') = tail at parts stop
  subst parts
  cases tail with
  | nil => simpa using FirstLine.whole alone
  | cons c rest =>
    obtain rfl : c = '\n' := by simpa using stop c rfl
    by_cases last : line.getLast? = some '\r'
    · obtain ⟨line, rfl⟩ := List.getLast?_eq_some_iff.mp last
      have unended : '\n' ∉ line := fun mem => alone (List.mem_append_left _ mem)
      have first : FirstLine (line ++ ['\r', '\n'] ++ rest) line :=
        .ended unended .carriageReturn nofun
      simpa using first
    · have first : FirstLine (line ++ ['\n'] ++ rest) line := .ended alone .newline fun _ => last
      simpa [last] using first

variable {source shown before after : List Char}

/-- What stands at a place of the first line stands in the line, unless the line ends there. -/
theorem FirstLine.getElem? (first : FirstLine source shown) (parts : source = before ++ after)
    (unended : '\n' ∉ before) (aside : ∀ ending, LineEnd ending → ¬ ending <+: after) :
    shown[before.length]? = after.head? := by
  cases first with
  | whole => rw [parts, List.getElem?_append_right le_rfl, Nat.sub_self, List.head?_eq_getElem?]
  | @ended _ ending rest alone ends =>
    rw [List.append_assoc] at parts
    rcases List.append_eq_append_iff.mp parts with ⟨more, rfl, tail⟩ | ⟨more, rfl, tail⟩
    · -- the place is behind the line, so in what ends it, as no line is over before the place
      exfalso
      cases ends with
      | newline =>
        cases more with
        | nil => exact aside _ .newline ⟨rest, by simpa using tail⟩
        | cons c more =>
          obtain ⟨rfl, -⟩ := List.cons.inj tail
          simp at unended
      | carriageReturn =>
        rcases more with _ | ⟨c, _ | ⟨d, more⟩⟩
        · exact aside _ .carriageReturn ⟨rest, by simpa using tail⟩
        · exact aside _ .newline ⟨rest, (List.cons.inj tail).2⟩
        · obtain ⟨rfl, -⟩ := List.cons.inj (List.cons.inj tail).2
          simp at unended
    · cases more with
      | nil => exact absurd ⟨rest, by simpa using tail.symm⟩ (aside ending ends)
      | cons c more =>
        rw [List.getElem?_append_right le_rfl, Nat.sub_self, tail]
        rfl

theorem FirstLine.of_unended (first : FirstLine source shown) (unended : '\n' ∉ source) :
    shown = source := by
  cases first with
  | whole => rfl
  | ended _ ends => cases ends <;> simp at unended

end Carets

/-- The hint shows the first line, and a caret below it in the column of the place. The character
there is the one that was found, unless the line ends there. -/
def PointsAt (hint : Option String) (error : SyntaxError) (source after : List Char) : Prop :=
  ∃ shown, FirstLine source shown ∧
    hint = some (String.ofList
      (shown ++ ['\n'] ++ List.replicate (error.column - 1) ' ' ++ ['^'])) ∧
    ((∀ ending, LineEnd ending → ¬ ending <+: after) → shown[error.column - 1]? = error.found) ∧
    (error.found = none → error.column = shown.length + 1)

namespace Expression

theorem misses_of_error {text : String} {error : SyntaxError}
    (refused : parse text = .error error) :
    ∃ m : Misses, m.Honest text.toList ∧ m ≠ .none ∧ m.error text.toList = error := by
  obtain ⟨m, failed, made⟩ := parse_eq_error refused
  have honest := scanner_honest (.start text.toList)
  have misses := honest.misses
  have due := honest.due
  rw [failed] at misses due
  exact ⟨m, misses, due rfl, made⟩

theorem caret_pointsAt {text : String} {error : SyntaxError} {before after : List Char}
    (parts : text.toList = before ++ after) (place : error.IsAt before after)
    (first : error.line = 1) :
    PointsAt (Finding.errorHint text (.malformed error)) error text.toList after := by
  obtain ⟨unended, column⟩ := place.first_line first
  have shows := firstLine_spec text.toList
  have width : error.column - 1 = before.length := by omega
  refine ⟨_, shows, ?_, ?_, ?_⟩
  · simp [Finding.errorHint, first, Finding.caret]
  · intro aside
    rw [width, place.found]
    exact shows.getElem? parts unended aside
  · intro none
    have nothing : after = [] := by simpa [place.found] using none
    subst nothing
    rw [List.append_nil] at parts
    rw [shows.of_unended (parts ▸ unended), parts, column]

theorem error_report {text : String} {error : SyntaxError} (refused : parse text = .error error) :
    ∃ before after, text.toList = before ++ after ∧ error.IsAt before after ∧
      SyntaxError.IsMissing error.expected after ∧
      ∀ {τ : Type} (c : Catalogue τ), ∃ hint,
        c.check text = [⟨.error, "syntax.E001", (Fault.malformed error).message, hint⟩] ∧
          (error.line = 1 → PointsAt hint error text.toList after) := by
  obtain ⟨m, honest, due, rfl⟩ := misses_of_error refused
  obtain ⟨before, parts, place⟩ := honest.isAt
  refine ⟨before, _, parts, place, honest.isMissing due, fun c => ?_⟩
  refine ⟨Finding.errorHint text (.malformed (m.error text.toList)), ?_, ?_⟩
  · rw [Catalogue.check, refused]
    rfl
  · exact caret_pointsAt parts place

/-- A character of two bytes before the place moves its offset by two, its column by one. -/
theorem error_report_bytes : ∃ error, parse "f('é' x)" = .error error ∧ error.offset = 7 ∧
    error.column = 7 ∧ error.found = some 'x' ∧
    (∃ before after, "f('é' x)".toList = before ++ after ∧ error.IsAt before after ∧
      SyntaxError.IsMissing error.expected after) ∧
    ∃ hint after, PointsAt hint error "f('é' x)".toList after := by
  have refused : parse "f('é' x)" = .error ⟨7, 1, 7, ["\")\"", "\",\""], some 'x'⟩ := by rfl
  obtain ⟨before, after, parts, place, missing, checked⟩ := error_report refused
  obtain ⟨hint, -, points⟩ := checked (⟨[]⟩ : Catalogue Unit)
  exact ⟨_, refused, rfl, rfl, rfl, ⟨before, after, parts, place, missing⟩, hint, after, points rfl⟩

end Expression

end ActionChain
