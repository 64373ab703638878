import ActionChain.Proofs.Lists
import ActionChain.Proofs.Members

/-!
The parser and the grammar. What a scanner of the parser reads is derived by the grammar, at a depth
that its levels allow. What the grammar derives is read, or given up where it nests too deep, as long
as nothing follows that belongs to it.
-/
namespace ActionChain

open Scanner Grammar

variable {p q r : Place}

theorem Text.join_cons (separator first : List Char) (more : List (List Char)) :
    Text.join separator (first :: more) = first ++ more.flatMap (separator ++ ·) := by
  induction more generalizing first with
  | nil => simp [Text.join]
  | cons piece more ih =>
    rw [Text.join, ih, List.flatMap_cons]
    · simp
    · simp

namespace Argument

/-- A piece that the grammar derives as an argument, no deeper than the limit. -/
def IsArgument (x : Piece Argument) (limit : Nat) : Prop :=
  ArgumentText x.depth x.value x.text ∧ x.depth ≤ limit

section Keys

theorem key_sound {k : String} (reads : key.Reads p k q) :
    ∃ text, Key k text ∧ Passes text p q := by
  rw [key, reads_peek_bind] at reads
  split at reads
  case h_1 first | h_2 first =>
    obtain ⟨text, derived, passes⟩ := stringIn_sound (by simp) first reads
    exact ⟨text, .string derived, passes⟩
  case h_3 =>
    obtain ⟨text, derived, rfl, passes, -⟩ := reads_identifier.mp (reads_missed_bind.mp reads)
    exact ⟨text, .name derived, passes⟩

theorem key_complete {k : String} {text : List Char} (derived : Key k text)
    (passes : Passes text p q) (ends : Ends isNameChar q.rest) : key.Reads p k q := by
  rw [key, reads_peek_bind]
  cases derived with
  | string derived =>
    obtain ⟨listed, body⟩ := derived
    have reads := stringIn_complete listed body passes
    rw [(passes_cons_iff.mp passes).1]
    simp only [List.mem_cons, List.not_mem_nil, or_false] at listed
    rcases listed with rfl | rfl <;> exact reads
  | name derived =>
    have reads := reads_identifier.mpr ⟨text, derived, rfl, passes, ends⟩
    obtain ⟨letter, _⟩ := derived
    rw [(passes_cons_iff.mp passes).1]
    split
    case h_1 same | h_2 same =>
      cases same
      exact absurd letter (by decide)
    case h_3 => exact reads_missed_bind.mpr reads

def IsMember (x : Piece (String × Argument)) (limit : Nat) : Prop :=
  ∃ m : Member, m.piece = x ∧ IsArgument m.value limit

theorem member_finds {item : Scanner Argument} {limit : Nat}
    (finds : Finds item (IsArgument · limit)) :
    Finds (member item) (IsMember · limit) := by
  intro p m q reads
  obtain ⟨k, r₁, named, next⟩ := reads_bind.mp reads
  obtain ⟨_, r₂, before, next⟩ := reads_bind.mp next
  obtain ⟨_, r₃, colon, next⟩ := reads_bind.mp next
  obtain ⟨_, r₄, after, next⟩ := reads_bind.mp next
  obtain ⟨a, r₅, value, done⟩ := reads_bind.mp next
  obtain ⟨rfl, rfl⟩ := reads_pure.mp done
  obtain ⟨keyText, key, passesKey⟩ := key_sound named
  obtain ⟨cs, blank, passes⟩ := reads_blank_of_space before
  obtain ⟨ds, blank', passes'⟩ := reads_blank_of_space after
  have passesColon := reads_required.mp colon
  obtain ⟨x, ⟨derived, shallow⟩, rfl, passesValue⟩ := finds _ _ _ value
  let m : Member := ⟨k, key, blank, blank', x⟩
  exact ⟨m.piece, ⟨m, rfl, derived, shallow⟩, rfl,
    ((passesKey.trans passes).trans (passesColon.trans passes')).trans passesValue⟩

theorem members_of_pieces {xs : List (Piece (String × Argument))} {limit : Nat}
    (all : ∀ x ∈ xs, IsMember x limit) :
    ∃ ms : List Member, ms.map Member.piece = xs ∧ ∀ m ∈ ms, IsArgument m.value limit := by
  induction xs with
  | nil => exact ⟨[], rfl, by simp⟩
  | cons x xs ih =>
    obtain ⟨⟨m, same, derived⟩, all⟩ := List.forall_mem_cons.mp all
    obtain ⟨ms, rest, others⟩ := ih all
    exact ⟨m :: ms, by rw [List.map_cons, same, rest], List.forall_mem_cons.mpr ⟨derived, others⟩⟩

theorem starts_key {k : String} {text : List Char} (derived : Key k text) : Starts text := by
  cases derived with
  | string derived =>
    obtain ⟨listed, _⟩ := derived
    simp only [List.mem_cons, List.not_mem_nil, or_false] at listed
    rcases listed with rfl | rfl <;> exact starts_of_not_mem (by decide) _
  | name derived =>
    obtain ⟨letter, _⟩ := derived
    exact starts_letter letter _

theorem starts_applied {name : List Char} (identifier : Identifier name) (space text : List Char) :
    Starts (name ++ space ++ '(' :: text ++ [')']) :=
  (((starts_key (.name identifier)).append _).append _).append _

theorem member_takes {item : Scanner Argument} {good : Piece Argument → Prop} {limit : Nat}
    (takes : Takes item good (·.depth ≤ limit)) :
    Takes (member item) (fun x => ∃ m : Member, m.piece = x ∧ good m.value) (·.depth ≤ limit) := by
  constructor
  · rintro _ ⟨m, rfl, fine⟩
    exact (((starts_key m.named).append _).append _).append _
  · rintro _ ⟨m, rfl, fine⟩ p q passes follow
    obtain ⟨r₄, passes, value⟩ := passes_append_iff.mp passes
    obtain ⟨r₂, passes, rest⟩ := passes_append_iff.mp passes
    obtain ⟨r₁, named, before⟩ := passes_append_iff.mp passes
    obtain ⟨r₃, colon, after⟩ := passes_append_iff.mp
      (show Passes (":".toList ++ m.after) r₂ r₄ from rest)
    have inkColon : Ends isSpace r₂.rest := by
      rw [colon.1]
      exact ends_stop rfl _
    have inkValue : Ends isSpace r₄.rest := (takes.starts m.value fine).ends value
    have ended : Ended r₁.rest := by
      rw [before.1, colon.1]
      exact ended_blank m.blankBefore (follow_stop rfl _).ended
    have reads := key_complete m.named named ended.1
    apply reads.bind_answers
    apply (space_reads m.blankBefore before inkColon).bind_answers
    apply (reads_required.mpr colon).bind_answers
    apply (space_reads m.blankAfter after inkValue).bind_answers
    exact (takes.answers m.value fine r₄ q value follow).bind_reads (pure_reads _ q)

end Keys

section Names

theorem join_dots (first : List Char) (more : List (List Char)) :
    Text.join ['.'] (first :: more) = first ++ more.flatMap ('.' :: ·) :=
  Text.join_cons ['.'] first more

theorem segments_sound {n : Nat} {names : List String} (reads : (segments n).Reads p names q) :
    ∃ more : List (List Char), (∀ name ∈ more, Identifier name) ∧ names = more.map String.ofList ∧
      Passes (more.flatMap ('.' :: ·)) p q := by
  induction n generalizing p names with
  | zero =>
    obtain ⟨rfl, rfl⟩ := reads_pure.mp reads
    exact ⟨[], by simp, rfl, .refl _⟩
  | succ n ih =>
    obtain ⟨found, r, looked, next⟩ := reads_bind.mp reads
    have dot := reads_token.mp looked
    cases found with
    | false =>
      obtain ⟨rfl, -⟩ := dot
      obtain ⟨rfl, rfl⟩ := reads_pure.mp next
      exact ⟨[], by simp, rfl, .refl _⟩
    | true =>
      obtain ⟨name, r₁, named, next⟩ := reads_bind.mp next
      obtain ⟨names, r₂, rest, done⟩ := reads_bind.mp next
      obtain ⟨rfl, rfl⟩ := reads_pure.mp done
      obtain ⟨cs, identifier, rfl, passes, -⟩ := reads_identifier.mp named
      obtain ⟨more, all, rfl, passes'⟩ := ih rest
      exact ⟨cs :: more, List.forall_mem_cons.mpr ⟨identifier, all⟩, rfl,
        (Passes.trans dot passes).trans passes'⟩

theorem ended_dots {more : List (List Char)} {rest : List Char} (ended : Ended rest) :
    Ends isNameChar (more.flatMap ('.' :: ·) ++ rest) := by
  cases more with
  | nil => exact ended.1
  | cons name more =>
    intro c next
    cases next
    rfl

theorem segments_complete {n : Nat} {more : List (List Char)}
    (all : ∀ name ∈ more, Identifier name) (enough : more.length ≤ n)
    (passes : Passes (more.flatMap ('.' :: ·)) p q) (ended : Ended q.rest) :
    (segments n).Reads p (more.map String.ofList) q := by
  induction more generalizing p n with
  | nil =>
    obtain rfl := passes_nil_iff.mp passes
    cases n with
    | zero => exact pure_reads [] q
    | succ n =>
      have missing : ¬ ".".toList <+: q.rest := by
        rintro ⟨rest, here⟩
        have stop := ended.2 '.' (by rw [← here]; rfl)
        simp at stop
      exact (token_missed missing).bind (pure_reads [] q)
  | cons name more ih =>
    obtain ⟨identifier, all⟩ := List.forall_mem_cons.mp all
    cases n with
    | zero => simp at enough
    | succ n =>
      rw [List.flatMap_cons] at passes
      obtain ⟨r₂, passes, rest⟩ := passes_append_iff.mp passes
      obtain ⟨r₁, dot, passes⟩ := passes_append_iff.mp
        (show Passes (".".toList ++ name) p r₂ from passes)
      have named := reads_identifier.mpr ⟨name, identifier, rfl, passes, rest.1 ▸ ended_dots ended⟩
      have others := ih all (by simpa using enough) rest
      exact (token_found dot).bind (named.bind (others.bind (pure_reads _ q)))

theorem dataPath_names (names : List (List Char)) : dataPath (names.map String.ofList) =
    .call "getDataValue" [.array (names.map fun name => .string (String.ofList name))] := by
  rw [dataPath, List.map_map]
  rfl

theorem path_derived {name : List Char} {more : List (List Char)}
    (all : ∀ part ∈ name :: more, Identifier part)
    (other : ∀ a text, Literal a text → name :: more ≠ [text]) :
    ArgumentText 0 (dataPath ((name :: more).map String.ofList))
      (Text.join ['.'] (name :: more)) := by
  rw [dataPath_names]
  exact .path all other

theorem ofName_literal {a : Argument} {text : List Char} (literal : Literal a text) :
    ofName (String.ofList text) = a := by
  cases literal <;> simp [ofName]

theorem ofName_other {name : List Char} (other : ∀ a text, Literal a text → [name] ≠ [text]) :
    ofName (String.ofList name) = dataPath [String.ofList name] := by
  have differs : ∀ a (s : String), Literal a s.toList → String.ofList name ≠ s := by
    rintro a _ known rfl
    exact other a _ known (by simp)
  rw [ofName, if_neg (differs _ _ .true), if_neg (differs _ _ .false), if_neg (differs _ _ .null)]

theorem ofName_derived {name : List Char} (identifier : Identifier name) :
    ArgumentText 0 (ofName (String.ofList name)) name := by
  by_cases literal : ∃ a, Literal a name
  · obtain ⟨a, literal⟩ := literal
    rw [ofName_literal literal]
    exact .literal literal
  · have other : ∀ a text, Literal a text → [name] ≠ [text] := by
      rintro a _ known same
      cases same
      exact literal ⟨a, known⟩
    have path : ArgumentText 0 (dataPath ([name].map String.ofList)) (Text.join ['.'] [name]) :=
      path_derived (by simpa using identifier) other
    exact ofName_other other ▸ path

theorem unopened_dots {more : List (List Char)} {rest : List Char} (follow : Follow rest) :
    ¬ "(".toList <+: (more.flatMap ('.' :: ·) ++ rest).dropWhile isSpace := by
  cases more with
  | nil => exact follow.unopened
  | cons name more =>
    rw [List.flatMap_cons, List.cons_append, List.cons_append, dropWhile_ink rfl]
    simp

theorem length_le_of_dots (more : List (List Char)) :
    more.length ≤ (more.flatMap ('.' :: ·)).length := by
  induction more with
  | nil => simp
  | cons name more ih =>
    rw [List.flatMap_cons, List.length_append]
    simp only [List.length_cons]
    omega

theorem reads_opening {name space text : List Char} (identifier : Identifier name)
    (blank : Blank space) (passes : Passes (name ++ space ++ '(' :: text ++ [')']) p q) :
    ∃ r₁ r₂ r₃, Scanner.identifier.Reads p (String.ofList name) r₁ ∧
      (spacedToken "(").Reads r₁ true r₂ ∧ Passes text r₂ r₃ ∧ Passes ")".toList r₃ q := by
  obtain ⟨r₄, passes, close⟩ := passes_append_iff.mp passes
  obtain ⟨r₂, passes, rest⟩ := passes_append_iff.mp passes
  obtain ⟨r₁, first, before⟩ := passes_append_iff.mp passes
  obtain ⟨r₃, bracket, inner⟩ := passes_append_iff.mp
    (show Passes ("(".toList ++ text) r₂ r₄ from rest)
  have opened : ∀ test : Char → Bool, test '(' = false → Ends test r₂.rest := by
    intro test other c next
    rw [bracket.1] at next
    cases next
    exact other
  have ended : Ended r₁.rest := before.1 ▸ ended_blank blank ⟨opened _ rfl, opened _ rfl⟩
  exact ⟨r₁, r₃, r₄, reads_identifier.mpr ⟨name, identifier, rfl, first, ended.1⟩,
    spacedToken_found (space_reads blank before (opened _ rfl)) bracket, inner, close⟩

end Names

section Levels

variable {deeper : Option (Scanner Argument)} {k : Nat}

def Below (deeper : Option (Scanner Argument)) (k : Nat) : Prop :=
  ∀ item, deeper = some item → ∃ j, k = j + 1 ∧ Finds item (IsArgument · j)

theorem reads_nested {α : Type} {scan : Scanner Argument → Scanner α} {a : α}
    (reads : (nested deeper scan).Reads p a q) :
    ∃ item, deeper = some item ∧ (scan item).Reads p a q := by
  cases deeper with
  | none => exact absurd reads not_reads_tooDeep
  | some item => exact ⟨item, rfl, reads⟩

theorem deepest_le_iff {α : Type} {xs : List (Piece α)} :
    deepest xs ≤ k ↔ ∀ x ∈ xs, x.depth ≤ k := by
  induction xs with
  | nil => simp [deepest]
  | cons x xs ih =>
    simp only [deepest, List.map_cons, List.foldr_cons, List.forall_mem_cons, ← ih]
    exact Nat.max_le

theorem keepsLast_iff {pairs : List (String × Argument)} {ms : Members Argument} :
    KeepsLast pairs ms ↔ ms = Members.ofList pairs := by
  constructor
  · rintro ⟨sorted, last⟩
    exact sorted.eq_ofList last
  · rintro rfl
    exact ⟨Members.sorted_ofList pairs, fun key => Members.find?_ofList key pairs⟩

theorem named_sound (below : Below deeper k) {a : Argument} (reads : (named deeper).Reads p a q) :
    ∃ x, IsArgument x k ∧ x.value = a ∧ Passes x.text p q := by
  obtain ⟨name, r, first, rest⟩ := reads_bind.mp reads
  obtain ⟨cs, identifier, rfl, passes, -⟩ := reads_identifier.mp first
  obtain ⟨found, r', looked, next⟩ := reads_bind.mp rest
  have opened := reads_spacedToken.mp looked
  cases found with
  | true =>
    obtain ⟨r₁, before, bracket⟩ := opened
    obtain ⟨ds, blank, passes'⟩ := reads_blank_of_space before
    obtain ⟨args, r₂, inside, done⟩ := reads_bind.mp next
    obtain ⟨rfl, rfl⟩ := reads_pure.mp done
    obtain ⟨item, known, items⟩ := reads_nested inside
    obtain ⟨j, rfl, finds⟩ := below item known
    obtain ⟨xs, text, r₃, all, rfl, listed, inner, close⟩ := itemsUntil_sound finds items
    have derived := ArgumentText.call xs identifier blank (fun x mem => (all x mem).1) listed
    have shallow := Nat.succ_le_succ (deepest_le_iff.mpr fun x mem => (all x mem).2)
    exact ⟨⟨_, _, _⟩, ⟨derived, shallow⟩, rfl,
      ((passes.trans passes').trans (Passes.trans bracket inner)).trans close⟩
  | false =>
    obtain ⟨rfl, -⟩ := opened
    have named := reads_here_bind.mp next
    obtain ⟨names, r₁, dots, done⟩ := reads_bind.mp named
    obtain ⟨rfl, rfl⟩ := reads_pure.mp done
    obtain ⟨more, all, rfl, passes'⟩ := segments_sound dots
    cases more with
    | nil =>
      obtain rfl := passes_nil_iff.mp passes'
      exact ⟨⟨0, _, cs⟩, ⟨ofName_derived identifier, Nat.zero_le k⟩, rfl, passes⟩
    | cons name more =>
      have derived := path_derived (List.forall_mem_cons.mpr ⟨identifier, all⟩)
        (fun _ _ _ same => by cases same)
      have whole : Passes (Text.join ['.'] (cs :: name :: more)) p q := by
        rw [join_dots cs]
        exact passes.trans passes'
      exact ⟨⟨0, _, _⟩, ⟨derived, Nat.zero_le k⟩, rfl, whole⟩

theorem array_sound (below : Below deeper k) {a : Argument} (first : p.rest.head? = some '[')
    (reads : (nested deeper fun item => do
      advance 1
      return array (← itemsUntil item "]")).Reads p a q) :
    ∃ x, IsArgument x k ∧ x.value = a ∧ Passes x.text p q := by
  obtain ⟨item, known, reads⟩ := reads_nested reads
  obtain ⟨j, rfl, finds⟩ := below item known
  have next := reads_advance_bind.mp reads
  obtain ⟨as, r, items, done⟩ := reads_bind.mp next
  obtain ⟨rfl, rfl⟩ := reads_pure.mp done
  obtain ⟨xs, text, r₁, all, rfl, listed, inner, close⟩ := itemsUntil_sound finds items
  have derived := ArgumentText.array xs (fun x mem => (all x mem).1) listed
  have shallow := Nat.succ_le_succ (deepest_le_iff.mpr fun x mem => (all x mem).2)
  exact ⟨⟨_, _, _⟩, ⟨derived, shallow⟩, rfl, passes_cons_iff.mpr ⟨first, inner.trans close⟩⟩

theorem object_sound (below : Below deeper k) {a : Argument} (first : p.rest.head? = some '\x7b')
    (reads : (nested deeper fun item => do
      advance 1
      return object (Members.ofList (← itemsUntil (member item) "\x7d"))).Reads p a q) :
    ∃ x, IsArgument x k ∧ x.value = a ∧ Passes x.text p q := by
  obtain ⟨item, known, reads⟩ := reads_nested reads
  obtain ⟨j, rfl, finds⟩ := below item known
  have next := reads_advance_bind.mp reads
  obtain ⟨ms, r, items, done⟩ := reads_bind.mp next
  obtain ⟨rfl, rfl⟩ := reads_pure.mp done
  obtain ⟨xs, text, r₁, all, rfl, listed, inner, close⟩ := itemsUntil_sound (member_finds finds) items
  obtain ⟨ms, rfl, each⟩ := members_of_pieces all
  have derived := ArgumentText.object ms (fun m mem => (each m mem).1) listed (keepsLast_iff.mpr rfl)
  have shallow : deepest (ms.map Member.piece) ≤ j :=
    deepest_le_iff.mpr (List.forall_mem_map.mpr fun m mem => (each m mem).2)
  refine ⟨⟨_, _, _⟩, ⟨derived, Nat.succ_le_succ shallow⟩, ?_,
    passes_cons_iff.mpr ⟨first, inner.trans close⟩⟩
  rw [List.map_map]
  rfl

theorem level_sound (below : Below deeper k) : Finds (level deeper) (IsArgument · k) := by
  intro p a q reads
  rw [level, reads_peek_bind, startingWith.eq_def] at reads
  split at reads
  case h_1 first => exact object_sound below first reads
  case h_2 first => exact array_sound below first reads
  case h_3 first | h_4 first =>
    obtain ⟨s, r, string, done⟩ := reads_bind.mp reads
    obtain ⟨rfl, rfl⟩ := reads_pure.mp done
    obtain ⟨text, derived, passes⟩ := stringIn_sound (by simp) first string
    exact ⟨⟨0, _, text⟩, ⟨.string derived, Nat.zero_le k⟩, rfl, passes⟩
  case h_5 =>
    split at reads
    · obtain ⟨x, r, number, done⟩ := reads_bind.mp reads
      obtain ⟨rfl, rfl⟩ := reads_pure.mp done
      obtain ⟨text, derived, passes⟩ := number_sound number
      exact ⟨⟨0, _, text⟩, ⟨.number derived, Nat.zero_le k⟩, rfl, passes⟩
    · split at reads
      · exact named_sound below reads
      · exact absurd reads not_reads_expecting
  case h_6 => exact absurd reads not_reads_expecting

/-- The scanner for the levels below, of which there may be none. -/
def levelBelow : Nat → Option (Scanner Argument)
  | 0 => none
  | k + 1 => some (scanner k)

theorem scanner_eq (k : Nat) : scanner k = level (levelBelow k) := by
  cases k <;> rfl

theorem argument_sound (k : Nat) : Finds (scanner k) (IsArgument · k) := by
  induction k with
  | zero => exact level_sound nofun
  | succ k ih =>
    refine level_sound fun item known => ⟨k, rfl, ?_⟩
    cases known
    exact ih

section Complete

variable {deeper : Option (Scanner Argument)} {k d : Nat} {c : Char}

theorem nested_answers {α : Type} {scan : Scanner Argument → Scanner α} {a : α}
    (inner : ∀ j, (scan (scanner j)).Answers (d ≤ j) p a q) :
    (nested (levelBelow k) scan).Answers (d + 1 ≤ k) p a q := by
  cases k with
  | zero => exact ⟨fun fit => absurd fit (by omega), fun _ => ⟨p, rfl⟩⟩
  | succ j => exact (inner j).congr Nat.succ_le_succ_iff.symm

theorem not_digit_of_letter (letter : Letter c) : ¬ (c = '-' ∨ c.isDigit) := by
  rintro (rfl | digit)
  · revert letter
    decide
  · rcases letter with letter | rfl | rfl
    · have nine : '9'.val.toNat = 57 := rfl
      have upper : 'A'.val.toNat = 65 := rfl
      have lower : 'a'.val.toNat = 97 := rfl
      delta Char.isAlpha Char.isUpper Char.isLower at letter
      simp only [Char.isDigit, Bool.or_eq_true, Bool.and_eq_true, decide_eq_true_eq,
        UInt32.le_iff_toNat_le, ge_iff_le] at letter digit
      omega
    · revert digit
      decide
    · revert digit
      decide

theorem level_letter (letter : Letter c) (first : p.rest.head? = some c) :
    level deeper p = named deeper p := by
  have others : c ∉ ['\x7b', '[', '"', '\''] := by
    intro listed
    have none : ['\x7b', '[', '"', '\''].all (!isLetter ·) := by decide
    have other := List.all_eq_true.mp none c listed
    simp [isLetter_iff.mpr letter] at other
  have start : startingWith deeper (some c) = named deeper := by
    unfold startingWith
    split
    · simp_all
    · simp_all
    · simp_all
    · simp_all
    · rename_i same
      cases same
      rw [if_neg (not_digit_of_letter letter), if_pos (isLetter_iff.mpr letter)]
    · simp_all
  rw [level, peek_bind, first, start]

theorem level_name {name : String} (word : identifier.Reads p name q) :
    level deeper p = named deeper p := by
  obtain ⟨_, ⟨letter, _⟩, -, passes, -⟩ := reads_identifier.mp word
  exact level_letter letter (passes_cons_iff.mp passes).1

theorem level_digit (start : c = '-' ∨ c.isDigit) (first : p.rest.head? = some c) :
    level deeper p = (Scanner.number >>= fun x => pure (.number x)) p := by
  have others : c ∉ ['\x7b', '[', '"', '\''] := by
    intro listed
    have none : ['\x7b', '[', '"', '\''].all fun d => !(d = '-' || d.isDigit) := by decide
    have other := List.all_eq_true.mp none c listed
    simp_all
  have started : startingWith deeper (some c) = (Scanner.number >>= fun x => pure (.number x)) := by
    unfold startingWith
    split
    · simp_all
    · simp_all
    · simp_all
    · simp_all
    · rename_i same
      cases same
      rw [if_pos start]
    · simp_all
  rw [level, peek_bind, first, started]

theorem number_starts {x : Binary64} {text : List Char} (derived : Number x text) :
    ∃ c cs, text = c :: cs ∧ (c = '-' ∨ c.isDigit) := by
  obtain @⟨minus, ws, ds, fraction, power, e, whole, _, _⟩ := derived
  obtain ⟨d, rest, rfl, digit⟩ := whole_starts whole
  cases minus with
  | true => exact ⟨_, _, rfl, .inl rfl⟩
  | false => exact ⟨d, _, rfl, .inr digit⟩

theorem identifier_of_literal {a : Argument} {text : List Char} (literal : Literal a text) :
    Identifier text := by
  cases literal <;> exact identifier_of_all rfl rfl

theorem argument_starts {a : Argument} {text : List Char} (derived : ArgumentText d a text) :
    Starts text := by
  cases derived with
  | object => exact starts_of_not_mem (by decide) _
  | array => exact starts_of_not_mem (by decide) _
  | string derived => exact starts_key (.string derived)
  | number derived =>
    obtain ⟨c, cs, rfl, rfl | digit⟩ := number_starts derived
    · exact starts_of_not_mem (by decide) _
    · exact starts_digit digit _
  | literal derived => cases derived <;> exact starts_of_not_mem (by decide) _
  | call _ identifier => exact starts_applied identifier _ _
  | path all =>
    rw [join_dots]
    exact (starts_key (.name (List.forall_mem_cons.mp all).1)).append _

theorem level_names {name : List Char} (more : List (List Char)) (identifier : Identifier name)
    (all : ∀ part ∈ more, Identifier part) (passes : Passes (name ++ more.flatMap ('.' :: ·)) p q)
    (follow : Follow q.rest) :
    (level deeper).Reads p (if more.isEmpty then ofName (String.ofList name)
      else dataPath (String.ofList name :: more.map String.ofList)) q := by
  obtain ⟨r, first, rest⟩ := passes_append_iff.mp passes
  have word := reads_identifier.mpr
    ⟨name, identifier, rfl, first, rest.1 ▸ ended_dots follow.ended⟩
  have unopened : ¬ "(".toList <+: r.rest.dropWhile isSpace := rest.1 ▸ unopened_dots follow
  have enough : more.length ≤ r.rest.length + 1 := by
    have long := length_le_of_dots more
    rw [rest.1, List.length_append]
    omega
  have dots := segments_complete all enough rest follow.ended
  rw [Reads, level_name word]
  apply word.bind
  apply (spacedToken_missed unopened).bind
  refine reads_here_bind.mpr (dots.bind ?_)
  rw [List.isEmpty_map]
  exact pure_reads _ q

theorem level_literal {a : Argument} {text : List Char} (literal : Literal a text)
    (passes : Passes text p q) (follow : Follow q.rest) : (level deeper).Reads p a q := by
  have reads : (level deeper).Reads p (ofName (String.ofList text)) q :=
    level_names [] (identifier_of_literal literal) (by simp) (by simpa using passes) follow
  rwa [ofName_literal literal] at reads

theorem level_path {name : List Char} {more : List (List Char)}
    (all : ∀ part ∈ name :: more, Identifier part)
    (other : ∀ a text, Literal a text → name :: more ≠ [text])
    (passes : Passes (Text.join ['.'] (name :: more)) p q) (follow : Follow q.rest) :
    (level deeper).Reads p (dataPath ((name :: more).map String.ofList)) q := by
  obtain ⟨identifier, all⟩ := List.forall_mem_cons.mp all
  rw [join_dots] at passes
  have reads : (level deeper).Reads p _ q := level_names more identifier all passes follow
  have value : (if more.isEmpty then ofName (String.ofList name)
      else dataPath (String.ofList name :: more.map String.ofList)) =
        dataPath ((name :: more).map String.ofList) := by
    cases more with
    | nil => exact ofName_other other
    | cons => rfl
  rwa [value] at reads

theorem level_string {s : String} {text : List Char} (derived : StringText s text)
    (passes : Passes text p q) : (level deeper).Reads p (.string s) q := by
  obtain ⟨listed, body⟩ := derived
  have reads := stringIn_complete listed body passes
  rw [level, reads_peek_bind, (passes_cons_iff.mp passes).1]
  simp only [List.mem_cons, List.not_mem_nil, or_false] at listed
  rcases listed with rfl | rfl <;> exact reads.bind (pure_reads _ q)

theorem level_number {x : Binary64} {text : List Char} (derived : Number x text)
    (passes : Passes text p q) (ended : Ended q.rest) : (level deeper).Reads p (.number x) q := by
  have reads := number_complete derived passes ended
  obtain ⟨c, cs, rfl, start⟩ := number_starts derived
  rw [Reads, level_digit start (passes_cons_iff.mp passes).1]
  exact reads.bind (pure_reads _ q)

section Nested

variable {xs : List (Piece Argument)} {text : List Char}
  (takes : ∀ j, Takes (scanner j) (· ∈ xs) (·.depth ≤ j))

include takes

theorem level_call {name space : List Char} (identifier : Identifier name) (blank : Blank space)
    (listed : Listed xs text) (passes : Passes (name ++ space ++ '(' :: text ++ [')']) p q) :
    (level (levelBelow k)).Answers (deepest xs + 1 ≤ k) p
      (.call (String.ofList name) (xs.map (·.value))) q := by
  obtain ⟨r₁, r₂, r₃, word, bracket, inner, close⟩ := reads_opening identifier blank passes
  refine Answers.of_eq ?_ (level_name word)
  apply word.bind_answers
  apply bracket.bind_answers
  refine Answers.bind_reads (nested_answers fun j => ?_) (pure_reads _ q)
  have closing : IsClosing ")" := ⟨')', by simp, rfl⟩
  have answers := itemsUntil_complete (takes j) closing listed (fun x mem => mem) inner close
  exact answers.congr deepest_le_iff.symm

theorem level_array (listed : Listed xs text) (passes : Passes ('[' :: text ++ [']']) p q) :
    (level (levelBelow k)).Answers (deepest xs + 1 ≤ k) p (.array (xs.map (·.value))) q := by
  obtain ⟨first, rest⟩ := passes_cons_iff.mp passes
  obtain ⟨r, inner, close⟩ := passes_append_iff.mp (show Passes (_ ++ "]".toList) _ q from rest)
  have start : level (levelBelow k) p = nested (levelBelow k) (fun item => do
      advance 1
      return .array (← itemsUntil item "]")) p := by
    rw [level, peek_bind, first]
    rfl
  refine Answers.of_eq (nested_answers fun j => ?_) start
  refine Answers.of_eq ?_ (advance_bind 1 _ p)
  have closing : IsClosing "]" := ⟨']', by simp, rfl⟩
  have answers := itemsUntil_complete (takes j) closing listed (fun x mem => mem) inner close
  exact (answers.congr deepest_le_iff.symm).bind_reads (pure_reads _ q)

theorem level_object {members : List Member} (values : members.map Member.value = xs)
    {ms : Members Argument} (listed : Listed (members.map Member.piece) text)
    (kept : KeepsLast (members.map (·.piece.value)) ms)
    (passes : Passes ('\x7b' :: text ++ ['\x7d']) p q) :
    (level (levelBelow k)).Answers (deepest (members.map Member.piece) + 1 ≤ k) p (.object ms) q := by
  have all : ∀ x ∈ members.map Member.piece, ∃ m : Member, m.piece = x ∧ m.value ∈ xs :=
    List.forall_mem_map.mpr fun m mem => ⟨m, rfl, values ▸ List.mem_map_of_mem mem⟩
  obtain ⟨first, rest⟩ := passes_cons_iff.mp passes
  obtain ⟨r, inner, close⟩ := passes_append_iff.mp (show Passes (_ ++ "\x7d".toList) _ q from rest)
  have start : level (levelBelow k) p = nested (levelBelow k) (fun item => do
      advance 1
      return .object (Members.ofList (← itemsUntil (member item) "\x7d"))) p := by
    rw [level, peek_bind, first]
    rfl
  refine Answers.of_eq (nested_answers fun j => ?_) start
  refine Answers.of_eq ?_ (advance_bind 1 _ p)
  have closing : IsClosing "\x7d" := ⟨'\x7d', by simp, rfl⟩
  have answers := itemsUntil_complete (member_takes (takes j)) closing listed all inner close
  rw [keepsLast_iff.mp kept]
  apply (answers.congr deepest_le_iff.symm).bind_reads
  rw [List.map_map]
  exact pure_reads _ q

end Nested

theorem takes_of_each {xs : List (Piece Argument)}
    (each : ∀ x ∈ xs, ArgumentText x.depth x.value x.text)
    (answers : ∀ x ∈ xs, ∀ {p q : Place} {j : Nat}, Passes x.text p q → Follow q.rest →
      (level (levelBelow j)).Answers (x.depth ≤ j) p x.value q) (j : Nat) :
    Takes (scanner j) (· ∈ xs) (·.depth ≤ j) := by
  constructor
  · intro x mem
    exact argument_starts (each x mem)
  · intro x mem p q passes follow
    rw [scanner_eq]
    exact answers x mem passes follow

/-- By induction on the derivation; what an item of a list follows is taken care of by the list. -/
theorem argument_complete {a : Argument} {text : List Char} (derived : ArgumentText d a text)
    (passes : Passes text p q) (follow : Follow q.rest) :
    (scanner k).Answers (d ≤ k) p a q := by
  rw [scanner_eq]
  induction derived generalizing k p q with
  | object members each listed kept ih =>
    have takes := takes_of_each (List.forall_mem_map.mpr each) (List.forall_mem_map.mpr ih)
    exact level_object takes rfl listed kept passes
  | array items each listed ih => exact level_array (takes_of_each each ih) listed passes
  | string derived => exact (level_string derived passes).answers (Nat.zero_le k)
  | number derived => exact (level_number derived passes follow.ended).answers (Nat.zero_le k)
  | literal literal => exact (level_literal literal passes follow).answers (Nat.zero_le k)
  | call args identifier blank each listed ih =>
    exact level_call (takes_of_each each ih) identifier blank listed passes
  | path all other =>
    rw [← dataPath_names]
    exact (level_path all other passes follow).answers (Nat.zero_le k)

end Complete

end Levels

end Argument

namespace Call

open Argument

def IsCall (x : Piece Call) (limit : Nat) : Prop :=
  CallText x.depth x.value x.text ∧ x.depth ≤ limit

theorem scanner_finds : Finds scanner (IsCall · depthLimit) := by
  intro p c q reads
  obtain ⟨name, r, first, rest⟩ := reads_bind.mp reads
  obtain ⟨cs, identifier, rfl, passes, -⟩ := reads_identifier.mp first
  obtain ⟨found, r', looked, next⟩ := reads_bind.mp rest
  have opened := reads_spacedToken.mp looked
  cases found with
  | true =>
    obtain ⟨r₁, before, bracket⟩ := opened
    obtain ⟨ds, blank, passes'⟩ := reads_blank_of_space before
    obtain ⟨args, r₂, items, done⟩ := reads_bind.mp next
    obtain ⟨rfl, rfl⟩ := reads_pure.mp done
    obtain ⟨xs, text, r₃, all, rfl, listed, inner, close⟩ :=
      itemsUntil_sound (argument_sound depthLimit) items
    have derived := CallText.applied xs identifier blank (fun x mem => (all x mem).1) listed
    have shallow := deepest_le_iff.mpr fun x mem => (all x mem).2
    exact ⟨⟨_, _, _⟩, ⟨derived, shallow⟩, rfl,
      ((passes.trans passes').trans (Passes.trans bracket inner)).trans close⟩
  | false =>
    obtain ⟨rfl, -⟩ := opened
    obtain ⟨rfl, rfl⟩ := reads_pure.mp next
    exact ⟨⟨0, _, cs⟩, ⟨.bare identifier, Nat.zero_le _⟩, rfl, passes⟩

theorem scanner_answers {d : Nat} {c : Call} {text : List Char} (derived : CallText d c text)
    (passes : Passes text p q) (follow : Follow q.rest) :
    scanner.Answers (d ≤ depthLimit) p c q := by
  cases derived with
  | bare identifier =>
    refine Reads.answers ?_ (Nat.zero_le _)
    have word := reads_identifier.mpr ⟨text, identifier, rfl, passes, follow.ended.1⟩
    exact word.bind ((spacedToken_missed follow.unopened).bind (pure_reads _ q))
  | applied args identifier blank each listed =>
    have takes : Takes (Argument.scanner depthLimit) (· ∈ args) (·.depth ≤ depthLimit) :=
      ⟨fun x mem => argument_starts (each x mem), fun x mem p q passes follow =>
        argument_complete (each x mem) passes follow⟩
    obtain ⟨r₁, r₂, r₃, word, bracket, inner, close⟩ := reads_opening identifier blank passes
    apply word.bind_answers
    apply bracket.bind_answers
    have closing : IsClosing ")" := ⟨')', by simp, rfl⟩
    have answers := itemsUntil_complete takes closing listed (fun x mem => mem) inner close
    exact (answers.congr deepest_le_iff.symm).bind_reads (pure_reads _ q)

theorem call_starts {d : Nat} {c : Call} {text : List Char} (derived : CallText d c text) :
    Starts text := by
  cases derived with
  | bare identifier => exact starts_key (.name identifier)
  | applied _ identifier => exact starts_applied identifier _ _

theorem scanner_takes :
    Takes scanner (fun x => CallText x.depth x.value x.text) (·.depth ≤ depthLimit) :=
  ⟨fun _ derived => call_starts derived, fun _ derived _ _ passes follow =>
    scanner_answers derived passes follow⟩

theorem chain_sound {calls : List Call} (reads : chain.Reads p calls q) :
    ∃ d ≤ depthLimit, ∃ text, ChainText d calls text ∧ Passes text p q := by
  obtain ⟨xs, text, all, rfl, derived, passes⟩ := separated_sound scanner_finds reads
  exact ⟨deepest xs, deepest_le_iff.mpr fun x mem => (all x mem).2, text,
    .mk xs (fun x mem => (all x mem).1) derived, passes⟩

theorem chain_starts {d : Nat} {calls : List Call} {text : List Char}
    (derived : ChainText d calls text) : Starts text := by
  obtain ⟨xs, all, separated⟩ := derived
  exact separated_starts scanner_takes separated all

theorem chain_complete {d : Nat} {calls : List Call} {text : List Char}
    (derived : ChainText d calls text) (passes : Passes text p q) (follow : Follow q.rest)
    (last : ¬ "->".toList <+: q.rest.dropWhile isSpace) :
    chain.Answers (d ≤ depthLimit) p calls q := by
  obtain ⟨xs, all, separated⟩ := derived
  have arrow : IsSeparator "->" := ⟨'-', ['>'], rfl, rfl⟩
  have answers := separated_complete scanner_takes arrow separated all passes follow last
  exact answers.congr deepest_le_iff.symm

end Call

namespace Expression

open Argument

theorem reads_atEnd : atEnd.Reads p () q ↔ q = p ∧ p.rest = [] := by
  rw [atEnd, reads_peek_bind]
  split
  · rename_i none
    rw [List.head?_eq_none_iff] at none
    simp [none]
  · rename_i c some
    have more : p.rest ≠ [] := by
      intro none
      simp [none] at some
    simp [more]

theorem rejectChain_sound {reject : List Call} (reads : rejectChain.Reads p reject q) :
    (reject = [] ∧ q = p) ∨ ∃ d ≤ depthLimit, ∃ behind lead text, Blank behind ∧ Blank lead ∧
      ChainText d reject text ∧ Passes (behind ++ '!' :: '~' :: lead ++ text) p q := by
  obtain ⟨found, r, looked, next⟩ := reads_bind.mp reads
  have sign := reads_spacedToken.mp looked
  cases found with
  | false =>
    obtain ⟨rfl, -⟩ := sign
    obtain ⟨rfl, rfl⟩ := reads_pure.mp next
    exact .inl ⟨rfl, rfl⟩
  | true =>
    obtain ⟨r₁, behind, passesSign⟩ := sign
    obtain ⟨_, r₂, lead, chain⟩ := reads_bind.mp next
    obtain ⟨cs, blank, passes⟩ := reads_blank_of_space behind
    obtain ⟨ds, blank', passes'⟩ := reads_blank_of_space lead
    obtain ⟨d, shallow, text, derived, passesChain⟩ := Call.chain_sound chain
    exact .inr ⟨d, shallow, cs, ds, text, blank, blank', derived,
      (passes.trans (Passes.trans passesSign passes')).trans passesChain⟩

theorem rejectChain_complete {d : Nat} {reject : List Call} {behind lead text : List Char}
    (blank : Blank behind) (blank' : Blank lead) (derived : ChainText d reject text)
    (passes : Passes (behind ++ '!' :: '~' :: lead ++ text) p q) (follow : Follow q.rest)
    (last : ¬ "->".toList <+: q.rest.dropWhile isSpace) :
    rejectChain.Answers (d ≤ depthLimit) p reject q := by
  obtain ⟨r₃, passes, chain⟩ := passes_append_iff.mp passes
  obtain ⟨r₁, before, rest⟩ := passes_append_iff.mp passes
  obtain ⟨r₂, sign, after⟩ := passes_append_iff.mp
    (show Passes ("!~".toList ++ lead) r₁ r₃ from rest)
  have ink : Ends isSpace r₁.rest := by
    rw [sign.1]
    exact ends_stop rfl _
  apply (spacedToken_found (space_reads blank before ink) sign).bind_answers
  apply (space_reads blank' after ((Call.chain_starts derived).ends chain)).bind_answers
  exact Call.chain_complete derived chain follow last

theorem scanner_sound {e : Expression} (reads : scanner.Reads p e q) :
    ∃ d ≤ depthLimit, ∃ text, ExpressionText d e text ∧ Passes text p q ∧ q.rest = [] := by
  obtain ⟨_, r₁, before, next⟩ := reads_bind.mp reads
  obtain ⟨success, r₂, first, next⟩ := reads_bind.mp next
  obtain ⟨reject, r₃, second, next⟩ := reads_bind.mp next
  obtain ⟨_, r₄, after, next⟩ := reads_bind.mp next
  obtain ⟨_, r₅, ended, done⟩ := reads_bind.mp next
  obtain ⟨rfl, rfl⟩ := reads_pure.mp done
  obtain ⟨rfl, none⟩ := reads_atEnd.mp ended
  obtain ⟨cs, blank, passes⟩ := reads_blank_of_space before
  obtain ⟨ds, blank', passes'⟩ := reads_blank_of_space after
  obtain ⟨d, shallow, text, derived, passesFirst⟩ := Call.chain_sound first
  rcases rejectChain_sound second with ⟨rfl, rfl⟩ | ⟨d', shallow', behind, lead, text', blankBehind,
    blankLead, derived', passesSecond⟩
  · exact ⟨d, shallow, _, .success blank derived blank',
      (passes.trans passesFirst).trans passes', none⟩
  · refine ⟨max d d', Nat.max_le.mpr ⟨shallow, shallow'⟩, _,
      .reject blank derived blankBehind blankLead derived' blank', ?_, none⟩
    have whole := ((passes.trans passesFirst).trans passesSecond).trans passes'
    simpa using whole

theorem ending_reads {e : Expression} {cs : List Char} (blank : Blank cs) (passes : Passes cs p q)
    (none : q.rest = []) : (do space; atEnd; return e : Scanner Expression).Reads p e q := by
  have ink : Ends isSpace q.rest := by simp [none, Ends]
  apply (space_reads blank passes ink).bind
  exact Reads.bind (reads_atEnd.mpr ⟨rfl, none⟩) (pure_reads _ q)

theorem scanner_complete {d : Nat} {e : Expression} {text : List Char}
    (derived : ExpressionText d e text) (passes : Passes text p q) (none : q.rest = []) :
    scanner.Answers (d ≤ depthLimit) p e q := by
  have follow {cs : List Char} {r : Place} (blank : Blank cs) (passes : Passes cs r q) :
      Follow r.rest := by
    rw [passes.1, none]
    exact follow_blank blank follow_end
  have noMore {cs : List Char} {r : Place} (blank : Blank cs) (passes : Passes cs r q) :
      r.rest.dropWhile isSpace = [] := by
    rw [passes.1, none, dropWhile_blank blank]
    rfl
  cases derived with
  | success blank derived blank' =>
    obtain ⟨r₂, passes, behind⟩ := passes_append_iff.mp passes
    obtain ⟨r₁, lead, chain⟩ := passes_append_iff.mp passes
    have rest := noMore blank' behind
    have first := Call.chain_complete derived chain (follow blank' behind) (by simp [rest])
    have missed : rejectChain.Reads r₂ [] r₂ :=
      (spacedToken_missed (by simp [rest])).bind (pure_reads _ _)
    apply (space_reads blank lead ((Call.chain_starts derived).ends chain)).bind_answers
    exact first.bind_reads (missed.bind (ending_reads blank' behind none))
  | @reject d d' success reject before text behind lead other after blank derived blankBehind blankLead
      derived' blank' =>
    rw [show before ++ text ++ behind ++ '!' :: '~' :: lead ++ other ++ after =
      before ++ text ++ (behind ++ '!' :: '~' :: lead ++ other) ++ after by simp] at passes
    obtain ⟨r₃, passes, passesAfter⟩ := passes_append_iff.mp passes
    obtain ⟨r₂, passes, passesSecond⟩ := passes_append_iff.mp passes
    obtain ⟨r₁, passesBefore, passesFirst⟩ := passes_append_iff.mp passes
    have rest : r₂.rest = behind ++ '!' :: ('~' :: lead ++ other ++ r₃.rest) := by
      rw [passesSecond.1]
      simp
    have followFirst : Follow r₂.rest := by
      rw [rest]
      exact follow_blank blankBehind (follow_stop rfl _)
    have noArrow : ¬ "->".toList <+: r₂.rest.dropWhile isSpace := by
      rw [rest, dropWhile_blank blankBehind, dropWhile_ink rfl]
      simp
    have first := Call.chain_complete derived passesFirst followFirst noArrow
    have second := rejectChain_complete blankBehind blankLead derived' passesSecond
      (follow blank' passesAfter) (by simp [noMore blank' passesAfter])
    refine Answers.congr ?_ Nat.max_le.symm
    have ink := (Call.chain_starts derived).ends passesFirst
    apply (space_reads blank passesBefore ink).bind_answers
    refine first.bind fun _ => ?_
    exact second.bind_reads (ending_reads blank' passesAfter none)

theorem parse_eq_ok_iff {text : String} {e : Expression} :
    parse text = .ok e ↔ ∃ q, scanner.Reads (.start text.toList) e q := by
  rw [parse, run]
  rcases did : scanner (.start text.toList) with ⟨_ | ⟨a, r⟩, m⟩ <;> simp [Reads, did]

theorem passes_start (text : String) :
    Passes text.toList (.start text.toList) ⟨text.toList.length, []⟩ := by
  simp [Passes, Place.start]

theorem derived_of_parse {text : String} {e : Expression} (parsed : parse text = .ok e) :
    ∃ d ≤ 128, ExpressionText d e text.toList := by
  obtain ⟨q, reads⟩ := parse_eq_ok_iff.mp parsed
  obtain ⟨d, shallow, cs, derived, passes, none⟩ := scanner_sound reads
  have whole : text.toList = cs := by
    have parts := passes.1
    rwa [none, List.append_nil] at parts
  exact ⟨d, shallow, whole ▸ derived⟩

theorem parse_of_derived {text : String} {e : Expression} {d : Nat} (shallow : d ≤ 128)
    (derived : ExpressionText d e text.toList) : parse text = .ok e :=
  parse_eq_ok_iff.mpr ⟨_, (scanner_complete derived (passes_start text) rfl).reads shallow⟩

/-- Parsing is deciding the grammar, up to the nesting limit. -/
theorem parse_iff_derived (text : String) (e : Expression) :
    parse text = .ok e ↔ ∃ d ≤ 128, ExpressionText d e text.toList :=
  ⟨derived_of_parse, fun ⟨_, shallow, derived⟩ => parse_of_derived shallow derived⟩

/-- What the grammar derives, but too deep, is refused for its depth. -/
theorem parse_tooDeep {text : String} {e : Expression} {d : Nat}
    (derived : ExpressionText d e text.toList) (deep : 128 < d) :
    ∃ error, parse text = .error error ∧ error.expected = ["nesting depth <= 128"] := by
  obtain ⟨r, did⟩ := (scanner_complete derived (passes_start text) rfl).tooDeep (Nat.not_le.mpr deep)
  exact ⟨(Misses.tooDeep r depthLimit).error text.toList, by rw [parse, run, did], rfl⟩

end Expression

end ActionChain
