import ActionChain.Proofs.Lexemes

/-!
Lists of items. If a scanner of items finds pieces of one kind only, the scanners of lists find lists
of such pieces; and if it takes every such piece that nothing follows which belongs to it, they take
every list. One item that nests too deep ends the whole list.
-/
namespace ActionChain

namespace Scanner

open Grammar

variable {α : Type} {p q r : Place}

section Follow

/-- A character that ends whatever comes before it. -/
def isStop (c : Char) : Bool := !isSpace c && !isNameChar c && c != '.' && c != '('

/-- What may follow an argument or a call: nothing that either could go on with. -/
structure Follow (rest : List Char) : Prop where
  ended : Ended rest
  unopened : ¬ "(".toList <+: rest.dropWhile isSpace

theorem dropWhile_blank {cs : List Char} (blank : Blank cs) (rest : List Char) :
    (cs ++ rest).dropWhile isSpace = rest.dropWhile isSpace :=
  List.dropWhile_append_of_pos fun c mem => isSpace_iff.mpr (blank c mem)

theorem dropWhile_ink {c : Char} (ink : isSpace c = false) (rest : List Char) :
    (c :: rest).dropWhile isSpace = c :: rest :=
  List.dropWhile_cons_of_neg (by simp [ink])

theorem not_space_of_stop {c : Char} (stop : isStop c = true) : isSpace c = false := by
  simp only [isStop, Bool.and_eq_true, Bool.not_eq_true'] at stop
  exact stop.1.1.1

theorem ended_blank {cs rest : List Char} (blank : Blank cs) (ended : Ended rest) :
    Ended (cs ++ rest) := by
  cases cs with
  | nil => exact ended
  | cons c cs =>
    have listed := blank c (.head cs)
    simp only [List.mem_cons, List.not_mem_nil, or_false] at listed
    constructor <;>
    · intro d next
      cases next
      rcases listed with rfl | rfl | rfl | rfl <;> rfl

theorem follow_blank {cs rest : List Char} (blank : Blank cs) (follow : Follow rest) :
    Follow (cs ++ rest) :=
  ⟨ended_blank blank follow.ended, dropWhile_blank blank rest ▸ follow.unopened⟩

theorem follow_stop {c : Char} (stop : isStop c = true) (rest : List Char) : Follow (c :: rest) := by
  have ink := not_space_of_stop stop
  simp only [isStop, Bool.and_eq_true, Bool.not_eq_true', bne_iff_ne] at stop
  refine ⟨⟨?_, ?_⟩, ?_⟩
  · intro d next
    cases next
    exact stop.1.1.2
  · intro d next
    cases next
    simpa using stop.1.2
  · rw [dropWhile_ink ink]
    simpa using Ne.symm stop.2

theorem follow_end : Follow [] := by
  refine ⟨⟨?_, ?_⟩, ?_⟩
  · intro c next
    cases next
  · intro c next
    cases next
  · simp

/-- An item starts with a character that is neither space nor a closing bracket. -/
def Starts (text : List Char) : Prop :=
  ∃ c cs, text = c :: cs ∧ isSpace c = false ∧ c ∉ [')', ']', '\x7d']

theorem starts_of_not_mem {c : Char} (other : c ∉ [' ', '\t', '\r', '\n', ')', ']', '\x7d'])
    (cs : List Char) : Starts (c :: cs) := by
  refine ⟨c, cs, rfl, ?_, fun listed => other (by simp_all)⟩
  cases space : isSpace c with
  | false => rfl
  | true =>
    have listed := isSpace_iff.mp space
    exact absurd (by simp_all) other

theorem starts_letter {c : Char} (letter : Letter c) (cs : List Char) : Starts (c :: cs) := by
  have none : [' ', '\t', '\r', '\n', ')', ']', '\x7d'].all (!isLetter ·) := by decide
  refine starts_of_not_mem (fun listed => ?_) cs
  have other := List.all_eq_true.mp none c listed
  simp [isLetter_iff.mpr letter] at other

theorem starts_digit {c : Char} (digit : c.isDigit) (cs : List Char) : Starts (c :: cs) := by
  have none : [' ', '\t', '\r', '\n', ')', ']', '\x7d'].all (!Char.isDigit ·) := by decide
  refine starts_of_not_mem (fun listed => ?_) cs
  have other := List.all_eq_true.mp none c listed
  simp [digit] at other

theorem Starts.append {text : List Char} (starts : Starts text) (more : List Char) :
    Starts (text ++ more) := by
  obtain ⟨c, cs, rfl, ink⟩ := starts
  exact ⟨c, cs ++ more, rfl, ink⟩

theorem Starts.ends {text : List Char} (starts : Starts text) (passes : Passes text p q) :
    Ends isSpace p.rest := by
  obtain ⟨c, cs, rfl, ink, -⟩ := starts
  rw [passes.1]
  intro d next
  cases next
  exact ink

end Follow

section Sound

variable {item : Scanner α} {good : Piece α → Prop}

/-- Whatever the scanner reads is a piece of the right kind. -/
def Finds (item : Scanner α) (good : Piece α → Prop) : Prop :=
  ∀ p a q, item.Reads p a q → ∃ x, good x ∧ x.value = a ∧ Passes x.text p q

theorem reads_blank_of_space (reads : space.Reads p () q) : ∃ cs, Blank cs ∧ Passes cs p q := by
  obtain ⟨cs, blank, passes, -⟩ := reads_space.mp reads
  exact ⟨cs, blank, passes⟩

theorem more_sound (finds : Finds item good) {separator : String} {n : Nat} {as : List α}
    (reads : (more item separator n).Reads p as q) :
    ∃ xs text, (∀ x ∈ xs, good x) ∧ xs.map (·.value) = as ∧
      More separator.toList xs text ∧ Passes text p q := by
  induction n generalizing p as with
  | zero =>
    obtain ⟨rfl, rfl⟩ := reads_pure.mp reads
    exact ⟨[], [], by simp, rfl, .nil, .refl _⟩
  | succ n ih =>
    obtain ⟨found, r, looked, next⟩ := reads_bind.mp reads
    cases found with
    | false =>
      obtain ⟨rfl, -⟩ := reads_spacedToken.mp looked
      obtain ⟨rfl, rfl⟩ := reads_pure.mp next
      exact ⟨[], [], by simp, rfl, .nil, .refl _⟩
    | true =>
      obtain ⟨r₁, before, separated⟩ := reads_spacedToken.mp looked
      obtain ⟨_, r₂, after, next⟩ := reads_bind.mp next
      obtain ⟨a, r₃, first, next⟩ := reads_bind.mp next
      obtain ⟨as, r₄, rest, done⟩ := reads_bind.mp next
      obtain ⟨rfl, rfl⟩ := reads_pure.mp done
      obtain ⟨cs, blank, passes⟩ := reads_blank_of_space before
      obtain ⟨ds, blank', passes'⟩ := reads_blank_of_space after
      obtain ⟨x, fine, rfl, passesItem⟩ := finds _ _ _ first
      obtain ⟨xs, text, all, rfl, derived, passesRest⟩ := ih rest
      exact ⟨x :: xs, _, List.forall_mem_cons.mpr ⟨fine, all⟩, rfl, .cons blank blank' derived,
        (((passes.trans separated).trans passes').trans passesItem).trans passesRest⟩

theorem separated_sound (finds : Finds item good) {separator : String} {as : List α}
    (reads : (separated item separator).Reads p as q) :
    ∃ xs text, (∀ x ∈ xs, good x) ∧ xs.map (·.value) = as ∧
      Separated separator.toList xs text ∧ Passes text p q := by
  obtain ⟨a, r, first, reads⟩ := reads_bind.mp reads
  rw [reads_here_bind] at reads
  obtain ⟨as, r', rest, done⟩ := reads_bind.mp reads
  obtain ⟨rfl, rfl⟩ := reads_pure.mp done
  obtain ⟨x, fine, rfl, passes⟩ := finds _ _ _ first
  obtain ⟨xs, text, all, rfl, derived, passes'⟩ := more_sound finds rest
  exact ⟨x :: xs, _, List.forall_mem_cons.mpr ⟨fine, all⟩, rfl, .mk derived, passes.trans passes'⟩

theorem itemsUntil_sound (finds : Finds item good) {close : String} {as : List α}
    (reads : (itemsUntil item close).Reads p as q) :
    ∃ xs text r, (∀ x ∈ xs, good x) ∧ xs.map (·.value) = as ∧
      Listed xs text ∧ Passes text p r ∧ Passes close.toList r q := by
  obtain ⟨_, r, before, next⟩ := reads_bind.mp reads
  obtain ⟨cs, blank, passes⟩ := reads_blank_of_space before
  obtain ⟨found, r', looked, next'⟩ := reads_bind.mp next
  have closing := reads_token.mp looked
  cases found with
  | true =>
    obtain ⟨rfl, rfl⟩ := reads_pure.mp next'
    exact ⟨[], cs, _, by simp, rfl, .none blank, passes, closing⟩
  | false =>
    obtain ⟨rfl, -⟩ := closing
    obtain ⟨as, r₁, items, next⟩ := reads_bind.mp next'
    obtain ⟨_, r₂, after, next⟩ := reads_bind.mp next
    obtain ⟨_, r₃, closed, done⟩ := reads_bind.mp next
    obtain ⟨rfl, rfl⟩ := reads_pure.mp done
    obtain ⟨xs, text, all, rfl, derived, passesItems⟩ := separated_sound finds items
    obtain ⟨ds, blank', passes'⟩ := reads_blank_of_space after
    have passesClose := reads_required.mp closed
    exact ⟨xs, _, _, all, rfl, .some blank derived blank',
      (passes.trans passesItems).trans passes', passesClose⟩

end Sound

section Complete

variable {item : Scanner α} {good fits : Piece α → Prop}

/-- The scanner reads every piece of the kind that fits, and gives up those that do not. -/
structure Takes (item : Scanner α) (good fits : Piece α → Prop) : Prop where
  starts : ∀ x, good x → Starts x.text
  answers : ∀ x, good x → ∀ p q, Passes x.text p q → Follow q.rest →
    item.Answers (fits x) p x.value q

def IsSeparator (separator : String) : Prop :=
  ∃ c cs, separator.toList = c :: cs ∧ isStop c = true

def IsClosing (close : String) : Prop := ∃ c ∈ [')', ']', '\x7d'], close.toList = [c]

theorem isStop_of_closing {c : Char} (listed : c ∈ [')', ']', '\x7d']) : isStop c = true := by
  simp only [List.mem_cons, List.not_mem_nil, or_false] at listed
  rcases listed with rfl | rfl | rfl <;> rfl

theorem space_reads {cs : List Char} (blank : Blank cs) (passes : Passes cs p q)
    (ends : Ends isSpace q.rest) : space.Reads p () q :=
  reads_space.mpr ⟨cs, blank, passes, ends⟩

theorem ends_stop {c : Char} (stop : isStop c = true) (rest : List Char) :
    Ends isSpace (c :: rest) := by
  intro d next
  cases next
  exact not_space_of_stop stop

theorem follow_more {separator : String} (spelled : IsSeparator separator) {xs : List (Piece α)}
    {text rest : List Char} (derived : More separator.toList xs text) (follow : Follow rest) :
    Follow (text ++ rest) := by
  cases derived with
  | nil => exact follow
  | cons blank _ _ =>
    obtain ⟨c, cs, same, stop⟩ := spelled
    simp only [List.append_assoc, same, List.cons_append]
    exact follow_blank blank (follow_stop stop _)

theorem more_complete (takes : Takes item good fits) {separator : String}
    (spelled : IsSeparator separator) {xs : List (Piece α)} {text : List Char} {n : Nat}
    (derived : More separator.toList xs text) (all : ∀ x ∈ xs, good x) (enough : xs.length ≤ n)
    (passes : Passes text p q) (follow : Follow q.rest)
    (last : ¬ separator.toList <+: q.rest.dropWhile isSpace) :
    (more item separator n).Answers (∀ x ∈ xs, fits x) p (xs.map (·.value)) q := by
  induction derived generalizing p n with
  | nil =>
    obtain rfl := passes_nil_iff.mp passes
    refine Reads.answers ?_ (by simp)
    cases n with
    | zero => exact pure_reads [] q
    | succ n => exact (spacedToken_missed last).bind (pure_reads [] q)
  | @cons x xs before after text blank blank' derived ih =>
    obtain ⟨good, all⟩ := List.forall_mem_cons.mp all
    cases n with
    | zero => simp at enough
    | succ n =>
      obtain ⟨r₃, passes, rest⟩ := passes_append_iff.mp passes
      obtain ⟨r₂, passes, first⟩ := passes_append_iff.mp passes
      obtain ⟨r₁, passes, lead⟩ := passes_append_iff.mp passes
      obtain ⟨r, behind, token⟩ := passes_append_iff.mp passes
      have inkSeparator : Ends isSpace r.rest := by
        obtain ⟨c, cs, same, stop⟩ := spelled
        rw [token.1, same]
        exact ends_stop stop _
      have inkItem : Ends isSpace r₂.rest := (takes.starts x good).ends first
      have looked := spacedToken_found (space_reads blank behind inkSeparator) token
      have item := takes.answers x good r₂ r₃ first (rest.1 ▸ follow_more spelled derived follow)
      have others := ih all (by simpa using enough) rest
      refine Answers.congr ?_ List.forall_mem_cons.symm
      apply looked.bind_answers
      apply (space_reads blank' lead inkItem).bind_answers
      exact item.bind fun _ => others.bind_reads (pure_reads _ q)

theorem length_le_of_more {separator : String} (spelled : IsSeparator separator)
    {xs : List (Piece α)} {text : List Char} (derived : More separator.toList xs text) :
    xs.length ≤ text.length := by
  induction derived with
  | nil => simp
  | cons _ _ _ ih =>
    obtain ⟨c, cs, same, -⟩ := spelled
    simp only [List.length_append, List.length_cons, same] at ih ⊢
    omega

theorem separated_complete (takes : Takes item good fits) {separator : String}
    (spelled : IsSeparator separator) {xs : List (Piece α)} {text : List Char}
    (derived : Separated separator.toList xs text) (all : ∀ x ∈ xs, good x)
    (passes : Passes text p q) (follow : Follow q.rest)
    (last : ¬ separator.toList <+: q.rest.dropWhile isSpace) :
    (separated item separator).Answers (∀ x ∈ xs, fits x) p (xs.map (·.value)) q := by
  obtain @⟨x, xs, text, derived⟩ := derived
  obtain ⟨good, all⟩ := List.forall_mem_cons.mp all
  obtain ⟨r, first, rest⟩ := passes_append_iff.mp passes
  have item := takes.answers _ good p r first (rest.1 ▸ follow_more spelled derived follow)
  have enough := length_le_of_more spelled derived
  have fuel : text.length ≤ r.rest.length + 1 := by
    rw [rest.1, List.length_append]
    omega
  have others := more_complete takes spelled derived all (Nat.le_trans enough fuel) rest follow last
  refine Answers.congr ?_ List.forall_mem_cons.symm
  refine item.bind fun _ => Answers.of_eq ?_ (here_bind _ r)
  exact others.bind_reads (pure_reads _ q)

theorem separated_starts (takes : Takes item good fits) {separator : List Char}
    {xs : List (Piece α)} {text : List Char} (derived : Separated separator xs text)
    (all : ∀ x ∈ xs, good x) : Starts text := by
  obtain ⟨more⟩ := derived
  exact (takes.starts _ (all _ (.head _))).append _

theorem comma : IsSeparator "," := ⟨',', [], rfl, rfl⟩

theorem itemsUntil_complete (takes : Takes item good fits) {close : String}
    (closing : IsClosing close) {xs : List (Piece α)} {text : List Char} (derived : Listed xs text)
    (all : ∀ x ∈ xs, good x) (passes : Passes text p r) (closed : Passes close.toList r q) :
    (itemsUntil item close).Answers (∀ x ∈ xs, fits x) p (xs.map (·.value)) q := by
  obtain ⟨bracket, listed, spelled⟩ := closing
  have stop := isStop_of_closing listed
  have rest : r.rest = bracket :: q.rest := by rw [closed.1, spelled, List.singleton_append]
  have ink : Ends isSpace r.rest := rest ▸ ends_stop stop _
  cases derived with
  | none blank =>
    refine Reads.answers ?_ (by simp)
    apply (space_reads blank passes ink).bind
    exact (token_found closed).bind (pure_reads [] q)
  | some blank derived blank' =>
    obtain ⟨r₂, passes, behind⟩ := passes_append_iff.mp passes
    obtain ⟨r₁, lead, items⟩ := passes_append_iff.mp passes
    have starts := separated_starts takes derived all
    have missing : ¬ close.toList <+: r₁.rest := by
      obtain ⟨c, cs, same, -, opening⟩ := starts
      rw [spelled, items.1, same]
      rintro ⟨more, here⟩
      cases here
      exact opening listed
    have follow : Follow r₂.rest := by
      rw [behind.1, rest]
      exact follow_blank blank' (follow_stop stop _)
    have last : ¬ ",".toList <+: r₂.rest.dropWhile isSpace := by
      rw [behind.1, rest, dropWhile_blank blank', dropWhile_ink (not_space_of_stop stop)]
      have other : ',' ≠ bracket := by
        rintro rfl
        simp at listed
      simpa using other
    have answers := separated_complete takes comma derived all items follow last
    apply (space_reads blank lead (starts.ends items)).bind_answers
    apply (token_missed missing).bind_answers
    apply answers.bind_reads
    apply (space_reads blank' behind ink).bind
    exact (reads_required.mpr closed).bind (pure_reads _ q)

end Complete

end Scanner

end ActionChain
