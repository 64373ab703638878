import ActionChain.Proofs.Lexemes

/-!
Strings in numbered escapes. A character is one or two code units of UTF-16, and a sequence of code
units is one of characters if its surrogates come in pairs. Main statement `numbered_reads`: between
quotes, numbered escapes are read as the characters whose code units they number, and not at all if
these are no sequence of characters.
-/
namespace ActionChain

namespace Utf16

def High (u : Nat) : Prop := 0xD800 ≤ u ∧ u < 0xDC00

def Low (u : Nat) : Prop := 0xDC00 ≤ u ∧ u < 0xE000

/-- The code units of a character. -/
def units (c : Char) : List Nat :=
  if c.toNat < 0x10000 then [c.toNat]
  else [0xD800 + (c.toNat - 0x10000) / 0x400, 0xDC00 + (c.toNat - 0x10000) % 0x400]

def encode (cs : List Char) : List Nat := cs.flatMap units

/-- Every high surrogate is directly followed by a low one, and no low one stands alone. -/
structure WellFormed (us : List Nat) : Prop where
  followed : ∀ i u, us[i]? = some u → High u → ∃ v, us[i + 1]? = some v ∧ Low v
  preceded : ∀ i v, us[i]? = some v → Low v → ∃ j u, i = j + 1 ∧ us[j]? = some u ∧ High u

section Characters

variable {u high low : Nat} {c : Char}

theorem toNat_ofNat (valid : u.isValidChar) : (Char.ofNat u).toNat = u := by
  rw [Char.ofNat, dif_pos valid]
  rfl

theorem units_single (valid : u.isValidChar) (small : u < 0x10000) :
    units (Char.ofNat u) = [u] := by
  rw [units, toNat_ofNat valid, if_pos small]

theorem units_pair (first : High high) (second : Low low) :
    units (Char.ofNat (0x10000 + (high - 0xD800) * 0x400 + (low - 0xDC00))) = [high, low] := by
  obtain ⟨least, most⟩ := first
  obtain ⟨least', most'⟩ := second
  have valid : (0x10000 + (high - 0xD800) * 0x400 + (low - 0xDC00)).isValidChar := by
    unfold Nat.isValidChar
    omega
  have upper : (0x10000 + (high - 0xD800) * 0x400 + (low - 0xDC00) - 0x10000) / 0x400 =
      high - 0xD800 := by omega
  have lower : (0x10000 + (high - 0xD800) * 0x400 + (low - 0xDC00) - 0x10000) % 0x400 =
      low - 0xDC00 := by omega
  rw [units, toNat_ofNat valid, if_neg (by omega), upper, lower, Nat.add_sub_of_le least,
    Nat.add_sub_of_le least']

/-- A character is a code unit that is no surrogate, or else a pair of surrogates. -/
theorem units_cases (c : Char) :
    (units c = [c.toNat] ∧ c.toNat < 0x10000 ∧ ¬High c.toNat ∧ ¬Low c.toNat) ∨
      ∃ high low, units c = [high, low] ∧ High high ∧ Low low ∧
        c = Char.ofNat (0x10000 + (high - 0xD800) * 0x400 + (low - 0xDC00)) := by
  have valid : c.toNat.isValidChar := c.valid
  unfold Nat.isValidChar at valid
  rw [units]
  split
  · left
    exact ⟨rfl, by assumption, by unfold High; omega, by unfold Low; omega⟩
  · refine .inr ⟨_, _, rfl, by unfold High; omega, by unfold Low; omega, ?_⟩
    have same : 0x10000 + (0xD800 + (c.toNat - 0x10000) / 0x400 - 0xD800) * 0x400 +
        (0xDC00 + (c.toNat - 0x10000) % 0x400 - 0xDC00) = c.toNat := by
      omega
    rw [same, Char.ofNat_toNat]

theorem units_lt (mem : u ∈ units c) : u < 0x10000 := by
  rcases units_cases c with ⟨single, small, -⟩ | ⟨high, low, pair, first, second, -⟩
  · rw [single, List.mem_singleton] at mem
    exact mem ▸ small
  · rw [pair, List.mem_pair] at mem
    rcases mem with rfl | rfl
    · exact Nat.lt_trans first.2 (by decide)
    · exact Nat.lt_trans second.2 (by decide)

theorem valid_of_not_surrogate (small : u < 0x10000) (notHigh : ¬High u) (notLow : ¬Low u) :
    u.isValidChar := by
  unfold High at notHigh
  unfold Low at notLow
  unfold Nat.isValidChar
  omega

end Characters

section Sequences

variable {u high low : Nat} {us : List Nat}

theorem High.not_low (surrogate : High u) : ¬Low u := by
  unfold High at surrogate
  unfold Low
  omega

theorem wellFormed_nil : WellFormed [] := ⟨nofun, nofun⟩

theorem wellFormed_single (notHigh : ¬High u) (notLow : ¬Low u) :
    WellFormed (u :: us) ↔ WellFormed us := by
  constructor
  · intro formed
    refine ⟨fun i v found => formed.followed (i + 1) v found, fun i v found surrogate => ?_⟩
    obtain ⟨j, w, same, found', high⟩ := formed.preceded (i + 1) v found surrogate
    obtain rfl := Nat.succ.inj same
    cases i with
    | zero =>
      obtain rfl := Option.some.inj found'
      exact absurd high notHigh
    | succ i => exact ⟨i, w, rfl, found', high⟩
  · intro formed
    constructor
    · intro i v found surrogate
      cases i with
      | zero =>
        obtain rfl := Option.some.inj found
        exact absurd surrogate notHigh
      | succ i => exact formed.followed i v found surrogate
    · intro i v found surrogate
      cases i with
      | zero =>
        obtain rfl := Option.some.inj found
        exact absurd surrogate notLow
      | succ i =>
        obtain ⟨j, w, rfl, found', high⟩ := formed.preceded i v found surrogate
        exact ⟨j + 1, w, rfl, found', high⟩

theorem wellFormed_pair (first : High high) (second : Low low) :
    WellFormed (high :: low :: us) ↔ WellFormed us := by
  constructor
  · intro formed
    refine ⟨fun i v found => formed.followed (i + 2) v found, fun i v found surrogate => ?_⟩
    obtain ⟨j, w, same, found', high'⟩ := formed.preceded (i + 2) v found surrogate
    obtain rfl := Nat.succ.inj same
    cases i with
    | zero =>
      obtain rfl := Option.some.inj found'
      exact absurd second high'.not_low
    | succ i => exact ⟨i, w, rfl, found', high'⟩
  · intro formed
    constructor
    · intro i v found surrogate
      match i with
      | 0 => exact ⟨low, rfl, second⟩
      | 1 =>
        obtain rfl := Option.some.inj found
        exact absurd second surrogate.not_low
      | i + 2 => exact formed.followed i v found surrogate
    · intro i v found surrogate
      match i with
      | 0 =>
        obtain rfl := Option.some.inj found
        exact absurd surrogate first.not_low
      | 1 => exact ⟨0, high, rfl, rfl, first⟩
      | i + 2 =>
        obtain ⟨j, w, rfl, found', high'⟩ := formed.preceded i v found surrogate
        exact ⟨j + 2, w, rfl, found', high'⟩

theorem encode_wellFormed (cs : List Char) : WellFormed (encode cs) := by
  induction cs with
  | nil => exact wellFormed_nil
  | cons c cs ih =>
    rw [encode, List.flatMap_cons]
    rcases units_cases c with ⟨single, -, notHigh, notLow⟩ | ⟨high, low, pair, first, second, -⟩
    · rw [single]
      exact (wellFormed_single notHigh notLow).mpr ih
    · rw [pair]
      exact (wellFormed_pair first second).mpr ih

/-- A well-formed sequence starts with a code unit that is no surrogate, or with a pair. -/
theorem wellFormed_cases (formed : WellFormed (u :: us)) :
    (¬High u ∧ ¬Low u) ∨ ∃ v rest, us = v :: rest ∧ High u ∧ Low v := by
  by_cases surrogate : High u
  · obtain ⟨v, next, second⟩ := formed.followed 0 u rfl surrogate
    cases us with
    | nil => cases next
    | cons w rest =>
      obtain rfl := Option.some.inj next
      exact .inr ⟨w, rest, rfl, surrogate, second⟩
  · refine .inl ⟨surrogate, fun alone => ?_⟩
    obtain ⟨j, w, impossible, -⟩ := formed.preceded 0 u rfl alone
    cases impossible

end Sequences

/-- The code units of a well-formed sequence are those of characters, taken from the left. -/
theorem encode_of_wellFormed (us : List Nat) (small : ∀ u ∈ us, u < 0x10000)
    (formed : WellFormed us) : ∃ cs, encode cs = us := by
  match us with
  | [] => exact ⟨[], rfl⟩
  | u :: us =>
    rcases wellFormed_cases formed with ⟨notHigh, notLow⟩ | ⟨v, rest, rfl, first, second⟩
    · obtain ⟨fits, smaller⟩ := List.forall_mem_cons.mp small
      have valid := valid_of_not_surrogate fits notHigh notLow
      have rest := (wellFormed_single notHigh notLow).mp formed
      obtain ⟨cs, same⟩ := encode_of_wellFormed us smaller rest
      exact ⟨_ :: cs, by rw [encode, List.flatMap_cons, units_single valid fits, ← same]; rfl⟩
    · have smaller : ∀ w ∈ rest, w < 0x10000 := fun w mem => small w (by simp [mem])
      have later := (wellFormed_pair first second).mp formed
      obtain ⟨cs, same⟩ := encode_of_wellFormed rest smaller later
      exact ⟨_ :: cs, by rw [encode, List.flatMap_cons, units_pair first second, ← same]; rfl⟩

theorem wellFormed_iff {us : List Nat} (small : ∀ u ∈ us, u < 0x10000) :
    WellFormed us ↔ ∃ cs, encode cs = us := by
  refine ⟨encode_of_wellFormed us small, ?_⟩
  rintro ⟨cs, rfl⟩
  exact encode_wellFormed cs

end Utf16

namespace Scanner

open Grammar Utf16

/-- A numbered escape for each group of digits. -/
def numbered (ds : List (List Char)) : List Char := ds.flatMap ('\\' :: 'u' :: ·)

section Digits

theorem unitValue_lt {ds : List Char} (unit : CodeUnit ds) : unitValue ds < 0x10000 := by
  obtain ⟨d₁, d₂, d₃, d₄, rfl⟩ := List.length_eq_four.mp unit.four
  have digit {d : Char} (mem : d.toLower ∈ hexDigits) : hexDigits.idxOf d.toLower < 16 :=
    List.idxOf_lt_length_of_mem mem
  obtain ⟨h₁, h₂, h₃, h₄⟩ := by simpa using unit.all
  have first := digit h₁
  have second := digit h₂
  have third := digit h₃
  have fourth := digit h₄
  simp only [unitValue, List.foldl_cons, List.foldl_nil]
  omega

/-- Every code unit can be written in four digits. -/
theorem codeUnit_spelled {u : Nat} (small : u < 0x10000) :
    ∃ ds, CodeUnit ds ∧ unitValue ds = u := by
  have digit : ∀ n < 16, (Nat.digitChar n).toLower ∈ hexDigits ∧
      hexDigits.idxOf (Nat.digitChar n).toLower = n := by decide
  obtain ⟨h₁, d₁⟩ := digit (u / 0x1000) (by omega)
  obtain ⟨h₂, d₂⟩ := digit (u / 0x100 % 16) (by omega)
  obtain ⟨h₃, d₃⟩ := digit (u / 16 % 16) (by omega)
  obtain ⟨h₄, d₄⟩ := digit (u % 16) (by omega)
  refine ⟨[Nat.digitChar (u / 0x1000), Nat.digitChar (u / 0x100 % 16),
    Nat.digitChar (u / 16 % 16), Nat.digitChar (u % 16)], ⟨rfl, by simp [h₁, h₂, h₃, h₄]⟩, ?_⟩
  simp only [unitValue, List.foldl_cons, List.foldl_nil, d₁, d₂, d₃, d₄]
  omega

theorem codeUnits_spelled {us : List Nat} (small : ∀ u ∈ us, u < 0x10000) :
    ∃ ds : List (List Char), (∀ d ∈ ds, CodeUnit d) ∧ ds.map unitValue = us := by
  induction us with
  | nil => exact ⟨[], nofun, rfl⟩
  | cons u us ih =>
    obtain ⟨first, others⟩ := List.forall_mem_cons.mp small
    obtain ⟨d, unit, rfl⟩ := codeUnit_spelled first
    obtain ⟨ds, each, rfl⟩ := ih others
    exact ⟨d :: ds, List.forall_mem_cons.mpr ⟨unit, each⟩, rfl⟩

end Digits

section Bodies

variable {quote : Char} {cs : List Char} {ds : List (List Char)}

/-- The numbered escapes of characters are the body of a string of these. -/
theorem body_of_units (each : ∀ d ∈ ds, CodeUnit d) (encoded : ds.map unitValue = encode cs) :
    StringBody quote cs (numbered ds) := by
  induction cs generalizing ds with
  | nil =>
    obtain rfl := List.map_eq_nil_iff.mp encoded
    exact .nil
  | cons c cs ih =>
    rw [encode, List.flatMap_cons] at encoded
    rcases units_cases c with ⟨single, -, notHigh, notLow⟩ | ⟨high, low, pair, first, second, made⟩
    · rw [single] at encoded
      obtain ⟨d, rest, rfl, unit, later⟩ := List.map_eq_cons_iff.mp encoded
      obtain ⟨now, others⟩ := List.forall_mem_cons.mp each
      have valid : (unitValue d).isValidChar := unit ▸ c.valid
      have derived := Escape.unit now valid
      rw [unit, Char.ofNat_toNat] at derived
      exact .escaped derived (ih others later)
    · rw [pair] at encoded
      obtain ⟨d, rest, rfl, unit, later⟩ := List.map_eq_cons_iff.mp encoded
      obtain ⟨e, rest, rfl, unit', later⟩ := List.map_eq_cons_iff.mp later
      obtain ⟨now, next, others⟩ := by simpa only [List.forall_mem_cons] using each
      have derived := Escape.pair now unit first.1 first.2 next unit' second.1 second.2
      rw [← made] at derived
      have body : StringBody quote (c :: cs) _ := .escaped derived (ih others later)
      simpa [numbered] using body

theorem numbered_cons (d : List Char) (ds : List (List Char)) :
    numbered (d :: ds) = '\\' :: 'u' :: (d ++ numbered ds) := by
  simp [numbered]

/-- Where numbered escapes go on, and where a backslash comes next, there is one more of them. -/
theorem another_escape (proper : '\\' ≠ quote) {text behind : List Char}
    (same : '\\' :: text = numbered ds ++ quote :: behind) :
    ∃ d rest, ds = d :: rest ∧ text = 'u' :: (d ++ (numbered rest ++ quote :: behind)) := by
  cases ds with
  | nil => exact absurd (List.cons.inj same).1 proper
  | cons d rest =>
    rw [numbered_cons] at same
    exact ⟨d, rest, rfl, by simpa using (List.cons.inj same).2⟩

theorem codeUnit_append_inj {ds es more others : List Char} (unit : CodeUnit ds)
    (other : CodeUnit es) (same : ds ++ more = es ++ others) : ds = es ∧ more = others :=
  List.append_inj same (unit.four.trans other.four.symm)

/-- Between quotes, numbered escapes can be read in no other way. -/
theorem units_of_body (proper : '\\' ≠ quote) {text rest behind : List Char}
    (body : StringBody quote cs text) (each : ∀ d ∈ ds, CodeUnit d)
    (same : text ++ quote :: rest = numbered ds ++ quote :: behind) :
    ds.map unitValue = encode cs ∧ rest = behind := by
  induction body generalizing ds with
  | nil =>
    cases ds with
    | nil => exact ⟨rfl, (List.cons.inj same).2⟩
    | cons d ds => exact absurd (List.cons.inj same).1.symm proper
  | plain notQuote notBackslash _ ih =>
    cases ds with
    | nil => exact absurd (List.cons.inj same).1 notQuote
    | cons d ds => exact absurd (List.cons.inj same).1 notBackslash
  | @escaped c cs escape text derived _ ih =>
    rw [List.cons_append, List.cons_append, List.append_assoc] at same
    obtain ⟨d, ds, rfl, after⟩ := another_escape proper same
    obtain ⟨unit, others⟩ := List.forall_mem_cons.mp each
    cases derived with
    | letter known =>
      obtain ⟨rfl, -⟩ := List.cons.inj after
      simp [escapes] at known
    | unit unit' valid =>
      obtain ⟨rfl, later⟩ := codeUnit_append_inj unit' unit (List.cons.inj after).2
      obtain ⟨encoded, behind⟩ := ih others later
      refine ⟨?_, behind⟩
      rw [List.map_cons, encoded, encode, encode, List.flatMap_cons,
        units_single valid (unitValue_lt unit)]
      rfl
    | pair unit' high least most other low above below =>
      rw [List.cons_append, List.cons_append, List.append_assoc] at after
      obtain ⟨rfl, next⟩ := codeUnit_append_inj unit' unit (List.cons.inj after).2
      obtain ⟨e, ds, rfl, after'⟩ := another_escape proper next
      obtain ⟨unit₂, fewer⟩ := List.forall_mem_cons.mp others
      obtain ⟨rfl, later⟩ := codeUnit_append_inj other unit₂ (List.cons.inj after').2
      obtain ⟨encoded, behind⟩ := ih fewer later
      refine ⟨?_, behind⟩
      rw [List.map_cons, List.map_cons, encoded, high, low, encode, encode, List.flatMap_cons,
        units_pair ⟨least, most⟩ ⟨above, below⟩]
      rfl

theorem numbered_sound (listed : quote ∈ ['"', '\'']) (each : ∀ d ∈ ds, CodeUnit d) {p q : Place}
    {s : String} {behind : List Char} (here : p.rest = quote :: numbered ds ++ quote :: behind)
    (read : (stringIn quote).Reads p s q) : ds.map unitValue = encode s.toList ∧
      Passes (quote :: numbered ds ++ [quote]) p q := by
  have proper : '\\' ≠ quote := by
    rintro rfl
    simp at listed
  have first : p.rest.head? = some quote := by simp [here]
  obtain ⟨_, @⟨other, cs, text, -, body⟩, passes⟩ := stringIn_sound listed first read
  have same : other :: (text ++ other :: q.rest) = quote :: (numbered ds ++ quote :: behind) := by
    simpa using passes.1.symm.trans here
  obtain ⟨rfl, same⟩ := List.cons.inj same
  obtain ⟨encoded, rfl⟩ := units_of_body proper body each same
  obtain rfl := List.append_cancel_right same
  exact ⟨by simpa using encoded, passes⟩

end Bodies

/-- Numbered escapes between quotes are read as the characters of which they number the code units,
and read at all if and only if every surrogate among these is one of a pair; and the code units of
every string can be numbered. The digits may have any case. -/
theorem numbered_reads {quote : Char} (listed : quote ∈ ['"', '\'']) :
    (∀ t : String, ∃ ds : List (List Char), (∀ d ∈ ds, CodeUnit d) ∧
        ds.map Text.hexadecimal = encode t.toList) ∧
      ∀ (ds : List (List Char)) (p : Place) (behind : List Char), (∀ d ∈ ds, CodeUnit d) →
        p.rest = quote :: numbered ds ++ quote :: behind →
        (∀ s q, (stringIn quote).Reads p s q ↔
          ds.map Text.hexadecimal = encode s.toList ∧ Passes (quote :: numbered ds ++ [quote]) p q) ∧
        ((∃ s q, (stringIn quote).Reads p s q) ↔ WellFormed (ds.map Text.hexadecimal)) := by
  have values {ds : List (List Char)} (each : ∀ d ∈ ds, CodeUnit d) :
      ds.map Text.hexadecimal = ds.map unitValue :=
    List.map_congr_left fun d mem => hexadecimal_eq (each d mem)
  refine ⟨fun t => ?_, fun ds p behind each here => ?_⟩
  · have small : ∀ u ∈ encode t.toList, u < 0x10000 := by
      intro u mem
      obtain ⟨c, -, unit⟩ := List.mem_flatMap.mp mem
      exact units_lt unit
    obtain ⟨ds, each, encoded⟩ := codeUnits_spelled small
    exact ⟨ds, each, (values each).trans encoded⟩
  · rw [values each]
    have reads (s : String) (q : Place) : (stringIn quote).Reads p s q ↔
        ds.map unitValue = encode s.toList ∧ Passes (quote :: numbered ds ++ [quote]) p q := by
      constructor
      · exact numbered_sound listed each here
      · rintro ⟨encoded, passes⟩
        have read := stringIn_complete listed (body_of_units each encoded) passes
        rwa [String.ofList_toList] at read
    refine ⟨reads, ?_⟩
    have small : ∀ u ∈ ds.map unitValue, u < 0x10000 :=
      List.forall_mem_map.mpr fun d mem => unitValue_lt (each d mem)
    rw [wellFormed_iff small]
    constructor
    · rintro ⟨s, q, read⟩
      exact ⟨s.toList, ((reads s q).mp read).1.symm⟩
    · rintro ⟨cs, encoded⟩
      have text : p.rest = (quote :: numbered ds ++ [quote]) ++ behind := by simp [here]
      exact ⟨String.ofList cs, _, (reads _ _).mpr ⟨by simp [encoded], passes_advance text⟩⟩

/-- Two halves give one character; the first alone gives none. -/
theorem numbered_reads_halves :
    let first := ['D', '8', '3', 'd']
    let second := ['d', 'E', '0', '0']
    CodeUnit first ∧ CodeUnit second ∧
      (stringIn '"').Reads (.start ('"' :: numbered [first, second] ++ ['"'])) "😀" ⟨14, []⟩ ∧
      ¬∃ s q, (stringIn '"').Reads (.start ('"' :: numbered [first] ++ ['"'])) s q := by
  intro first second
  have unit : CodeUnit first := .of_all rfl (by decide)
  have unit' : CodeUnit second := .of_all rfl (by decide)
  obtain ⟨-, reads⟩ := numbered_reads (show '"' ∈ ['"', '\''] by decide)
  refine ⟨unit, unit', ?_, fun alone => ?_⟩
  · have both : ∀ d ∈ [first, second], CodeUnit d := by simp [unit, unit']
    exact ((reads [first, second] _ [] both rfl).1 "😀" ⟨14, []⟩).mpr ⟨by decide, rfl, rfl⟩
  · have one : ∀ d ∈ [first], CodeUnit d := by simp [unit]
    have formed := (reads [first] _ [] one rfl).2.mp alone
    obtain ⟨v, next, -⟩ := formed.followed 0 0xD83D (by decide) ⟨by decide, by decide⟩
    cases next

end Scanner

end ActionChain
