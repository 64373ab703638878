import ActionChain.Expression.Printer
import ActionChain.Proofs.NumberText
import ActionChain.Proofs.Parsing

/-!
The printer and the grammar. The written form of an expression is derived by the grammar, nests as
deep as the expression does, and stands for the same expression, so parsing undoes printing.
-/
namespace ActionChain

open Grammar

section Depth

mutual

def Argument.depth : Argument → Nat
  | .array items => Argument.itemsDepth items + 1
  | .object ms => Argument.membersDepth ms + 1
  | .call _ args => Argument.itemsDepth args + 1
  | _ => 0

def Argument.itemsDepth : List Argument → Nat
  | [] => 0
  | a :: rest => max a.depth (Argument.itemsDepth rest)

def Argument.membersDepth : List (String × Argument) → Nat
  | [] => 0
  | (_, a) :: rest => max a.depth (Argument.membersDepth rest)

end

def Call.depth (c : Call) : Nat := Argument.itemsDepth c.args

def Call.chainDepth (calls : List Call) : Nat := (calls.map Call.depth).foldr max 0

def Expression.depth (e : Expression) : Nat :=
  max (Call.chainDepth e.success) (Call.chainDepth e.reject)

end Depth

section Proper

mutual

/-- Every call is named by an identifier, every number is finite, and members ascend, as they always
do. Strings and keys may be any. -/
def Argument.Proper : Argument → Prop
  | .number x => x.isFinite
  | .array items => Argument.ItemsProper items
  | .object ms => Members.Sorted ms ∧ Argument.MembersProper ms
  | .call name args => Identifier name.toList ∧ Argument.ItemsProper args
  | _ => True

def Argument.ItemsProper : List Argument → Prop
  | [] => True
  | a :: rest => a.Proper ∧ Argument.ItemsProper rest

def Argument.MembersProper : List (String × Argument) → Prop
  | [] => True
  | (_, a) :: rest => a.Proper ∧ Argument.MembersProper rest

end

def Call.Proper (c : Call) : Prop := Identifier c.name.toList ∧ Argument.ItemsProper c.args

structure Expression.Proper (e : Expression) : Prop where
  some : e.success ≠ []
  success : ∀ c ∈ e.success, c.Proper
  reject : ∀ c ∈ e.reject, c.Proper

end Proper

section Strings

theorem escape_spec (c : Char) :
    (Argument.escape c = [c] ∧ c ≠ '\'' ∧ c ≠ '\\') ∨
      ∃ text, Argument.escape c = '\\' :: text ∧ Escape c text := by
  have listed : ∀ d e, (d, e) ∈ escapes → Escape e [d] := fun d e => .letter
  have units : ∀ n < 32, (Text.hex4 n).length = 4 ∧
      (Text.hex4 n).all (·.toLower ∈ hexDigits) ∧ unitValue (Text.hex4 n) = n := by decide
  unfold Argument.escape
  split
  · exact .inr ⟨_, rfl, listed _ _ (by decide)⟩
  · exact .inr ⟨_, rfl, listed _ _ (by decide)⟩
  · exact .inr ⟨_, rfl, listed _ _ (by decide)⟩
  · exact .inr ⟨_, rfl, listed _ _ (by decide)⟩
  · exact .inr ⟨_, rfl, listed _ _ (by decide)⟩
  · exact .inr ⟨_, rfl, listed _ _ (by decide)⟩
  · exact .inr ⟨_, rfl, listed _ _ (by decide)⟩
  · rename_i notBackslash notQuote _ _ _ _ _
    split
    · rename_i control
      have small : c.toNat < 32 := control
      obtain ⟨four, all, value⟩ := units c.toNat small
      have valid : (unitValue (Text.hex4 c.toNat)).isValidChar := by
        rw [value]
        exact .inl (by omega)
      have derived := Escape.unit (.of_all four all) valid
      rw [value, Char.ofNat_toNat] at derived
      exact .inr ⟨_, rfl, derived⟩
    · exact .inl ⟨rfl, notQuote, notBackslash⟩

theorem writeString_derived (s : String) : StringText s (Argument.writeString s) := by
  have body : ∀ cs : List Char, StringBody '\'' cs (cs.flatMap Argument.escape) := by
    intro cs
    induction cs with
    | nil => exact .nil
    | cons c cs ih =>
      rw [List.flatMap_cons]
      rcases escape_spec c with ⟨plain, notQuote, notBackslash⟩ | ⟨text, escaped, derived⟩
      · rw [plain]
        exact .plain notQuote notBackslash ih
      · rw [escaped]
        exact .escaped derived ih
  have text : StringText (String.ofList s.toList) (Argument.writeString s) :=
    .mk (by simp) (body s.toList)
  rwa [String.ofList_toList] at text

end Strings

section Lists

variable {α : Type}

/-- Pieces joined with a separator, and the blanks around it, are separated pieces. -/
theorem separated_join {before separator after : List Char} (blank : Blank before)
    (blank' : Blank after) (x : Piece α) (xs : List (Piece α)) :
    Separated separator (x :: xs)
      (Text.join (before ++ separator ++ after) ((x :: xs).map (·.text))) := by
  have more : More separator xs
      ((xs.map (·.text)).flatMap (before ++ separator ++ after ++ ·)) := by
    induction xs with
    | nil => exact .nil
    | cons y ys ih => exact .cons blank blank' ih
  rw [List.map_cons, Text.join_cons]
  exact .mk more

theorem blank_nil : Blank [] := by simp [Blank]

theorem blank_space : Blank [' '] := by simp [Blank]

theorem listed_join (xs : List (Piece α)) : Listed xs (Text.join [',', ' '] (xs.map (·.text))) := by
  cases xs with
  | nil => exact .none blank_nil
  | cons x xs =>
    have separated : Separated [','] (x :: xs) (Text.join [',', ' '] ((x :: xs).map (·.text))) :=
      separated_join blank_nil blank_space x xs
    have listed := Listed.some blank_nil separated blank_nil
    rwa [List.append_nil] at listed

end Lists

section Arguments

theorem keepsLast_of_sorted {ms : Members Argument} (sorted : Members.Sorted ms) :
    KeepsLast ms ms := by
  refine ⟨sorted, fun key => ?_⟩
  induction ms with
  | nil => rfl
  | cons m rest ih =>
    obtain ⟨k, v⟩ := m
    rw [List.reverse_cons, List.lookup_append, ← ih (List.pairwise_cons.mp sorted).2,
      Members.find?_cons]
    split
    · rename_i same
      rw [Members.find?_of_least sorted (.inr same), same]
      simp
    · rename_i other
      have differ : (key == k) = false := by simpa using other
      simp [List.lookup_cons, differ]

theorem sorted_iff_keys {ms : Members Argument} :
    Members.Sorted ms ↔ (ms.map (·.1)).Pairwise (· < ·) := List.pairwise_map.symm

mutual

/-- The written form of an argument, and what it stands for. By recursion on the argument: a list of
arguments becomes a list of pieces. -/
theorem Argument.write_derived : ∀ a : Argument, a.Proper →
    ∃ b, ArgumentText a.depth b a.write ∧ b.same a
  | .null, _ => ⟨.null, .literal .null, rfl⟩
  | .bool true, _ => ⟨.bool true, .literal .true, rfl⟩
  | .bool false, _ => ⟨.bool false, .literal .false, rfl⟩
  | .number x, finite => by
    obtain ⟨y, derived, same⟩ := NumberStyle.plain_derived finite
    exact ⟨.number y, .number derived, same⟩
  | .string s, _ => ⟨.string s, .string (writeString_derived s), by simp [Argument.same]⟩
  | .array items, proper => by
    obtain ⟨xs, each, same, text, depth⟩ := Argument.items_derived items proper
    have derived := ArgumentText.array xs each (listed_join xs)
    rw [text, depth] at derived
    exact ⟨_, derived, same⟩
  | .object ms, ⟨sorted, proper⟩ => by
    obtain ⟨xs, each, same, text, keys, depth⟩ := Argument.members_derived ms proper
    have kept : Members.Sorted (xs.map (·.piece.value)) := by
      rw [sorted_iff_keys, keys, ← sorted_iff_keys]
      exact sorted
    have derived := ArgumentText.object xs each (listed_join _) (keepsLast_of_sorted kept)
    rw [text, depth] at derived
    exact ⟨_, derived, same⟩
  | .call name args, ⟨identifier, proper⟩ => by
    obtain ⟨xs, each, same, text, depth⟩ := Argument.items_derived args proper
    have derived := ArgumentText.call xs identifier blank_nil each (listed_join xs)
    rw [text, depth, List.append_nil, String.ofList_toList] at derived
    exact ⟨_, derived, by simp [Argument.same, same]⟩

theorem Argument.items_derived : ∀ items : List Argument, Argument.ItemsProper items →
    ∃ xs : List (Piece Argument), (∀ x ∈ xs, ArgumentText x.depth x.value x.text) ∧
      Argument.sameItems (xs.map (·.value)) items ∧ xs.map (·.text) = Argument.writeItems items ∧
      deepest xs = Argument.itemsDepth items
  | [], _ => ⟨[], by simp, rfl, rfl, rfl⟩
  | a :: rest, ⟨proper, others⟩ => by
    obtain ⟨b, derived, same⟩ := Argument.write_derived a proper
    obtain ⟨xs, each, sames, text, depth⟩ := Argument.items_derived rest others
    refine ⟨⟨a.depth, b, a.write⟩ :: xs, List.forall_mem_cons.mpr ⟨derived, each⟩, ?_, ?_, ?_⟩
    · simp only [List.map_cons, Argument.sameItems, same, sames, Bool.and_self]
    · rw [List.map_cons, text, Argument.writeItems]
    · rw [Argument.itemsDepth, ← depth]
      rfl

theorem Argument.members_derived : ∀ ms : List (String × Argument), Argument.MembersProper ms →
    ∃ xs : List Member, (∀ m ∈ xs, ArgumentText m.value.depth m.value.value m.value.text) ∧
      Argument.sameMembers (xs.map (·.piece.value)) ms ∧
      (xs.map Member.piece).map (·.text) = Argument.writeMembers ms ∧
      (xs.map (·.piece.value)).map (·.1) = ms.map (·.1) ∧
      deepest (xs.map Member.piece) = Argument.membersDepth ms
  | [], _ => ⟨[], by simp, rfl, rfl, rfl, rfl⟩
  | (k, a) :: rest, ⟨proper, others⟩ => by
    obtain ⟨b, derived, same⟩ := Argument.write_derived a proper
    obtain ⟨xs, each, sames, text, keys, depth⟩ := Argument.members_derived rest others
    let m : Member := ⟨k, .string (writeString_derived k), blank_nil, blank_space,
      ⟨a.depth, b, a.write⟩⟩
    refine ⟨m :: xs, List.forall_mem_cons.mpr ⟨derived, each⟩, ?_, ?_, ?_, ?_⟩
    · have value : m.piece.value = (k, b) := rfl
      simp only [List.map_cons, value, Argument.sameMembers, same, sames, beq_self_eq_true,
        Bool.and_self]
    · have written : m.piece.text = Argument.writeString k ++ ':' :: ' ' :: a.write := by
        simp [m, Member.piece]
      rw [List.map_cons, List.map_cons, text, written, Argument.writeMembers]
    · rw [List.map_cons, List.map_cons, List.map_cons, keys]
      rfl
    · rw [Argument.membersDepth, ← depth]
      rfl

end

end Arguments

theorem Call.write_derived {c : Call} (proper : c.Proper) :
    ∃ d, CallText c.depth d c.write ∧ d.same c := by
  obtain ⟨xs, each, same, text, depth⟩ := Argument.items_derived c.args proper.2
  have derived := CallText.applied xs proper.1 blank_nil each (listed_join xs)
  rw [text, depth, List.append_nil, String.ofList_toList] at derived
  exact ⟨_, derived, by simp [Call.same, same]⟩

theorem Call.pieces_derived {calls : List Call} (proper : ∀ c ∈ calls, c.Proper) :
    ∃ xs : List (Piece Call), (∀ x ∈ xs, CallText x.depth x.value x.text) ∧
      Call.sameChain (xs.map (·.value)) calls ∧ xs.map (·.text) = calls.map Call.write ∧
      deepest xs = Call.chainDepth calls := by
  induction calls with
  | nil => exact ⟨[], by simp, rfl, rfl, rfl⟩
  | cons c calls ih =>
    obtain ⟨first, others⟩ := List.forall_mem_cons.mp proper
    obtain ⟨d, derived, same⟩ := Call.write_derived first
    obtain ⟨xs, each, sames, text, depth⟩ := ih others
    refine ⟨⟨c.depth, d, c.write⟩ :: xs, List.forall_mem_cons.mpr ⟨derived, each⟩, ?_, ?_, ?_⟩
    · simp only [List.map_cons, Call.sameChain, same, sames, Bool.and_self]
    · rw [List.map_cons, List.map_cons, text]
    · rw [Call.chainDepth, List.map_cons, List.foldr_cons, ← Call.chainDepth, ← depth]
      rfl

theorem Call.writeChain_derived {calls : List Call} (some : calls ≠ [])
    (proper : ∀ c ∈ calls, c.Proper) : ∃ chain,
      ChainText (Call.chainDepth calls) chain (Call.writeChain calls) ∧
      Call.sameChain chain calls := by
  obtain ⟨xs, each, same, text, depth⟩ := Call.pieces_derived proper
  cases xs with
  | nil => exact absurd (List.map_eq_nil_iff.mp text.symm) some
  | cons x xs =>
    have separated : Separated ['-', '>'] (x :: xs) (Text.join Call.arrow ((x :: xs).map (·.text))) :=
      separated_join blank_space blank_space x xs
    rw [text] at separated
    exact ⟨_, depth ▸ .mk (x :: xs) each separated, same⟩

theorem Expression.write_derived {e : Expression} (proper : e.Proper) :
    ∃ f, ExpressionText e.depth f e.write ∧ f.same e := by
  obtain ⟨success, derived, same⟩ := Call.writeChain_derived proper.some proper.success
  unfold Expression.write Expression.depth
  by_cases none : e.reject = []
  · have alone := ExpressionText.success blank_nil derived blank_nil
    refine ⟨⟨success, []⟩, ?_, by simp [Expression.same, same, none, Call.sameChain]⟩
    simpa [none, Call.chainDepth] using alone
  · obtain ⟨reject, derived', same'⟩ := Call.writeChain_derived none proper.reject
    have both := ExpressionText.reject blank_nil derived blank_space blank_space derived' blank_nil
    refine ⟨⟨success, reject⟩, ?_, by simp [Expression.same, same, same']⟩
    simpa [none] using both

theorem Expression.text_parsed {e : Expression} (proper : e.Proper) (shallow : e.depth ≤ 128) :
    ∃ f, parse e.text = .ok f ∧ f.same e := by
  obtain ⟨f, derived, same⟩ := Expression.write_derived proper
  have text : e.text.toList = e.write := String.toList_ofList
  rw [← text] at derived
  exact ⟨f, parse_of_derived shallow derived, same⟩

theorem Expression.text_refused {e : Expression} (proper : e.Proper) (deep : 128 < e.depth) :
    ∃ error, parse e.text = .error error ∧ error.expected = ["nesting depth <= 128"] := by
  obtain ⟨f, derived, -⟩ := Expression.write_derived proper
  have text : e.text.toList = e.write := String.toList_ofList
  rw [← text] at derived
  exact parse_tooDeep derived deep

/-- Parsing undoes printing, unless the expression nests deeper than the parser goes. -/
theorem Expression.parse_text (e : Expression) (proper : e.Proper) :
    (e.depth ≤ 128 → ∃ f, parse e.text = .ok f ∧ f.same e) ∧
      (128 < e.depth →
        ∃ error, parse e.text = .error error ∧ error.expected = ["nesting depth <= 128"]) :=
  ⟨text_parsed proper, text_refused proper⟩

/-- A call that is named like a literal, a quote in a string, and a key that is no identifier. -/
theorem Expression.parse_text_quoted :
    let args : List Argument := [.call "true" [], .string "it's", .object [("a b", .null)]]
    let e : Expression := ⟨[⟨"show", args⟩], []⟩
    e.Proper ∧ ∃ f, parse e.text = .ok f ∧ f.same e := by
  intro args e
  have word : Identifier "true".toList := Scanner.identifier_of_all rfl rfl
  have name : Identifier "show".toList := Scanner.identifier_of_all rfl rfl
  have members : Argument.Proper (.object [("a b", .null)]) :=
    ⟨List.pairwise_singleton _ _, trivial, trivial⟩
  have items : Argument.ItemsProper args := ⟨⟨word, trivial⟩, trivial, members, trivial⟩
  have proper : e.Proper := by
    refine ⟨by simp [e], ?_, by simp [e]⟩
    intro c mem
    cases List.mem_singleton.mp mem
    exact ⟨name, items⟩
  exact ⟨proper, (parse_text e proper).1 (by decide)⟩

end ActionChain
