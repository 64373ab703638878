import ActionChain.Proofs.Binding
import ActionChain.Proofs.Printing

/-!
The written form of what has been parsed. A dotted path does not nest in the source, but it is
written as the call of an array, which are two levels. Main statement `parse_reprinted`: the written
form of a parsed expression is parsed to the same expression, unless these levels take it past the
limit.
-/
namespace ActionChain

open Grammar

section Lists

variable {items : List Argument} {ms : List (String × Argument)} {n : Nat}

theorem Argument.itemsProper_iff : Argument.ItemsProper items ↔ ∀ a ∈ items, a.Proper := by
  induction items with
  | nil => simp [Argument.ItemsProper]
  | cons a rest ih => simp [Argument.ItemsProper, ih]

theorem Argument.membersProper_iff : Argument.MembersProper ms ↔ ∀ m ∈ ms, m.2.Proper := by
  induction ms with
  | nil => simp [Argument.MembersProper]
  | cons m rest ih => simp [Argument.MembersProper, ih]

theorem Argument.itemsDepth_le_iff : Argument.itemsDepth items ≤ n ↔ ∀ a ∈ items, a.depth ≤ n := by
  induction items with
  | nil => simp [Argument.itemsDepth]
  | cons a rest ih => simp [Argument.itemsDepth, ih]

theorem Argument.membersDepth_le_iff :
    Argument.membersDepth ms ≤ n ↔ ∀ m ∈ ms, m.2.depth ≤ n := by
  induction ms with
  | nil => simp [Argument.membersDepth]
  | cons m rest ih => simp [Argument.membersDepth, ih]

theorem Call.chainDepth_le_iff {calls : List Call} :
    Call.chainDepth calls ≤ n ↔ ∀ c ∈ calls, c.depth ≤ n := by
  induction calls with
  | nil => simp [Call.chainDepth]
  | cons c rest ih =>
    rw [List.forall_mem_cons, ← ih]
    exact Nat.max_le

end Lists

section Numbers

/-- Every number in an argument is finite. -/
def Argument.Finite (a : Argument) : Prop := ∀ x ∈ a.numbers, x.isFinite

def Call.Finite (c : Call) : Prop := ∀ a ∈ c.args, a.Finite

def Expression.Finite (e : Expression) : Prop := ∀ c ∈ e.success ++ e.reject, c.Finite

theorem Argument.finite_iff {a : Argument} :
    a.Finite ↔ ∀ p ∈ a.parts, ∀ x, p.number? = some x → x.isFinite :=
  List.forall_mem_filterMap

theorem Argument.finite_array {items : List Argument} :
    (Argument.array items).Finite ↔ ∀ a ∈ items, a.Finite := by
  simp only [finite_iff, forall_parts_array]
  simp [number?]

theorem Argument.finite_object {ms : List (String × Argument)} :
    (Argument.object ms).Finite ↔ ∀ m ∈ ms, m.2.Finite := by
  simp only [finite_iff, forall_parts_object]
  simp [number?]

theorem Argument.finite_call {name : String} {args : List Argument} :
    (Argument.call name args).Finite ↔ ∀ a ∈ args, a.Finite := by
  simp only [finite_iff, forall_parts_call]
  simp [number?]

theorem Argument.finite_string (s : String) : (Argument.string s).Finite := by
  simp [finite_iff, parts, number?]

theorem Argument.finite_dataPath (segments : List String) : (dataPath segments).Finite := by
  rw [dataPath, finite_call, List.forall_mem_singleton, finite_array, List.forall_mem_map]
  exact fun s _ => finite_string s

end Numbers

section Derived

variable {d : Nat} {text : List Char}

/-- Members that are kept have been written. -/
theorem mem_of_kept {pairs : List (String × Argument)} {ms : Members Argument}
    (kept : KeepsLast pairs ms) {m : String × Argument} (mem : m ∈ ms) : m ∈ pairs := by
  rw [Argument.keepsLast_iff] at kept
  subst kept
  exact Members.mem_ofList mem

theorem Argument.proper_dataPath (segments : List String) : (dataPath segments).Proper := by
  have name : Identifier getDataValue.toList := Scanner.identifier_of_all rfl rfl
  refine ⟨name, itemsProper_iff.mpr ?_, trivial⟩
  simp [Argument.Proper]

/-- By induction on the derivation: what the grammar derives is named and ordered as it should be. -/
theorem Argument.proper_of_derived {a : Argument} (derived : ArgumentText d a text)
    (finite : a.Finite) : a.Proper := by
  induction derived with
  | object members each listed kept ih =>
    refine ⟨kept.1, membersProper_iff.mpr fun m mem => ?_⟩
    obtain ⟨member, written, rfl⟩ := List.mem_map.mp (mem_of_kept kept mem)
    exact ih member written (finite_object.mp finite _ mem)
  | array items each listed ih =>
    refine itemsProper_iff.mpr (List.forall_mem_map.mpr fun x mem => ?_)
    exact ih x mem (finite_array.mp finite _ (List.mem_map_of_mem mem))
  | string => trivial
  | number => exact finite _ (by simp [numbers, parts, number?])
  | literal literal => cases literal <;> trivial
  | call args name blank each listed ih =>
    refine ⟨by simpa using name, itemsProper_iff.mpr (List.forall_mem_map.mpr fun x mem => ?_)⟩
    exact ih x mem (finite_call.mp finite _ (List.mem_map_of_mem mem))
  | path =>
    rw [← dataPath_names]
    exact proper_dataPath _

theorem Argument.depth_dataPath (segments : List String) : (dataPath segments).depth = 2 := by
  have flat : itemsDepth (segments.map .string) = 0 := by
    refine Nat.le_zero.mp (itemsDepth_le_iff.mpr ?_)
    simp [depth]
  simp [dataPath, depth, itemsDepth, flat]

/-- A path is the only argument that nests deeper than it is written, and nothing nests in it. -/
theorem Argument.depth_le_of_derived {a : Argument} (derived : ArgumentText d a text) :
    a.depth ≤ d + 2 := by
  induction derived with
  | object members each listed kept ih =>
    rw [depth, Nat.add_right_comm]
    refine Nat.succ_le_succ (membersDepth_le_iff.mpr fun m mem => ?_)
    obtain ⟨member, written, rfl⟩ := List.mem_map.mp (mem_of_kept kept mem)
    have nested : member.value.depth ≤ deepest (members.map Member.piece) :=
      deepest_le_iff.mp (Nat.le_refl _) member.piece (List.mem_map_of_mem written)
    exact (ih member written).trans (Nat.add_le_add_right nested 2)
  | array items each listed ih | call items name blank each listed ih =>
    rw [depth, Nat.add_right_comm]
    refine Nat.succ_le_succ (itemsDepth_le_iff.mpr (List.forall_mem_map.mpr fun x mem => ?_))
    have nested : x.depth ≤ deepest items := deepest_le_iff.mp (Nat.le_refl _) x mem
    exact (ih x mem).trans (Nat.add_le_add_right nested 2)
  | string | number => exact Nat.zero_le _
  | literal literal => cases literal <;> exact Nat.zero_le _
  | path =>
    rw [← dataPath_names]
    exact Nat.le_of_eq (depth_dataPath _)

theorem Call.proper_of_derived {c : Call} (derived : CallText d c text) (finite : c.Finite) :
    c.Proper := by
  cases derived with
  | bare name => exact ⟨by simpa using name, trivial⟩
  | applied args name blank each listed =>
    refine ⟨by simpa using name, Argument.itemsProper_iff.mpr (List.forall_mem_map.mpr ?_)⟩
    intro x mem
    exact Argument.proper_of_derived (each x mem) (finite _ (List.mem_map_of_mem mem))

theorem Call.depth_le_of_derived {c : Call} (derived : CallText d c text) : c.depth ≤ d + 2 := by
  cases derived with
  | bare => exact Nat.zero_le _
  | applied args name blank each listed =>
    refine Argument.itemsDepth_le_iff.mpr (List.forall_mem_map.mpr fun x mem => ?_)
    have nested : x.depth ≤ deepest args := Argument.deepest_le_iff.mp (Nat.le_refl _) x mem
    exact (Argument.depth_le_of_derived (each x mem)).trans (Nat.add_le_add_right nested 2)

theorem Call.chain_of_derived {calls : List Call} (derived : ChainText d calls text) :
    calls ≠ [] ∧ ((∀ c ∈ calls, c.Finite) → ∀ c ∈ calls, c.Proper) ∧
      Call.chainDepth calls ≤ d + 2 := by
  obtain ⟨pieces, each, separated⟩ := derived
  refine ⟨?_, fun finite => List.forall_mem_map.mpr fun x mem => ?_, ?_⟩
  · obtain ⟨more⟩ := separated
    simp
  · exact proper_of_derived (each x mem) (finite _ (List.mem_map_of_mem mem))
  · refine Call.chainDepth_le_iff.mpr (List.forall_mem_map.mpr fun x mem => ?_)
    have nested : x.depth ≤ deepest pieces := Argument.deepest_le_iff.mp (Nat.le_refl _) x mem
    exact (depth_le_of_derived (each x mem)).trans (Nat.add_le_add_right nested 2)

theorem Expression.proper_of_derived {e : Expression} (derived : ExpressionText d e text)
    (finite : e.Finite) : e.Proper := by
  obtain ⟨success, reject⟩ := List.forall_mem_append.mp finite
  cases derived with
  | success blank chain blank' =>
    obtain ⟨some, proper, -⟩ := Call.chain_of_derived chain
    exact ⟨some, proper success, List.forall_mem_nil _⟩
  | reject blank chain blank' blank'' other =>
    obtain ⟨some, proper, -⟩ := Call.chain_of_derived chain
    obtain ⟨-, proper', -⟩ := Call.chain_of_derived other
    exact ⟨some, proper success, proper' reject⟩

theorem Expression.depth_le_of_derived {e : Expression} (derived : ExpressionText d e text) :
    e.depth ≤ d + 2 := by
  cases derived with
  | success blank chain blank' =>
    obtain ⟨-, -, shallow⟩ := Call.chain_of_derived chain
    exact Nat.max_le.mpr ⟨shallow, Nat.zero_le _⟩
  | reject blank chain blank' blank'' other =>
    obtain ⟨-, -, shallow⟩ := Call.chain_of_derived chain
    obtain ⟨-, -, shallow'⟩ := Call.chain_of_derived other
    rw [depth, ← Nat.add_max_add_right]
    exact max_le_max shallow shallow'

end Derived

/-- The written form of what has been parsed is parsed to the same, exactly if it nests at most 128
levels deep, two of them for every path; otherwise it is refused for its depth. It is not too deep
when the source nests at most 126 levels deep. -/
theorem Expression.parse_reprinted {source : String} {e : Expression} (parsed : parse source = .ok e)
    (finite : e.Finite) :
    (e.depth ≤ 128 → ∃ f, parse e.text = .ok f ∧ f.same e) ∧
      (128 < e.depth →
        ∃ error, parse e.text = .error error ∧ error.expected = ["nesting depth <= 128"]) ∧
      ∀ d ≤ 126, ExpressionText d e source.toList → e.depth ≤ 128 := by
  obtain ⟨d, -, derived⟩ := derived_of_parse parsed
  have proper := proper_of_derived derived finite
  refine ⟨text_parsed proper, text_refused proper, fun d shallow derived => ?_⟩
  exact (depth_le_of_derived derived).trans (Nat.add_le_add_right shallow 2)

section Boxes

/-- An argument in so many arrays of one item. -/
def Argument.boxed (a : Argument) : Nat → Argument
  | 0 => a
  | n + 1 => .array [a.boxed n]

theorem Argument.boxed_derived {d : Nat} {a : Argument} {text : List Char}
    (derived : ArgumentText d a text) (n : Nat) :
    ArgumentText (d + n) (a.boxed n) (List.replicate n '[' ++ text ++ List.replicate n ']') := by
  induction n with
  | zero => simpa [boxed] using derived
  | succ n ih =>
    let x : Piece Argument :=
      ⟨d + n, a.boxed n, List.replicate n '[' ++ text ++ List.replicate n ']'⟩
    have boxed := ArgumentText.array [x] (List.forall_mem_singleton.mpr ih) (listed_join [x])
    have deep : deepest [x] + 1 = d + (n + 1) := by simp [deepest, x, Nat.add_assoc]
    have written : '[' :: Text.join [',', ' '] ([x].map (·.text)) ++ [']'] =
        List.replicate (n + 1) '[' ++ text ++ List.replicate (n + 1) ']' := by
      rw [List.replicate_succ, List.replicate_succ']
      simp [Text.join, x]
    rwa [deep, written] at boxed

theorem Argument.finite_boxed {a : Argument} (finite : a.Finite) (n : Nat) :
    (a.boxed n).Finite := by
  induction n with
  | zero => exact finite
  | succ n ih => simpa [boxed, finite_array] using ih

theorem Argument.depth_boxed (a : Argument) (n : Nat) : (a.boxed n).depth = a.depth + n := by
  induction n with
  | zero => rfl
  | succ n ih => simp [boxed, depth, itemsDepth, ih, Nat.add_assoc]

/-- The call of `show` on a path in so many arrays. -/
def Expression.boxedPath (n : Nat) : Expression :=
  ⟨[⟨"show", [(Argument.dataPath ["a", "b"]).boxed n]⟩], []⟩

def Expression.boxedSource (n : Nat) : List Char :=
  ['s', 'h', 'o', 'w', '('] ++ (List.replicate n '[' ++ ['a', '.', 'b'] ++ List.replicate n ']') ++ [')']

theorem Expression.boxedPath_derived (n : Nat) : ExpressionText n (boxedPath n) (boxedSource n) := by
  have a : Identifier ['a'] := Scanner.identifier_of_all rfl rfl
  have b : Identifier ['b'] := Scanner.identifier_of_all rfl rfl
  have name : Identifier ['s', 'h', 'o', 'w'] := Scanner.identifier_of_all rfl rfl
  have names : ∀ name ∈ [['a'], ['b']], Identifier name := by simp [a, b]
  have path : ArgumentText 0 (.dataPath ["a", "b"]) _ := Argument.path_derived names (by simp)
  have boxes := Argument.boxed_derived path n
  rw [Nat.zero_add] at boxes
  have call : CallText n ⟨"show", [(Argument.dataPath ["a", "b"]).boxed n]⟩ (boxedSource n) := by
    have applied := CallText.applied [⟨_, _, _⟩] name blank_nil
      (List.forall_mem_singleton.mpr boxes) (listed_join _)
    simpa [boxedSource, deepest, Text.join] using applied
  have chain := ChainText.mk [⟨n, _, _⟩] (List.forall_mem_singleton.mpr call) (.mk .nil)
  simpa [boxedPath, boxedSource, deepest] using ExpressionText.success blank_nil chain blank_nil

theorem Expression.boxedPath_parsed {n : Nat} (shallow : n ≤ 128) :
    parse (String.ofList (boxedSource n)) = .ok (boxedPath n) :=
  parse_of_derived shallow (by simpa using boxedPath_derived n)

theorem Expression.finite_boxedPath (n : Nat) : (boxedPath n).Finite := by
  have path := Argument.finite_boxed (Argument.finite_dataPath ["a", "b"]) n
  simpa [Expression.Finite, Call.Finite, boxedPath] using path

theorem Expression.depth_boxedPath (n : Nat) : (boxedPath n).depth = 2 + n := by
  have path := Argument.depth_boxed (.dataPath ["a", "b"]) n
  rw [Argument.depth_dataPath] at path
  simp [depth, boxedPath, Call.chainDepth, Call.depth, Argument.itemsDepth, path]

/-- A path in 126 arrays, which is the deepest to be parsed again. -/
theorem Expression.parse_reprinted_boxed :
    parse (String.ofList (boxedSource 126)) = .ok (boxedPath 126) ∧ (boxedPath 126).Finite ∧
      ∃ f, parse (boxedPath 126).text = .ok f ∧ f.same (boxedPath 126) := by
  have parsed := boxedPath_parsed (show 126 ≤ 128 by decide)
  have finite := finite_boxedPath 126
  have shallow : (boxedPath 126).depth ≤ 128 := Nat.le_of_eq (depth_boxedPath 126)
  exact ⟨parsed, finite, (parse_reprinted parsed finite).1 shallow⟩

/-- A path in one array more is parsed, but its written form is not. -/
theorem Expression.reprint_refused :
    parse (String.ofList (boxedSource 127)) = .ok (boxedPath 127) ∧ (boxedPath 127).Finite ∧
      ¬ ∃ f, parse (boxedPath 127).text = .ok f := by
  have parsed := boxedPath_parsed (show 127 ≤ 128 by decide)
  have finite := finite_boxedPath 127
  have proper := proper_of_derived (boxedPath_derived 127) finite
  have deep : 128 < (boxedPath 127).depth := by rw [depth_boxedPath]; decide
  obtain ⟨error, refused, -⟩ := text_refused proper deep
  refine ⟨parsed, finite, ?_⟩
  rintro ⟨f, again⟩
  cases again.symm.trans refused

end Boxes

end ActionChain
