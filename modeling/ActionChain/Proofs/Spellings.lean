import ActionChain.Proofs.Actions
import ActionChain.Proofs.Binding

/-!
The two spellings of a data path: key by key, or in one string with dots between the keys. Main
statement `spellings_agree_iff`: the two are bound to the same path, or both refused, unless one of
the keys is dotted itself and has an empty part. Such a path is refused as a string, but accepted
key by key; no other path that is bound has an empty key.
-/
namespace ActionChain

namespace Argument

/-- The path of these keys, spelled as one string. -/
def dottedPath (keys : List String) : Argument :=
  .call getDataValue [.string (String.intercalate "." keys)]

/-- No key is empty, but one of them has an empty part between its dots. -/
def HidesGap (keys : List String) : Prop := "" ∉ keys ∧ ∃ key ∈ keys, "" ∈ pathParts key

theorem HidesGap.some {keys : List String} (hides : HidesGap keys) : keys ≠ [] := by
  obtain ⟨-, key, mem, -⟩ := hides
  exact List.ne_nil_of_mem mem

/-- The gap shows when the keys are joined. -/
theorem gap_iff {keys : List String} (some : keys ≠ []) :
    "" ∈ pathParts (String.intercalate "." keys) ↔ ∃ key ∈ keys, "" ∈ pathParts key := by
  rw [pathParts_intercalate some, List.mem_flatMap]

theorem pathParts_empty : pathParts "" = [""] := by decide

end Argument

/-- Both are bound, to the same path, or both are refused. -/
def SameFate (x y : Except Fault Bound) : Prop :=
  (∃ path, x = .ok (.dataValue path) ∧ y = .ok (.dataValue path)) ∨
    (∃ f, x = .error f) ∧ ∃ g, y = .error g

namespace Bound

open Argument

mutual

/-- The paths that a bound argument reads. -/
def paths : Bound → List String
  | .literal _ => []
  | .dataValue path => [path]
  | .prefill held => paths held
  | .array items => itemPaths items
  | .object ms => memberPaths ms

def itemPaths : List Bound → List String
  | [] => []
  | b :: rest => paths b ++ itemPaths rest

def memberPaths : List (String × Bound) → List String
  | [] => []
  | (_, b) :: rest => paths b ++ memberPaths rest

end

section Accepted

variable {keys : List String} {p : String}

theorem dataPath_ok_iff {path : Argument} :
    dataPath path = .ok p ↔ ∃ ss, segments? path = some ss ∧ ss ≠ [] ∧ "" ∉ ss ∧
      p = String.intercalate "." ss := by
  unfold dataPath
  cases read : segments? path with
  | none => simp
  | some ss =>
    have refused : (ss.isEmpty || ss.any (·.isEmpty)) = true ↔ ¬(ss ≠ [] ∧ "" ∉ ss) := by
      simp [or_iff_not_imp_left]
    by_cases good : ss ≠ [] ∧ "" ∉ ss
    · simp [mt refused.mp (not_not.mpr good), good, eq_comm]
    · simp only [refused.mpr good, if_true, Option.some.injEq, exists_eq_left']
      constructor
      · intro bound
        cases bound
      · rintro ⟨some, full, -⟩
        exact absurd ⟨some, full⟩ good

theorem dataPath_string_iff {s : String} :
    dataPath (.string s) = .ok p ↔ "" ∉ pathParts s ∧ p = s := by
  have some : pathParts s ≠ [] := by simp [pathParts, split_eq_splitOn, List.splitOn_ne_nil]
  simp [dataPath_ok_iff, segments?, some, intercalate_pathParts]

theorem dataPath_keys_iff : dataPath (.array (keys.map .string)) = .ok p ↔
    keys ≠ [] ∧ "" ∉ keys ∧ p = String.intercalate "." keys := by
  have read : segments? (.array (keys.map .string)) = some keys := mapM_string?_eq_some.mpr rfl
  simp [dataPath_ok_iff, read]

theorem refused_of_not_ok {action : String} {path : Argument} (none : ∀ p, dataPath path ≠ .ok p) :
    ∃ f, bind action (.call getDataValue [path]) = .error f := by
  rw [bind_getDataValue]
  cases read : dataPath path with
  | ok p => exact absurd read (none p)
  | error f => exact ⟨f, rfl⟩

theorem bind_ok_of_dataPath (action : String) {path : Argument} (read : dataPath path = .ok p) :
    bind action (.call getDataValue [path]) = .ok (.dataValue p) := by
  rw [bind_getDataValue, read]
  rfl

end Accepted

section Reading

variable {action p : String}

theorem literalOf_paths {a : Argument} {b : Bound} (bound : literalOf action a = .ok b) :
    b.paths = [] := by
  unfold literalOf at bound
  split at bound
  · cases bound
    rfl
  · cases bound

/-- A path that is read is named by some call of the argument. -/
def NamedIn (a : Argument) (p : String) : Prop :=
  ∃ path, .call getDataValue [path] ∈ a.parts ∧ dataPath path = .ok p

theorem bindItems_paths {items : List Argument}
    (each : ∀ a ∈ items, ∀ b, bind action a = .ok b → ∀ p ∈ b.paths, NamedIn a p) {bs : List Bound}
    (bound : bindItems action items = .ok bs) (mem : p ∈ itemPaths bs) :
    ∃ a ∈ items, NamedIn a p := by
  induction items generalizing bs with
  | nil =>
    cases bound
    cases mem
  | cons a rest ih =>
    obtain ⟨first, others⟩ := List.forall_mem_cons.mp each
    obtain ⟨b, now, bound⟩ := bind_ok_iff.mp bound
    obtain ⟨bs, later, same⟩ := bind_ok_iff.mp bound
    cases same
    rcases List.mem_append.mp mem with here | there
    · exact ⟨a, List.mem_cons_self, first b now p here⟩
    · obtain ⟨a', mem', named⟩ := ih others later there
      exact ⟨a', List.mem_cons_of_mem a mem', named⟩

theorem bindMembers_paths {ms : List (String × Argument)}
    (each : ∀ m ∈ ms, ∀ b, bind action m.2 = .ok b → ∀ p ∈ b.paths, NamedIn m.2 p)
    {bs : List (String × Bound)} (bound : bindMembers action ms = .ok bs)
    (mem : p ∈ memberPaths bs) : ∃ m ∈ ms, NamedIn m.2 p := by
  induction ms generalizing bs with
  | nil =>
    cases bound
    cases mem
  | cons m rest ih =>
    obtain ⟨first, others⟩ := List.forall_mem_cons.mp each
    obtain ⟨b, now, bound⟩ := bind_ok_iff.mp bound
    obtain ⟨bs, later, same⟩ := bind_ok_iff.mp bound
    cases same
    rcases List.mem_append.mp mem with here | there
    · exact ⟨m, List.mem_cons_self, first b now p here⟩
    · obtain ⟨m', mem', named⟩ := ih others later there
      exact ⟨m', List.mem_cons_of_mem m mem', named⟩

theorem bind_paths {a : Argument} {b : Bound} (bound : bind action a = .ok b) :
    ∀ p ∈ b.paths, NamedIn a p := by
  induction a using nested_induction generalizing b with
  | null | bool | string | number =>
    intro p mem
    rw [literalOf_paths bound] at mem
    cases mem
  | array items each =>
    intro p mem
    unfold bind at bound
    split at bound
    · obtain ⟨bs, itemsBound, rfl⟩ := map_ok_iff.mp bound
      obtain ⟨a, inside, path, called, read⟩ := bindItems_paths each itemsBound mem
      refine ⟨path, ?_, read⟩
      rw [parts, itemParts_eq]
      exact List.mem_cons_of_mem _ (List.mem_flatMap.mpr ⟨a, inside, called⟩)
    · rw [literalOf_paths bound] at mem
      cases mem
  | object ms each =>
    intro p mem
    unfold bind at bound
    split at bound
    · obtain ⟨bs, membersBound, rfl⟩ := map_ok_iff.mp bound
      obtain ⟨m, inside, path, called, read⟩ := bindMembers_paths each membersBound mem
      refine ⟨path, ?_, read⟩
      rw [parts, memberParts_eq]
      exact List.mem_cons_of_mem _ (List.mem_flatMap.mpr ⟨m, inside, called⟩)
    · rw [literalOf_paths bound] at mem
      cases mem
  | call name args each =>
    intro p mem
    cases head : headProblems name args.length with
    | cons f others =>
      rw [bind_refused (List.head?_eq_some_iff.mpr ⟨others, head⟩)] at bound
      cases bound
    | nil =>
      obtain ⟨known, one⟩ := headProblems_nil_iff.mp head
      obtain ⟨a, rfl⟩ := List.length_eq_one_iff.mp one
      rcases known with rfl | rfl
      · rw [bind_getDataValue] at bound
        obtain ⟨q, read, rfl⟩ := map_ok_iff.mp bound
        obtain rfl := List.mem_singleton.mp mem
        exact ⟨a, List.mem_cons_self, read⟩
      · rw [bind_prefill] at bound
        obtain ⟨held, heldBound, rfl⟩ := map_ok_iff.mp bound
        obtain ⟨path, called, read⟩ := each a (List.mem_singleton.mpr rfl) heldBound p mem
        refine ⟨path, ?_, read⟩
        rw [parts, itemParts_eq, List.flatMap_singleton]
        exact List.mem_cons_of_mem _ called

/-- A path with an empty key is only read where its keys are spelled one by one. -/
theorem gap_hidden {a path : Argument} (called : .call getDataValue [path] ∈ a.parts)
    (read : dataPath path = .ok p) (gap : "" ∈ pathParts p) :
    ∃ keys, HidesGap keys ∧ .dataPath keys ∈ a.parts ∧ p = String.intercalate "." keys := by
  cases path with
  | string s =>
    obtain ⟨full, rfl⟩ := dataPath_string_iff.mp read
    exact absurd gap full
  | array items =>
    obtain ⟨keys, strings, some, full, rfl⟩ := dataPath_ok_iff.mp read
    obtain rfl := mapM_string?_eq_some.mp strings
    exact ⟨keys, ⟨full, (gap_iff some).mp gap⟩, called, rfl⟩
  | null | bool | number | object | call => cases read

end Reading

/-- Both spellings of a path are bound to it, or both are refused, but for keys that hide a gap:
these are bound one by one and refused as a string. A path with an empty key is never read but where
such keys are spelled one by one. -/
theorem spellings_agree_iff (action : String) (keys : List String) :
    (SameFate (bind action (.dataPath keys)) (bind action (dottedPath keys)) ↔ ¬HidesGap keys) ∧
      (HidesGap keys → bind action (.dataPath keys) =
          .ok (.dataValue (String.intercalate "." keys)) ∧
        ∃ f, bind action (dottedPath keys) = .error f) ∧
      ∀ a b, bind action a = .ok b → ∀ p ∈ b.paths, "" ∈ pathParts p → ∃ ks, HidesGap ks ∧
        .dataPath ks ∈ a.parts ∧ p = String.intercalate "." ks := by
  have divided (hides : HidesGap keys) : bind action (.dataPath keys) =
      .ok (.dataValue (String.intercalate "." keys)) ∧
        ∃ f, bind action (dottedPath keys) = .error f := by
    constructor
    · exact bind_ok_of_dataPath action (dataPath_keys_iff.mpr ⟨hides.some, hides.1, rfl⟩)
    · apply refused_of_not_ok
      intro p read
      exact (dataPath_string_iff.mp read).1 ((gap_iff hides.some).mpr hides.2)
  refine ⟨⟨?_, ?_⟩, divided, ?_⟩
  · rintro same hides
    obtain ⟨listed, f, dotted⟩ := divided hides
    rcases same with ⟨path, -, bound⟩ | ⟨⟨g, refused⟩, -⟩
    · cases bound.symm.trans dotted
    · cases refused.symm.trans listed
  · intro noGap
    by_cases good : keys ≠ [] ∧ "" ∉ keys
    · obtain ⟨some, full⟩ := good
      have whole : "" ∉ pathParts (String.intercalate "." keys) := by
        intro gap
        exact noGap ⟨full, (gap_iff some).mp gap⟩
      refine .inl ⟨String.intercalate "." keys, ?_, ?_⟩
      · exact bind_ok_of_dataPath action (dataPath_keys_iff.mpr ⟨some, full, rfl⟩)
      · exact bind_ok_of_dataPath action (dataPath_string_iff.mpr ⟨whole, rfl⟩)
    · refine .inr ⟨?_, ?_⟩
      · apply refused_of_not_ok
        intro p read
        obtain ⟨some, full, -⟩ := dataPath_keys_iff.mp read
        exact good ⟨some, full⟩
      · apply refused_of_not_ok
        intro p read
        -- without keys the string is empty, and so is its one key
        apply (dataPath_string_iff.mp read).1
        by_cases none : keys = []
        · subst none
          simp [pathParts_empty]
        · have empty : "" ∈ keys := by
            by_contra full
            exact good ⟨none, full⟩
          exact (gap_iff none).mpr ⟨"", empty, by simp [pathParts_empty]⟩
  · intro a b bound p mem gap
    obtain ⟨path, called, read⟩ := bind_paths bound p mem
    exact gap_hidden called read gap

/-- Two dots in a row within a key are not noticed. -/
theorem spellings_agree_gap : HidesGap ["a..b"] ∧
    bind "emit" (.dataPath ["a..b"]) = .ok (.dataValue "a..b") ∧
    (∃ f, bind "emit" (.call getDataValue [.string "a..b"]) = .error f) ∧
    ¬SameFate (bind "emit" (.dataPath ["a..b"])) (bind "emit" (dottedPath ["a..b"])) ∧
    ∃ ks, HidesGap ks ∧ .dataPath ks ∈ (Argument.dataPath ["a..b"]).parts ∧
      "a..b" = String.intercalate "." ks := by
  have hides : HidesGap ["a..b"] := by
    refine ⟨by decide, "a..b", List.mem_singleton_self _, ?_⟩
    decide
  obtain ⟨agree, divided, reads⟩ := spellings_agree_iff "emit" ["a..b"]
  obtain ⟨listed, dotted⟩ := divided hides
  have gap : "" ∈ pathParts "a..b" := by decide
  have hidden := reads _ _ listed "a..b" (List.mem_singleton_self _) gap
  exact ⟨hides, listed, dotted, fun same => agree.mp same hides, hidden⟩

end Bound

end ActionChain
