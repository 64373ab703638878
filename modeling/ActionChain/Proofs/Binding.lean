import ActionChain.Binding
import ActionChain.Proofs.Faults

/-!
Binding an argument and reading it. `Found` is what stands at the end of a path through some data;
`reading` is the value of an argument, taken part by part; `problems` is what a walk over it from the
left has against it. Main statement `bind_read`: an argument without problems is bound, and whenever
it is evaluated its value is the reading; otherwise the fault is the first problem.
-/
namespace ActionChain

section Data

/-- What stands at the end of a way through the members of objects; null, if one is missing. -/
inductive Json.Found : Json → List String → Json → Prop
  | here (v : Json) : Found v [] v
  | member {ms : List (String × Json)} {key : String} {keys : List String} {v u : Json} :
    ms.lookup key = some v → Found v keys u → Found (.object ms) (key :: keys) u
  | missing {v : Json} {key : String} {keys : List String} :
    (∀ ms, v = .object ms → ms.lookup key = none) → Found v (key :: keys) .null

/-- Descends through the members of objects. -/
def Json.held : Json → List String → Json
  | v, [] => v
  | .object ms, key :: keys => match ms.lookup key with
    | some v => v.held keys
    | none => .null
  | _, _ :: _ => .null

theorem Json.held_member {ms : List (String × Json)} {key : String} {v : Json}
    (there : ms.lookup key = some v) (keys : List String) :
    (Json.object ms).held (key :: keys) = v.held keys := by
  rw [held, there]

theorem Json.held_missing {v : Json} {key : String}
    (absent : ∀ ms, v = .object ms → ms.lookup key = none) (keys : List String) :
    v.held (key :: keys) = .null := by
  cases v with
  | object ms => rw [held, absent ms rfl]
  | _ => rfl

/-- There is one such value on every path. -/
theorem Json.found_iff {v u : Json} {keys : List String} : v.Found keys u ↔ u = v.held keys := by
  constructor
  · intro found
    induction found with
    | here v => cases v <;> rfl
    | member there _ ih => rw [ih, held_member there]
    | missing absent => rw [held_missing absent]
  · rintro rfl
    induction keys generalizing v with
    | nil => cases v <;> exact .here _
    | cons key keys ih =>
      by_cases there : ∃ ms u, v = .object ms ∧ ms.lookup key = some u
      · obtain ⟨ms, u, rfl, there⟩ := there
        rw [held_member there]
        exact .member there ih
      · have absent : ∀ ms, v = .object ms → ms.lookup key = none := by
          rintro ms rfl
          exact Option.eq_none_iff_forall_not_mem.mpr fun u found => there ⟨ms, u, rfl, found⟩
        rw [held_missing absent]
        exact .missing absent

theorem Json.held_eq (v : Json) (keys : List String) : (v.at? keys).getD .null = v.held keys := by
  induction keys generalizing v with
  | nil => cases v <;> rfl
  | cons key keys ih =>
    cases v with
    | object ms =>
      rw [at?, member?, Members.find?]
      cases there : ms.lookup key with
      | none => rw [held_missing fun _ same => Json.object.inj same ▸ there]; rfl
      | some u => rw [held_member there, Option.bind_some, ih]
    | _ => rfl

/-- The parts of a path that dots separate. -/
def dotted (path : String) : List String := (path.toList.splitOn '.').map String.ofList

theorem split_eq_splitOn (sep : Char) (cs : List Char) : Text.split sep cs = cs.splitOn sep := by
  induction cs with
  | nil => rfl
  | cons c cs ih =>
    rw [List.splitOn_cons_eq_if_modifyHead, ← ih, Text.split]
    by_cases cut : c = sep
    · simp [cut]
    · cases parts : Text.split sep cs with
      | nil => exact absurd (ih.symm.trans parts) (List.splitOn_ne_nil sep cs)
      | cons part parts => simp [cut]

theorem pathParts_eq : pathParts = dotted := by
  funext path
  rw [pathParts, split_eq_splitOn, dotted]

theorem dotted_ne_nil (path : String) : dotted path ≠ [] := by
  simp [dotted, List.splitOn_ne_nil]

/-- A double whose exponent is all ones is an infinity or no number. -/
def Binary64.Finite (x : Binary64) : Prop := x.bits.toNat / 0x10000000000000 % 0x800 ≠ 0x7ff

instance : DecidablePred Binary64.Finite := fun _ => inferInstanceAs (Decidable (_ ≠ _))

theorem Binary64.isFinite_iff (x : Binary64) : x.isFinite = true ↔ x.Finite := by
  have magnitude : x.magnitude = x.bits.toNat % 0x8000000000000000 := rfl
  rw [isFinite, decide_eq_true_eq, magnitude, infinite, Finite]
  omega

end Data

namespace Argument

/-- Induction over an argument, from what is nested in it to the whole. -/
theorem nested_induction {P : Argument → Prop} (null : P .null) (bool : ∀ b, P (.bool b))
    (number : ∀ x, P (.number x)) (string : ∀ s, P (.string s))
    (array : ∀ items, (∀ a ∈ items, P a) → P (.array items))
    (object : ∀ ms : List (String × Argument), (∀ m ∈ ms, P m.2) → P (.object ms))
    (call : ∀ name args, (∀ a ∈ args, P a) → P (.call name args)) (a : Argument) : P a :=
  Argument.rec (motive_1 := P) (motive_2 := fun items => ∀ a ∈ items, P a)
    (motive_3 := fun ms => ∀ m ∈ ms, P m.2) (motive_4 := fun m => P m.2)
    null bool number string array object call
    (by simp) (fun _ _ first rest => List.forall_mem_cons.mpr ⟨first, rest⟩)
    (by simp) (fun _ _ first rest => List.forall_mem_cons.mpr ⟨first, rest⟩) (fun _ _ inner => inner) a

mutual

/-- An argument and all that is nested in it. -/
def parts : Argument → List Argument
  | .array items => .array items :: itemParts items
  | .object ms => .object ms :: memberParts ms
  | .call name args => .call name args :: itemParts args
  | a => [a]

def itemParts : List Argument → List Argument
  | [] => []
  | a :: rest => parts a ++ itemParts rest

def memberParts : List (String × Argument) → List Argument
  | [] => []
  | (_, a) :: rest => parts a ++ memberParts rest

end

def IsKey : Argument → Prop
  | .string key => key ≠ ""
  | _ => False

/-- A path whose keys are all there: dotted, or given key by key. -/
def IsPath : Argument → Prop
  | .string path => "" ∉ dotted path
  | .array items => items ≠ [] ∧ ∀ a ∈ items, a.IsKey
  | _ => False

instance : DecidablePred IsKey
  | .string key => inferInstanceAs (Decidable (key ≠ ""))
  | .null | .bool _ | .number _ | .array _ | .object _ | .call .. =>
    inferInstanceAs (Decidable False)

instance : DecidablePred IsPath
  | .string path => inferInstanceAs (Decidable ("" ∉ dotted path))
  | .array items => inferInstanceAs (Decidable (items ≠ [] ∧ ∀ a ∈ items, a.IsKey))
  | .null | .bool _ | .number _ | .object _ | .call .. => inferInstanceAs (Decidable False)

/-- What a part has to be in itself. -/
def Apt : Argument → Prop
  | .number x => x.Finite
  | .call name args =>
    (name = "getDataValue" ∨ name = "prefill") ∧ args.length = 1 ∧
      (name = "getDataValue" → ∀ path ∈ args, path.IsPath)
  | _ => True

/-- What it takes to bind an argument. -/
def Bindable (a : Argument) : Prop := ∀ p ∈ a.parts, p.Apt

/-- The keys of a path. Those that are given one by one may themselves be dotted. -/
def pathKeys : Argument → List String
  | .string path => dotted path
  | .array items => items.flatMap fun
    | .string key => dotted key
    | _ => []
  | _ => []

mutual

/-- The value of an argument, by what is found at the end of each path. -/
def reading (found : List String → Json) : Argument → Json
  | .null => .null
  | .bool b => .bool b
  | .number x => .float x
  | .string s => .string s
  | .array items => .array (itemReadings found items)
  | .object ms => .object (memberReadings found ms)
  | .call name args =>
    match args with
    | [a] =>
      if name = "getDataValue" then found a.pathKeys
      else .object [("prefill", reading found a)]
    | _ => .null

def itemReadings (found : List String → Json) : List Argument → List Json
  | [] => []
  | a :: rest => reading found a :: itemReadings found rest

def memberReadings (found : List String → Json) : List (String × Argument) → List (String × Json)
  | [] => []
  | (k, a) :: rest => (k, reading found a) :: memberReadings found rest

end

def numbers (a : Argument) : List Binary64 := a.parts.filterMap number?

/-- A number that is not finite counts against the whole of what is turned into JSON. -/
def numberProblems (action : String) (a : Argument) : List Fault :=
  (a.numbers.filter fun x => ¬x.Finite).map fun _ => .badArguments action (.notJson a)

/-- What is wrong with the name of a call, or else with the number of its arguments. -/
def headProblems (name : String) (given : Nat) : List Fault :=
  if name ≠ "getDataValue" ∧ name ≠ "prefill" then [.unknownAction name]
  else if given ≠ 1 then [.badArguments name (.count .exactlyOne given)]
  else []

def pathProblems (path : Argument) : List Fault :=
  if path.IsPath then [] else [.badArguments "getDataValue" (.path path)]

mutual

/-- What is wrong with an argument of `action`, in the order in which a walk from the left meets
it. -/
def problems (action : String) : Argument → List Fault
  | .array items =>
    if itemsContainCall items then itemProblems action items
    else numberProblems action (.array items)
  | .object ms =>
    if membersContainCall ms then memberProblems action ms else numberProblems action (.object ms)
  | .call name args =>
    headProblems name args.length ++
      if name = "getDataValue" then args.flatMap pathProblems else itemProblems action args
  | a => numberProblems action a

def itemProblems (action : String) : List Argument → List Fault
  | [] => []
  | a :: rest => problems action a ++ itemProblems action rest

def memberProblems (action : String) : List (String × Argument) → List Fault
  | [] => []
  | (_, a) :: rest => problems action a ++ memberProblems action rest

end

section Lists

variable {items : List Argument} {ms : List (String × Argument)} {action : String}

theorem itemParts_eq : itemParts items = items.flatMap parts := by
  induction items with
  | nil => simp [itemParts]
  | cons a rest ih => simp [itemParts, ih]

theorem memberParts_eq : memberParts ms = ms.flatMap (·.2.parts) := by
  induction ms with
  | nil => simp [memberParts]
  | cons m rest ih => simp [memberParts, ih]

theorem itemProblems_eq : itemProblems action items = items.flatMap (problems action) := by
  induction items with
  | nil => simp [itemProblems]
  | cons a rest ih => simp [itemProblems, ih]

theorem memberProblems_eq : memberProblems action ms = ms.flatMap (·.2.problems action) := by
  induction ms with
  | nil => simp [memberProblems]
  | cons m rest ih => simp [memberProblems, ih]

theorem itemsContainCall_eq : itemsContainCall items = items.any containsCall := by
  induction items with
  | nil => simp [itemsContainCall]
  | cons a rest ih => simp [itemsContainCall, ih]

theorem membersContainCall_eq : membersContainCall ms = ms.any (·.2.containsCall) := by
  induction ms with
  | nil => simp [membersContainCall]
  | cons m rest ih => simp [membersContainCall, ih]

theorem forall_parts_array {P : Argument → Prop} :
    (∀ p ∈ (Argument.array items).parts, P p) ↔
      P (.array items) ∧ ∀ a ∈ items, ∀ p ∈ a.parts, P p := by
  simp only [parts, itemParts_eq, List.forall_mem_cons, List.forall_mem_flatMap]

theorem forall_parts_object {P : Argument → Prop} :
    (∀ p ∈ (Argument.object ms).parts, P p) ↔ P (.object ms) ∧ ∀ m ∈ ms, ∀ p ∈ m.2.parts, P p := by
  simp only [parts, memberParts_eq, List.forall_mem_cons, List.forall_mem_flatMap]

theorem forall_parts_call {P : Argument → Prop} {name : String} :
    (∀ p ∈ (Argument.call name items).parts, P p) ↔
      P (.call name items) ∧ ∀ a ∈ items, ∀ p ∈ a.parts, P p := by
  simp only [parts, itemParts_eq, List.forall_mem_cons, List.forall_mem_flatMap]

theorem bindable_array : Bindable (.array items) ↔ ∀ a ∈ items, Bindable a :=
  forall_parts_array.trans (true_and _).to_iff

theorem bindable_object : Bindable (.object ms) ↔ ∀ m ∈ ms, Bindable m.2 :=
  forall_parts_object.trans (true_and _).to_iff

end Lists

section Literals

variable {items : List Argument} {ms : List (String × Argument)} {found : List String → Json}

theorem itemsJson?_eq_some {vs : List Json}
    (each : ∀ a ∈ items, ∀ v,
      a.json? = some v ↔ (a.containsCall = false ∧ a.Bindable) ∧ a.reading found = v) :
    itemsJson? items = some vs ↔
      (∀ a ∈ items, a.containsCall = false ∧ a.Bindable) ∧ itemReadings found items = vs := by
  induction items generalizing vs with
  | nil => simp [itemsJson?, itemReadings]
  | cons a rest ih =>
    obtain ⟨first, others⟩ := List.forall_mem_cons.mp each
    simp only [itemsJson?, Option.bind_eq_bind, Option.bind_eq_some_iff, first, ih others, pure,
      Option.some.injEq, itemReadings, List.forall_mem_cons]
    constructor
    · rintro ⟨_, ⟨plain, rfl⟩, _, ⟨all, rfl⟩, rfl⟩
      exact ⟨⟨plain, all⟩, rfl⟩
    · rintro ⟨⟨plain, all⟩, rfl⟩
      exact ⟨_, ⟨plain, rfl⟩, _, ⟨all, rfl⟩, rfl⟩

theorem membersJson?_eq_some {vs : List (String × Json)}
    (each : ∀ m ∈ ms, ∀ v,
      m.2.json? = some v ↔ (m.2.containsCall = false ∧ m.2.Bindable) ∧ m.2.reading found = v) :
    membersJson? ms = some vs ↔
      (∀ m ∈ ms, m.2.containsCall = false ∧ m.2.Bindable) ∧ memberReadings found ms = vs := by
  induction ms generalizing vs with
  | nil => simp [membersJson?, memberReadings]
  | cons m rest ih =>
    obtain ⟨first, others⟩ := List.forall_mem_cons.mp each
    simp only [membersJson?, Option.bind_eq_bind, Option.bind_eq_some_iff, first, ih others, pure,
      Option.some.injEq, memberReadings, List.forall_mem_cons]
    constructor
    · rintro ⟨_, ⟨plain, rfl⟩, _, ⟨all, rfl⟩, rfl⟩
      exact ⟨⟨plain, all⟩, rfl⟩
    · rintro ⟨⟨plain, all⟩, rfl⟩
      exact ⟨_, ⟨plain, rfl⟩, _, ⟨all, rfl⟩, rfl⟩

/-- What is turned into JSON ahead of time has its reading as value, whatever the data. -/
theorem json?_eq_some (found : List String → Json) {a : Argument} {v : Json} :
    a.json? = some v ↔ (a.containsCall = false ∧ a.Bindable) ∧ a.reading found = v := by
  induction a using nested_induction generalizing v with
  | null | bool | string => simp [json?, reading, containsCall, Bindable, parts, Apt]
  | number x =>
    cases finite : x.isFinite <;>
      simp [json?, reading, containsCall, Bindable, parts, Apt, ← x.isFinite_iff, finite]
  | array items each =>
    simp only [json?, Option.map_eq_some_iff, itemsJson?_eq_some each, reading, containsCall,
      itemsContainCall_eq, List.any_eq_false, Bool.not_eq_true, bindable_array, ← forall₂_and]
    constructor
    · rintro ⟨_, ⟨plain, rfl⟩, rfl⟩
      exact ⟨plain, rfl⟩
    · rintro ⟨plain, rfl⟩
      exact ⟨_, ⟨plain, rfl⟩, rfl⟩
  | object ms each =>
    simp only [json?, Option.map_eq_some_iff, membersJson?_eq_some each, reading, containsCall,
      membersContainCall_eq, List.any_eq_false, Bool.not_eq_true, bindable_object, ← forall₂_and]
    constructor
    · rintro ⟨_, ⟨plain, rfl⟩, rfl⟩
      exact ⟨plain, rfl⟩
    · rintro ⟨plain, rfl⟩
      exact ⟨_, ⟨plain, rfl⟩, rfl⟩
  | call => simp [json?, containsCall]

end Literals

section Problems

variable {a : Argument} {action : String}

theorem containsCall_eq_false :
    a.containsCall = false ↔ ∀ p ∈ a.parts, ∀ name args, p ≠ .call name args := by
  induction a using nested_induction with
  | null | bool | string | number => simp [containsCall, parts]
  | array items each =>
    simp only [containsCall, itemsContainCall_eq, List.any_eq_false, Bool.not_eq_true,
      forall_parts_array, ne_eq, reduceCtorEq, not_false_eq_true, implies_true, true_and]
    exact forall₂_congr each
  | object ms each =>
    simp only [containsCall, membersContainCall_eq, List.any_eq_false, Bool.not_eq_true,
      forall_parts_object, ne_eq, reduceCtorEq, not_false_eq_true, implies_true, true_and]
    exact forall₂_congr each
  | call name args =>
    simp only [containsCall, Bool.true_eq_false, forall_parts_call, false_iff]
    rintro ⟨whole, -⟩
    exact whole name args rfl

theorem numberProblems_nil_iff (free : a.containsCall = false) :
    a.numberProblems action = [] ↔ a.Bindable := by
  simp only [numberProblems, numbers, List.map_eq_nil_iff, List.filter_eq_nil_iff,
    decide_eq_true_eq, not_not, List.mem_filterMap, Bindable]
  constructor
  · intro finite p mem
    cases p with
    | number x => exact finite x ⟨_, mem, rfl⟩
    | call name args => exact absurd rfl (containsCall_eq_false.mp free _ mem name args)
    | _ => trivial
  · rintro apt x ⟨p, mem, same⟩
    cases p <;> cases same
    exact apt _ mem

theorem IsPath.bindable (path : a.IsPath) : a.Bindable := by
  cases a with
  | string s => simp [Bindable, parts, Apt]
  | array items =>
    refine bindable_array.mpr fun item mem => ?_
    have key := path.2 item mem
    cases item with
    | string s => simp [Bindable, parts, Apt]
    | _ => cases key
  | _ => cases path

theorem prefill_ne : prefill ≠ getDataValue := by decide

theorem reading_getDataValue (found : List String → Json) (path : Argument) :
    reading found (.call getDataValue [path]) = found path.pathKeys := by
  rw [reading]
  exact if_pos rfl

theorem reading_prefill (found : List String → Json) (inner : Argument) :
    reading found (.call prefill [inner]) = .object [(prefill, reading found inner)] := by
  rw [reading]
  exact if_neg prefill_ne

theorem headProblems_eq (name : String) (given : Nat) : headProblems name given =
    if name ≠ getDataValue ∧ name ≠ prefill then [.unknownAction name]
    else if given ≠ 1 then [.badArguments name (.count .exactlyOne given)]
    else [] := rfl

theorem headProblems_nil_iff {name : String} {given : Nat} :
    headProblems name given = [] ↔ (name = getDataValue ∨ name = prefill) ∧ given = 1 := by
  rw [headProblems_eq]
  split_ifs with unknown wrong
  · simp [unknown]
  · simp [wrong]
  · exact iff_of_true rfl ⟨by tauto, not_not.mp wrong⟩

theorem pathProblems_nil_iff : a.pathProblems = [] ↔ a.IsPath := by
  simp [pathProblems]

theorem problems_nil_iff : a.problems action = [] ↔ a.Bindable := by
  induction a using nested_induction with
  | null | bool | string | number => exact numberProblems_nil_iff rfl
  | array items each =>
    rw [problems]
    split
    · rw [itemProblems_eq, List.flatMap_eq_nil_iff, bindable_array]
      exact forall₂_congr each
    · rename_i free
      exact numberProblems_nil_iff (by simpa [containsCall] using free)
  | object ms each =>
    rw [problems]
    split
    · rw [memberProblems_eq, List.flatMap_eq_nil_iff, bindable_object]
      exact forall₂_congr each
    · rename_i free
      exact numberProblems_nil_iff (by simpa [containsCall] using free)
  | call name args each =>
    rw [problems, List.append_eq_nil_iff, headProblems_nil_iff, Bindable, forall_parts_call, Apt]
    split
    · rename_i read
      simp only [List.flatMap_eq_nil_iff, pathProblems_nil_iff]
      constructor
      · rintro ⟨⟨known, one⟩, paths⟩
        exact ⟨⟨known, one, fun _ => paths⟩, fun a mem => (paths a mem).bindable⟩
      · rintro ⟨⟨known, one, paths⟩, -⟩
        exact ⟨⟨known, one⟩, paths read⟩
    · rename_i other
      rw [itemProblems_eq, List.flatMap_eq_nil_iff]
      constructor
      · rintro ⟨⟨known, one⟩, inner⟩
        exact ⟨⟨known, one, fun read => absurd read other⟩,
          fun a mem => (each a mem).mp (inner a mem)⟩
      · rintro ⟨⟨known, one, -⟩, inner⟩
        exact ⟨⟨known, one⟩, fun a mem => (each a mem).mpr (inner a mem)⟩

end Problems

section Paths

theorem pathParts_append (s t : String) : pathParts (s ++ "." ++ t) = pathParts s ++ pathParts t := by
  simp [pathParts, split_eq_splitOn, List.splitOn_append_cons_self]

theorem intercalate_pathParts (path : String) : String.intercalate "." (pathParts path) = path := by
  apply String.toList_inj.mp
  simp [pathParts, split_eq_splitOn, List.intercalate_splitOn]

/-- Keys that are joined with dots are split at all the dots again. -/
theorem pathParts_intercalate {ss : List String} (some : ss ≠ []) :
    pathParts (String.intercalate "." ss) = ss.flatMap pathParts := by
  induction ss with
  | nil => contradiction
  | cons s rest ih =>
    cases rest with
    | nil => simp
    | cons t rest => rw [String.intercalate_cons_of_ne_nil (by simp), pathParts_append, ih (by simp),
        List.flatMap_cons (x := s)]

theorem mapM_string?_eq_some {items : List Argument} {ss : List String} :
    items.mapM string? = some ss ↔ items = ss.map .string := by
  induction items generalizing ss with
  | nil => cases ss <;> simp
  | cons a rest ih =>
    rw [List.mapM_cons]
    simp only [Option.bind_eq_bind, Option.bind_eq_some_iff, ih, pure, Option.some.injEq]
    constructor
    · rintro ⟨s, first, ss, rfl, rfl⟩
      cases a <;> cases first
      rfl
    · intro same
      cases ss with
      | nil => cases same
      | cons s ss =>
        cases same
        exact ⟨s, rfl, ss, rfl, rfl⟩

theorem strings_of_keys {items : List Argument} (keys : ∀ a ∈ items, a.IsKey) :
    ∃ ss : List String, items = ss.map .string := by
  induction items with
  | nil => exact ⟨[], rfl⟩
  | cons a rest ih =>
    obtain ⟨key, others⟩ := List.forall_mem_cons.mp keys
    obtain ⟨ss, rfl⟩ := ih others
    cases a with
    | string s => exact ⟨s :: ss, rfl⟩
    | _ => cases key

end Paths

end Argument

/-- A result beside a walk: without problems there is one, as `P` wants it; otherwise the first
problem is the fault. -/
def Follows {β : Type} (x : Except Fault β) (problems : List Fault) (P : β → Prop) : Prop :=
  match x with
  | .ok b => problems = [] ∧ P b
  | .error f => problems.head? = some f

namespace Follows

variable {β γ : Type} {x : Except Fault β} {ps qs : List Fault} {P : β → Prop} {Q : γ → Prop}

theorem bind {g : β → Except Fault γ} (first : Follows x ps P)
    (rest : ∀ b, P b → Follows (g b) qs Q) : Follows (x >>= g) (ps ++ qs) Q := by
  cases x with
  | ok b =>
    obtain ⟨rfl, holds⟩ := first
    exact rest b holds
  | error f =>
    obtain ⟨others, rfl⟩ := List.head?_eq_some_iff.mp first
    rfl

theorem map {g : β → γ} (follows : Follows x ps P) (keeps : ∀ b, P b → Q (g b)) :
    Follows (g <$> x) ps Q := by
  cases x with
  | ok b => exact ⟨follows.1, keeps b follows.2⟩
  | error f => exact follows

theorem ok_iff (follows : Follows x ps P) : (∃ b, x = .ok b) ↔ ps = [] := by
  cases x with
  | ok b => exact iff_of_true ⟨b, rfl⟩ follows.1
  | error f =>
    obtain ⟨others, rfl⟩ := List.head?_eq_some_iff.mp follows
    simp

theorem error_iff {f : Fault} (follows : Follows x ps P) : x = .error f ↔ ps.head? = some f := by
  cases x with
  | ok b => simp [follows.1]
  | error g =>
    have first : ps.head? = some g := follows
    simp [first]

end Follows

namespace Bound

open Argument

variable {action : String} {data : Json}

theorem literalOf_follows {a : Argument} (free : a.containsCall = false) :
    Follows (literalOf action a) (a.numberProblems action)
      fun b => b.value data.atPath? = a.reading data.held := by
  cases json : a.json? with
  | some v =>
    obtain ⟨⟨-, bindable⟩, same⟩ := (json?_eq_some data.held).mp json
    rw [literalOf, json]
    exact ⟨(numberProblems_nil_iff free).mpr bindable, same.symm⟩
  | none =>
    rw [literalOf, json]
    cases problems : a.numberProblems action with
    | nil =>
      have bindable := (numberProblems_nil_iff free).mp problems
      have json' := (json?_eq_some data.held).mpr ⟨⟨free, bindable⟩, rfl⟩
      rw [json] at json'
      cases json'
    | cons f others =>
      have mem : f ∈ a.numberProblems action := by simp [problems]
      obtain ⟨x, -, rfl⟩ := List.mem_map.mp mem
      rfl

theorem dataPath_of_segments {path : Argument} {ss : List String} (read : segments? path = some ss)
    (valid : path.IsPath ↔ ss ≠ [] ∧ "" ∉ ss)
    (joined : ss ≠ [] → dotted (String.intercalate "." ss) = path.pathKeys) :
    Follows (dataPath path) path.pathProblems fun p => dotted p = path.pathKeys := by
  have refused : (ss.isEmpty || ss.any (·.isEmpty)) = true ↔ ¬path.IsPath := by
    rw [valid]
    simp [or_iff_not_imp_left]
  rw [dataPath, read, pathProblems]
  by_cases good : path.IsPath
  · simp only [mt refused.mp (not_not.mpr good), if_pos good]
    exact ⟨rfl, joined (valid.mp good).1⟩
  · simp only [refused.mpr good, if_neg good]
    rfl

theorem dataPath_of_none {path : Argument} (unread : segments? path = none)
    (invalid : ¬path.IsPath) :
    Follows (dataPath path) path.pathProblems fun p => dotted p = path.pathKeys := by
  rw [dataPath, unread, pathProblems, if_neg invalid]
  rfl

theorem dataPath_follows (path : Argument) :
    Follows (dataPath path) path.pathProblems fun p => dotted p = path.pathKeys := by
  cases path with
  | string s =>
    refine dataPath_of_segments rfl (by simp [IsPath, pathParts_eq, dotted_ne_nil]) fun _ => ?_
    rw [intercalate_pathParts, pathKeys]
  | array items =>
    cases read : items.mapM Argument.string? with
    | some ss =>
      obtain rfl := mapM_string?_eq_some.mp read
      refine dataPath_of_segments read ?_ fun some => ?_
      · simp only [IsPath, IsKey, ne_eq, List.map_eq_nil_iff, List.forall_mem_map,
          List.forall_mem_ne']
      · rw [← pathParts_eq, pathParts_intercalate some, pathKeys, List.flatMap_map, pathParts_eq]
    | none =>
      refine dataPath_of_none read ?_
      rintro ⟨-, keys⟩
      obtain ⟨ss, strings⟩ := strings_of_keys keys
      rw [mapM_string?_eq_some.mpr strings] at read
      cases read
  | null | bool | number | object | call => exact dataPath_of_none rfl id

theorem bindItems_follows {items : List Argument}
    (each : ∀ a ∈ items, Follows (bind action a) (a.problems action)
      fun b => b.value data.atPath? = a.reading data.held) :
    Follows (bindItems action items) (itemProblems action items)
      fun bs => valueItems data.atPath? bs = itemReadings data.held items := by
  induction items with
  | nil => exact ⟨rfl, rfl⟩
  | cons a rest ih =>
    obtain ⟨first, others⟩ := List.forall_mem_cons.mp each
    refine first.bind fun b value => (ih others).map fun bs values => ?_
    rw [valueItems, value, values, itemReadings]

theorem bindMembers_follows {ms : List (String × Argument)}
    (each : ∀ m ∈ ms, Follows (bind action m.2) (m.2.problems action)
      fun b => b.value data.atPath? = m.2.reading data.held) :
    Follows (bindMembers action ms) (memberProblems action ms)
      fun bs => valueMembers data.atPath? bs = memberReadings data.held ms := by
  induction ms with
  | nil => exact ⟨rfl, rfl⟩
  | cons m rest ih =>
    obtain ⟨first, others⟩ := List.forall_mem_cons.mp each
    refine first.bind fun b value => (ih others).map fun bs values => ?_
    rw [valueMembers, value, values, memberReadings]

theorem bind_getDataValue (path : Argument) :
    bind action (.call getDataValue [path]) = dataValue <$> dataPath path := by
  simp [bind]

theorem bind_prefill (inner : Argument) :
    bind action (.call Argument.prefill [inner]) = prefill <$> bind action inner := by
  simp [bind, prefill_ne]

theorem bind_refused {name : String} {args : List Argument} {f : Fault}
    (refused : (headProblems name args.length).head? = some f) :
    bind action (.call name args) = .error f := by
  match args with
  | [] | _ :: _ :: _ =>
    simp only [headProblems_eq] at refused
    simp only [bind]
    split_ifs at refused ⊢ <;> simp_all
  | [a] =>
    simp only [headProblems_eq] at refused
    split_ifs at refused with unknown wrong
    · cases Option.some.inj refused
      simp [bind, unknown]
    · simp at wrong
    · cases refused

theorem bind_follows (action : String) (data : Json) (a : Argument) :
    Follows (bind action a) (a.problems action) fun b => b.value data.atPath? = a.reading data.held := by
  induction a using nested_induction with
  | null | bool | string | number => exact literalOf_follows rfl
  | array items each =>
    rw [bind, problems, containsCall]
    split
    · refine (bindItems_follows each).map fun bs values => ?_
      rw [value, values, reading]
    · rename_i free
      exact literalOf_follows (by simpa [containsCall] using free)
  | object ms each =>
    rw [bind, problems, containsCall]
    split
    · refine (bindMembers_follows each).map fun bs values => ?_
      rw [value, values, reading]
    · rename_i free
      exact literalOf_follows (by simpa [containsCall] using free)
  | call name args each =>
    rw [problems]
    cases head : headProblems name args.length with
    | cons f others => exact bind_refused (List.head?_eq_some_iff.mpr ⟨others, head⟩) ▸ rfl
    | nil =>
      obtain ⟨known, one⟩ := headProblems_nil_iff.mp head
      obtain ⟨a, rfl⟩ := List.length_eq_one_iff.mp one
      rcases known with rfl | rfl
      · rw [bind_getDataValue, if_pos (show getDataValue = "getDataValue" from rfl),
          List.flatMap_singleton]
        refine (dataPath_follows a).map fun p joined => ?_
        rw [value, reading_getDataValue, Json.atPath?, pathParts_eq, joined, Json.held_eq]
      · rw [bind_prefill, if_neg (show Argument.prefill ≠ "getDataValue" from prefill_ne)]
        simp only [itemProblems, List.append_nil]
        refine (each a (List.mem_singleton.mpr rfl)).map fun b inner => ?_
        rw [value, reading_prefill, inner]

/-- What is bound has the reading of its argument by the data of the time. -/
theorem value_eq {action : String} {a : Argument} {b : Bound} (bound : bind action a = .ok b)
    (data : Json) : b.value data.atPath? = a.reading data.held := by
  have follows := bind_follows action data a
  rw [bound] at follows
  exact follows.2

/-- An argument is bound if every number in it is finite, and every call in it reads a path or wraps
one argument. The value that it then has, each time it is evaluated, is its reading by what is found
in the data of the time; so has what is turned into JSON ahead of time. Otherwise the fault is the
first problem of a walk from the left. -/
theorem bind_read (action : String) (a : Argument) :
    ((∃ b, bind action a = .ok b) ↔ a.Bindable) ∧
      (∀ b, bind action a = .ok b → ∀ data : Json, ∃ found : List String → Json,
        (∀ keys v, data.Found keys v ↔ v = found keys) ∧
          b.value data.atPath? = a.reading found) ∧
      (∀ f, bind action a = .error f ↔ (a.problems action).head? = some f) ∧
      ∀ v, a.json? = some v → ∀ found, a.reading found = v := by
  refine ⟨?_, fun b bound data => ⟨data.held, fun _ _ => Json.found_iff, value_eq bound data⟩,
    fun f => ?_, fun v json found => ((json?_eq_some found).mp json).2⟩
  · rw [(bind_follows action .null a).ok_iff, problems_nil_iff]
  · exact (bind_follows action .null a).error_iff

end Bound

end ActionChain
