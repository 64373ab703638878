import ActionChain.Proofs.Members
import ActionChain.Settings.Load

/-!
The order of what is read. Whichever format a text is in, every object that is read from it has its
members in ascending order of their keys, each key once: `Format.read?_ordered`.
-/
namespace ActionChain

-- Powers are those of core, whatever others are in scope; so literal exponents show their type.
attribute [local instance (high)] instPowNat

/-- Every object in the value has its members in ascending order. -/
inductive Json.Ordered : Json → Prop
  | null : Ordered .null
  | bool (b : Bool) : Ordered (.bool b)
  | int (n : Int) : Ordered (.int n)
  | float (x : Binary64) : Ordered (.float x)
  | string (s : String) : Ordered (.string s)
  | array {items : List Json} : (∀ v ∈ items, Ordered v) → Ordered (.array items)
  | object {ms : Members Json} : ms.Sorted → (∀ m ∈ ms, Ordered m.2) → Ordered (.object ms)

section Readers

variable {α β : Type}

/-- Whatever comes out is so. -/
def Only (o : Option α) (P : α → Prop) : Prop := ∀ a, o = some a → P a

/-- Whatever the reader reads is so. -/
def Gives (read : List Char → Option (α × List Char)) (P : α → Prop) : Prop :=
  ∀ cs, Only (read cs) fun found => P found.1

variable {P : α → Prop} {Q : β → Prop}

theorem Only.none : Only (none : Option α) P := nofun

theorem Only.some {a : α} (so : P a) : Only (some a) P := fun _ same => Option.some.inj same ▸ so

theorem Only.bind {o : Option α} {next : α → Option β} (first : Only o P)
    (later : ∀ a, P a → Only (next a) Q) : Only (o >>= next) Q := by
  intro b found
  obtain ⟨a, here, there⟩ := Option.bind_eq_some_iff.mp found
  exact later a (first a here) b there

theorem Only.any (o : Option α) : Only o fun _ => True := fun _ _ => trivial

theorem Only.ite {c : Prop} [Decidable c] {o o' : Option α} (yes : Only o P) (no : Only o' P) :
    Only (if c then o else o') P := by
  split
  · exact yes
  · exact no

theorem Only.map {o : Option α} {f : α → β} (first : Only o P) (turns : ∀ a, P a → Q (f a)) :
    Only (o.map f) Q := by
  intro b found
  obtain ⟨a, here, rfl⟩ := Option.map_eq_some_iff.mp found
  exact turns a (first a here)

end Readers

namespace Json

/-- A test that refuses leaves what follows it to the other case. -/
theorem only_guarded {α : Type} {P : α → Prop} {c : Prop} [Decidable c] {next : Unit → Option α}
    (passed : Only (next ()) P) : Only (if c then none >>= next else next ()) P :=
  .ite .none passed

theorem number_ordered (negative : Bool) : Gives (number negative) Ordered := by
  intro cs
  unfold number
  dsimp only
  refine only_guarded (only_guarded (only_guarded (.ite ?_ (.ite ?_ (.bind (.any _) fun x _ => ?_)))))
  · exact .some (.int _)
  · exact .some (.int _)
  · exact .some (.float _)

section Nested

variable {value : List Char → Option (Json × List Char)}

theorem itemsFrom_ordered (each : Gives value Ordered) (fuel : Nat) :
    Gives (itemsFrom value fuel) fun items => ∀ v ∈ items, v.Ordered := by
  intro cs
  induction fuel generalizing cs with
  | zero => exact .none
  | succ fuel ih =>
    rw [itemsFrom]
    split
    · exact .some (List.forall_mem_nil _)
    · refine (each _).bind fun (v, rest) first => (ih rest).bind fun (more, _) others => ?_
      exact .some (List.forall_mem_cons.mpr ⟨first, others⟩)
    · exact .none

theorem items_ordered (each : Gives value Ordered) :
    Gives (items value) fun items => ∀ v ∈ items, v.Ordered := by
  intro cs
  unfold items
  split
  · exact .some (List.forall_mem_nil _)
  · refine (each _).bind fun (v, rest) first => ?_
    refine (itemsFrom_ordered each _ rest).bind fun (more, _) others => ?_
    exact .some (List.forall_mem_cons.mpr ⟨first, others⟩)

theorem oneMember_ordered (each : Gives value Ordered) :
    Gives (oneMember value) fun m => m.2.Ordered := by
  intro cs
  unfold oneMember
  split
  · refine (Only.any _).bind fun (key, rest) _ => ?_
    dsimp only
    split
    · exact (each _).bind fun (v, _) first => .some first
    · exact .none
  · exact .none

theorem membersFrom_ordered (each : Gives value Ordered) (fuel : Nat) :
    Gives (membersFrom value fuel) fun ms => ∀ m ∈ ms, m.2.Ordered := by
  intro cs
  induction fuel generalizing cs with
  | zero => exact .none
  | succ fuel ih =>
    rw [membersFrom]
    split
    · exact .some (List.forall_mem_nil _)
    · refine (oneMember_ordered each _).bind fun (m, rest) first => ?_
      refine (ih rest).bind fun (more, _) others => ?_
      exact .some (List.forall_mem_cons.mpr ⟨first, others⟩)
    · exact .none

theorem members_ordered (each : Gives value Ordered) :
    Gives (members value) fun ms => ∀ m ∈ ms, m.2.Ordered := by
  intro cs
  unfold members
  split
  · exact .some (List.forall_mem_nil _)
  · refine (oneMember_ordered each _).bind fun (m, rest) first => ?_
    refine (membersFrom_ordered each _ rest).bind fun (more, _) others => ?_
    exact .some (List.forall_mem_cons.mpr ⟨first, others⟩)

end Nested

theorem value_ordered (depth : Nat) : Gives (value depth) Ordered := by
  intro cs
  induction depth generalizing cs with
  | zero =>
    unfold value
    split
    · exact (Only.any _).map fun _ _ => .null
    · exact (Only.any _).map fun _ _ => .bool true
    · exact (Only.any _).map fun _ _ => .bool false
    · exact (Only.any _).map fun (s, _) _ => .string s
    · exact number_ordered true _
    · exact .none
    · exact .none
    · exact number_ordered false _
  | succ depth ih =>
    unfold value
    split
    · exact (Only.any _).map fun _ _ => .null
    · exact (Only.any _).map fun _ _ => .bool true
    · exact (Only.any _).map fun _ _ => .bool false
    · exact (Only.any _).map fun (s, _) _ => .string s
    · exact number_ordered true _
    · exact (items_ordered ih _).map fun (vs, _) all => .array all
    · exact (members_ordered ih _).map fun (ms, _) all =>
        .object (Members.sorted_ofList ms) fun m mem => all m (Members.mem_ofList mem)
    · exact number_ordered false _

theorem read?_ordered (text : String) : Only (read? text) Ordered := by
  unfold read?
  have gives := value_ordered (depthLimit - 1) (skipSpace text.toList)
  split
  · rename_i v rest found
    exact .ite (.some (gives _ found)) .none
  · exact .none

end Json

namespace Toml

/-- A table, and every table in it, has its members in ascending order. -/
inductive Item.Ordered : Item → Prop
  | value {v : Json} : v.Ordered → Ordered (.value v)
  | table {origin : Origin} {ms : Members Item} :
      ms.Sorted → (∀ m ∈ ms, Ordered m.2) → Ordered (.table origin ms)
  | tables {all : List (Members Item)} :
      (∀ ms ∈ all, ms.Sorted) → (∀ ms ∈ all, ∀ m ∈ ms, Ordered m.2) → Ordered (.tables all)

structure Tidy (ms : Members Item) : Prop where
  sorted : ms.Sorted
  each : ∀ m ∈ ms, m.2.Ordered

namespace Tidy

variable {ms : Members Item} {key : String} {i : Item}

theorem nil : Tidy [] := ⟨.nil, List.forall_mem_nil _⟩

theorem put (tidy : Tidy ms) (so : i.Ordered) : Tidy (ms.put key i) := by
  refine ⟨tidy.sorted.put key i, fun m mem => ?_⟩
  rcases Members.mem_put mem with rfl | old
  · exact so
  · exact tidy.each m old

theorem found (tidy : Tidy ms) (found : ms.find? key = some i) : i.Ordered :=
  tidy.each _ (Members.mem_of_find? found)

end Tidy

theorem Item.ordered_table {origin : Origin} {ms : Members Item} :
    (Item.table origin ms).Ordered ↔ Tidy ms :=
  ⟨fun | .table sorted each => ⟨sorted, each⟩, fun tidy => .table tidy.sorted tidy.each⟩

theorem Item.ordered_tables {all : List (Members Item)} :
    (Item.tables all).Ordered ↔ ∀ ms ∈ all, Tidy ms :=
  ⟨fun | .tables sorted each => fun ms mem => ⟨sorted ms mem, each ms mem⟩,
    fun tidy => .tables (fun ms mem => (tidy ms mem).sorted) fun ms mem => (tidy ms mem).each⟩

namespace Item

theorem membersToJson_eq_map (ms : Members Item) :
    membersToJson ms = ms.map fun m => (m.1, toJson m.2) := by
  induction ms with
  | nil => rw [membersToJson, List.map_nil]
  | cons m rest ih => rw [membersToJson, ih, List.map_cons]

theorem allToJson_eq_map (all : List (Members Item)) :
    allToJson all = all.map fun ms => .object (membersToJson ms) := by
  induction all with
  | nil => rw [allToJson, List.map_nil]
  | cons ms rest ih => rw [allToJson, ih, List.map_cons]

theorem object_ordered {ms : Members Item} (sorted : ms.Sorted)
    (each : ∀ m ∈ ms, (toJson m.2).Ordered) : (Json.object (membersToJson ms)).Ordered := by
  rw [membersToJson_eq_map]
  refine .object (List.pairwise_map.mpr sorted) fun m mem => ?_
  obtain ⟨n, there, rfl⟩ := List.mem_map.mp mem
  exact each n there

theorem Ordered.toJson {i : Item} (so : i.Ordered) : i.toJson.Ordered := by
  induction so with
  | value so => rwa [Item.toJson]
  | table sorted _ each =>
    rw [Item.toJson]
    exact object_ordered sorted each
  | tables sorted _ each =>
    rw [Item.toJson, allToJson_eq_map]
    refine .array fun v mem => ?_
    obtain ⟨ms, there, rfl⟩ := List.mem_map.mp mem
    exact object_ordered (sorted ms there) (each ms there)

end Item

theorem Tidy.toJson {ms : Members Item} (tidy : Tidy ms) :
    (Json.object (Item.membersToJson ms)).Ordered :=
  Item.object_ordered tidy.sorted fun m mem => (tidy.each m mem).toJson

section Changes

variable {change : Change}

/-- What the change makes of a tidy table is tidy. -/
def Change.Tidies (change : Change) : Prop :=
  ∀ origin ms, Tidy ms → Only (change origin ms) Tidy

theorem below_tidy (dotted : Bool) (key : String) (tidies : change.Tidies) {ms : Members Item}
    (tidy : Tidy ms) : Only (below dotted key change ms) Tidy := by
  unfold below
  split
  · exact (tidies _ _ .nil).bind fun inner so => .some (tidy.put (Item.ordered_table.mpr so))
  · rename_i origin inner found
    have before := Item.ordered_table.mp (tidy.found found)
    refine .ite .none ((tidies _ _ before).bind fun after so => .some ?_)
    exact tidy.put (Item.ordered_table.mpr so)
  · rename_i all found
    have before := Item.ordered_tables.mp (tidy.found found)
    refine Only.bind (P := Tidy) ?_ fun last so => ?_
    · exact fun last found => before last (List.mem_of_getLast? found)
    · refine (tidies _ _ so).bind fun after so => .some (tidy.put (Item.ordered_tables.mpr ?_))
      intro ms mem
      rcases List.mem_append.mp mem with old | new
      · exact before ms (List.dropLast_subset all old)
      · exact List.mem_singleton.mp new ▸ so
  · exact .none

theorem atPath_tidies (dotted : Bool) (path : List String) (tidies : change.Tidies) :
    (atPath dotted path change).Tidies := by
  induction path with
  | nil => exact tidies
  | cons key path ih => exact fun _ _ tidy => below_tidy dotted key ih tidy

theorem assign_tidy (path : List String) (key : String) {v : Json} (so : v.Ordered)
    {ms : Members Item} (tidy : Tidy ms) : Only (assign path key v ms) Tidy := by
  refine atPath_tidies true path (fun origin ms tidy => ?_) .written ms tidy
  exact .ite .none (.ite .none (.some (tidy.put (.value so))))

theorem openTable_tidy (path : List String) (key : String) {root : Members Item} (tidy : Tidy root) :
    Only (openTable path key root) Tidy := by
  refine atPath_tidies false path (fun origin ms tidy => ?_) .written root tidy
  split
  · exact .some (tidy.put (Item.ordered_table.mpr .nil))
  · rename_i inner found
    exact .some (tidy.put (Item.ordered_table.mpr (Item.ordered_table.mp (tidy.found found))))
  · exact .none

theorem openFurther_tidy (path : List String) (key : String) {root : Members Item}
    (tidy : Tidy root) : Only (openFurther path key root) Tidy := by
  refine atPath_tidies false path (fun origin ms tidy => ?_) .written root tidy
  split
  · exact .some (tidy.put (Item.ordered_tables.mpr (by simp [Tidy.nil])))
  · rename_i all found
    have before := Item.ordered_tables.mp (tidy.found found)
    refine .some (tidy.put (Item.ordered_tables.mpr fun ms mem => ?_))
    rcases List.mem_append.mp mem with old | new
    · exact before ms old
    · exact List.mem_singleton.mp new ▸ .nil
  · exact .none

end Changes

section Readers

variable {α β : Type} {P : α → Prop} {Q : β → Prop}

theorem gives_any (r : Reader α) : Gives r fun _ => True := fun _ => .any _

theorem gives_pure {a : α} (so : P a) : Gives (pure a : Reader α) P := fun _ => .some so

theorem gives_failure : Gives (failure : Reader α) P := fun _ => .none

theorem gives_bind {r : Reader α} {next : α → Reader β} (first : Gives r P)
    (later : ∀ a, P a → Gives (next a) Q) : Gives (r >>= next) Q :=
  fun cs => (first cs).bind fun (a, rest) so => later a so rest

theorem gives_then {r : Reader α} {next : α → Reader β} (later : ∀ a, Gives (next a) Q) :
    Gives (r >>= next) Q :=
  gives_bind (gives_any r) fun a _ => later a

theorem gives_orElse {r s : Reader α} (first : Gives r P) (second : Gives s P) :
    Gives (r <|> s) P := by
  intro cs a found
  rcases here : r cs with _ | b
  · exact second cs a (by simpa [HOrElse.hOrElse, OrElse.orElse, Alternative.orElse,
      StateT.orElse, here] using found)
  · have same : b = a := by
      simpa [HOrElse.hOrElse, OrElse.orElse, Alternative.orElse, StateT.orElse, here] using found
    exact same ▸ first cs b here

theorem gives_ite {c : Prop} [Decidable c] {r s : Reader α} (yes : Gives r P) (no : Gives s P) :
    Gives (if c then r else s) P := by
  split
  · exact yes
  · exact no

theorem gives_lift {o : Option α} (first : Only o P) : Gives (liftM o : Reader α) P :=
  fun _ => first.bind fun _ so => .some so

theorem gives_upTo {r : Reader α} (each : Gives r P) (n : Nat) :
    Gives (Reader.upTo r n) fun all => ∀ a ∈ all, P a := by
  induction n with
  | zero => exact gives_pure (List.forall_mem_nil _)
  | succ n ih =>
    intro cs
    unfold Reader.upTo
    split
    · rename_i a rest found
      exact (ih rest).map fun (more, _) others =>
        List.forall_mem_cons.mpr ⟨each cs _ found, others⟩
    · exact .some (List.forall_mem_nil _)

theorem gives_many {r : Reader α} (each : Gives r P) :
    Gives (Reader.many r) fun all => ∀ a ∈ all, P a :=
  fun cs => gives_upTo each cs.length cs

theorem gives_separated {r : Reader α} (each : Gives r P) :
    Gives (Reader.separated r) fun all => ∀ a ∈ all, P a := by
  refine gives_orElse (gives_bind each fun a first => ?_) (gives_pure (List.forall_mem_nil _))
  have further : Gives ((do Reader.exact ","; r) : Reader α) P := gives_then fun _ => each
  exact gives_bind (gives_many further) fun _ others =>
    gives_pure (List.forall_mem_cons.mpr ⟨first, others⟩)

end Readers

theorem inRange_ordered (n : Int) : Gives (inRange n) Json.Ordered := by
  unfold inRange
  exact gives_ite (gives_pure (.int n)) gives_failure

theorem based_ordered (mark : String) (base : Nat) : Gives (based mark base) Json.Ordered :=
  gives_then fun _ => gives_then fun _ => inRange_ordered _

theorem integer_ordered : Gives integer Json.Ordered :=
  gives_orElse (based_ordered _ _) <| gives_orElse (based_ordered _ _) <|
    gives_orElse (based_ordered _ _) <| gives_then fun _ => gives_then fun _ => inRange_ordered _

theorem ofDouble_ordered (x : Binary64) : (ofDouble x).Ordered := by
  unfold ofDouble
  split
  · exact .float x
  · exact .null

theorem float_ordered : Gives float Json.Ordered := by
  unfold float
  refine gives_then fun _ => gives_then fun _ => gives_then fun _ => gives_then fun _ => ?_
  exact gives_ite (gives_then fun _ => gives_ite (gives_pure (ofDouble_ordered _)) gives_failure)
    (gives_ite (gives_pure (ofDouble_ordered _)) gives_failure)

theorem specialFloat_ordered : Gives specialFloat Json.Ordered :=
  gives_then fun _ => gives_then fun _ => gives_pure .null

theorem time_ordered (text : String) : (Json.object [(timeKey, .string text)]).Ordered :=
  .object (List.pairwise_singleton _ _) (by simp [Json.Ordered.string])

theorem scalar_ordered : Gives scalar Json.Ordered := by
  refine gives_then fun next => ?_
  split
  · exact gives_then fun _ => gives_pure (.string _)
  · exact gives_then fun _ => gives_pure (.string _)
  · exact gives_then fun _ => gives_pure (.bool true)
  · exact gives_then fun _ => gives_pure (.bool false)
  · exact gives_orElse (gives_then fun _ => gives_pure (time_ordered _)) <|
      gives_orElse float_ordered <| gives_orElse specialFloat_ordered integer_ordered

section Values

variable {value : Reader Json}

theorem assignment_ordered (each : Gives value Json.Ordered) :
    Gives (assignment value) fun a => a.value.Ordered :=
  gives_then fun _ => gives_then fun _ => gives_then fun _ => gives_then fun _ =>
    gives_bind each fun _ so => gives_pure so

theorem array_ordered (each : Gives value Json.Ordered) : Gives (array value) Json.Ordered := by
  refine gives_then fun _ => gives_bind (gives_separated (P := Json.Ordered) ?_) fun items all => ?_
  · exact gives_then fun _ => gives_bind each fun _ so => gives_then fun _ => gives_pure so
  · have closing : Gives ((do gap; Reader.exact "]"; return .array items) : Reader Json)
        Json.Ordered :=
      gives_then fun _ => gives_then fun _ => gives_pure (.array all)
    exact gives_ite (gives_then fun _ => closing) closing

theorem assignAll_tidy {all : List Assignment} (so : ∀ a ∈ all, a.value.Ordered)
    {ms : Members Item} (tidy : Tidy ms) :
    Gives (all.foldlM (fun ms a => liftM (assign a.path a.key a.value ms)) ms : Reader _) Tidy := by
  induction all generalizing ms with
  | nil => exact gives_pure tidy
  | cons a rest ih =>
    obtain ⟨first, others⟩ := List.forall_mem_cons.mp so
    rw [List.foldlM_cons]
    exact gives_bind (gives_lift (assign_tidy a.path a.key first tidy)) fun _ tidy => ih others tidy

theorem inlineTable_ordered (each : Gives value Json.Ordered) :
    Gives (inlineTable value) Json.Ordered := by
  refine gives_then fun _ => gives_bind (gives_separated (P := fun a => a.value.Ordered) ?_)
    fun all so => ?_
  · exact gives_bind (assignment_ordered each) fun _ so => gives_then fun _ => gives_pure so
  · exact gives_then fun _ => gives_then fun _ =>
      gives_bind (assignAll_tidy so .nil) fun _ tidy => gives_pure tidy.toJson

end Values

theorem value_ordered (depth : Nat) : Gives (value depth) Json.Ordered := by
  induction depth with
  | zero => exact scalar_ordered
  | succ depth ih =>
    unfold value
    refine gives_then fun next => ?_
    split
    · exact array_ordered ih
    · exact inlineTable_ordered ih
    · exact scalar_ordered

section Lines

variable {d : Draft}

theorem header_tidy (tidy : Tidy d.root) : Gives (header d) fun d => Tidy d.root := by
  intro cs
  have opened {r : Option (Members Item)} (parts : List String) (tidies : Only r Tidy) :
      Gives ((do return ⟨← r, parts⟩) : Reader Draft) fun d => Tidy d.root :=
    gives_bind (gives_lift tidies) fun _ tidy => gives_pure tidy
  refine gives_then (Q := fun d : Draft => Tidy d.root) (fun _ => ?_) cs
  refine gives_then fun parts => gives_then fun _ => gives_then fun _ =>
    gives_then fun (path, last) => ?_
  exact gives_ite (opened parts (openFurther_tidy path last tidy))
    (opened parts (openTable_tidy path last tidy))

theorem assignmentLine_tidy (tidy : Tidy d.root) :
    Gives (assignmentLine d) fun d => Tidy d.root := by
  refine gives_bind (assignment_ordered (value_ordered _)) fun a so => gives_then fun _ => ?_
  refine gives_bind (gives_lift ?_) fun _ tidy => gives_pure tidy
  exact atPath_tidies false d.header (fun _ _ tidy => assign_tidy a.path a.key so tidy) _ _ tidy

theorem line_tidy (tidy : Tidy d.root) : Gives (line d) fun d => Tidy d.root := by
  refine gives_then fun next => ?_
  split
  · exact gives_then fun _ => gives_pure tidy
  · exact header_tidy tidy
  · exact gives_then fun _ => gives_pure tidy
  · exact gives_then fun _ => gives_pure tidy
  · exact assignmentLine_tidy tidy

theorem lines_tidy (fuel : Nat) (tidy : Tidy d.root) :
    Gives (lines fuel d) fun d => Tidy d.root := by
  induction fuel generalizing d with
  | zero => exact gives_then fun _ => gives_pure tidy
  | succ fuel ih =>
    refine gives_then fun _ => gives_then fun next => ?_
    split
    · exact gives_pure tidy
    · exact gives_bind (line_tidy tidy) fun _ tidy => ih tidy

end Lines

theorem read?_ordered (text : String) : Only (read? text) Json.Ordered := by
  unfold read?
  exact (lines_tidy _ .nil _).map fun (d, _) tidy => tidy.toJson

end Toml

theorem Format.read?_ordered (format : Format) (text : String) :
    Only (format.read? text) Json.Ordered := by
  cases format
  · exact Json.read?_ordered text
  · exact Toml.read?_ordered text

end ActionChain
