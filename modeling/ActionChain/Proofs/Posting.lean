import ActionChain.Bench.RoutedForm
import ActionChain.Proofs.Members
import Mathlib.Data.List.Induction

/-!
What a form posts, after any use of it. Main statement `posted_members`: the data is what the form
started with, under the fields set since the last reset, and it is posted beside the members of the
extra data. A member of the extra data that bears the key of the form's own data is posted in its
place; no other does.
-/
namespace ActionChain

namespace Members

theorem Sorted.lookup_reverse {α : Type} {ms : Members α} (sorted : Sorted ms) (key : String) :
    ms.reverse.lookup key = find? key ms := by
  induction ms with
  | nil => rfl
  | cons m rest ih =>
    obtain ⟨k, v⟩ := m
    have tail := (List.pairwise_cons.mp sorted).2
    rw [List.reverse_cons, List.lookup_append, ih tail, find?_cons]
    by_cases same : key = k
    · have absent := find?_of_least sorted (.inr same)
      simp [same ▸ absent, same]
    · have alone : List.lookup key [(k, v)] = none := by simpa using same
      simp [alone, same]

/-- Setting members in order sets those that are set at all, and leaves the others. -/
theorem find?_ofList_append {α : Type} {ms : Members α} (sorted : Sorted ms) (key : String)
    (before : List (String × α)) :
    find? key (ofList (before ++ ms)) = (find? key ms).or (find? key (ofList before)) := by
  rw [find?_ofList, List.reverse_append, List.lookup_append, sorted.lookup_reverse, find?_ofList]

end Members

namespace Bench.RoutedForm

/-- What is done with a form. -/
inductive Use
  | setField (name : String) (value : Json)
  | setValid (valid : Bool)
  | submit (extra : Option Json)
  | clearErrors
  | abort
  | reset

namespace Use

def isReset : Use → Bool
  | .reset => true
  | _ => false

/-- The value that a use gives to a field. -/
def value? (key : String) : Use → Option Json
  | .setField name value => if key = name then some value else none
  | _ => none

end Use

/-- The value last given to a field since the last reset. -/
def lastSet (key : String) (uses : List Use) : Option Json :=
  (uses.reverse.takeWhile (!·.isReset)).findSome? (·.value? key)

section LastSet

variable (key : String) (uses : List Use)

@[simp] theorem lastSet_nil : lastSet key [] = none := rfl

@[simp] theorem lastSet_reset : lastSet key (uses ++ [.reset]) = none := by
  simp [lastSet, Use.isReset]

theorem lastSet_snoc {u : Use} (going : u.isReset = false) :
    lastSet key (uses ++ [u]) = (u.value? key).or (lastSet key uses) := by
  rw [lastSet, List.reverse_append, List.reverse_singleton, List.singleton_append,
    List.takeWhile_cons_of_pos (by simp [going]), List.findSome?_cons]
  cases u.value? key <;> rfl

end LastSet

def use (f : RoutedForm) : Use → RoutedForm
  | .setField name value => f.setField name value
  | .setValid valid => { f with valid }
  | .submit extra => (f.submit extra).1
  | .clearErrors => Form.clearErrors f
  | .abort => Form.abort f
  | .reset => Form.reset f

def run (f : RoutedForm) (uses : List Use) : RoutedForm := uses.foldl use f

@[simp] theorem run_nil (f : RoutedForm) : f.run [] = f := rfl

@[simp] theorem run_snoc (f : RoutedForm) (uses : List Use) (u : Use) :
    f.run (uses ++ [u]) = (f.run uses).use u := by
  simp [run]

/-- The members that extra data puts beside the data of the form. -/
def extraMembers : Option Json → Members Json
  | none => []
  | some (.object es) => es
  | some v => [(extraKey, v)]

section Use

variable (f : RoutedForm)

@[simp] theorem submit_form (extra : Option Json) : (f.submit extra).1 = f := by
  unfold submit
  split
  · rfl
  · split <;> rfl

/-- Where a form posts to and what it started with does not change. -/
theorem use_fixed (u : Use) : (f.use u).endpoint = f.endpoint ∧ (f.use u).routes = f.routes ∧
    (f.use u).initial = f.initial := by
  cases u with
  | setField name value =>
    simp only [use, setField]
    split <;> exact ⟨rfl, rfl, rfl⟩
  | submit extra => simp [use]
  | setValid | clearErrors | abort | reset => exact ⟨rfl, rfl, rfl⟩

theorem run_fixed (uses : List Use) : (f.run uses).endpoint = f.endpoint ∧
    (f.run uses).routes = f.routes ∧ (f.run uses).initial = f.initial := by
  induction uses using List.reverseRecOn with
  | nil => exact ⟨rfl, rfl, rfl⟩
  | append_singleton uses u ih =>
    obtain ⟨endpoint, routes, initial⟩ := use_fixed (f.run uses) u
    rw [run_snoc, endpoint, routes, initial]
    exact ih

end Use

/-- The data is that of an object with these members, under what has been set. -/
def HoldsFields (ms : Members Json) (uses : List Use) (data : Json) : Prop :=
  ∃ ds : Members Json, data = .object ds ∧ ds.Sorted ∧
    ∀ key, ds.find? key = (lastSet key uses).or (ms.find? key)

section Fields

variable {f : RoutedForm} {ms : Members Json} {uses : List Use}

theorem use_holdsFields (initial : f.initial = .object ms) (sorted : ms.Sorted)
    (holds : HoldsFields ms uses f.data) (u : Use) :
    HoldsFields ms (uses ++ [u]) (f.use u).data := by
  obtain ⟨ds, data, ordered, fields⟩ := holds
  cases u with
  | reset => exact ⟨ms, initial, sorted, by simp⟩
  | setField name value =>
    refine ⟨ds.put name value, by simp [use, setField, data], ordered.put name value, ?_⟩
    intro key
    rw [Members.find?_put, fields, lastSet_snoc key uses rfl, Use.value?]
    split <;> rfl
  | submit extra =>
    refine ⟨ds, by simpa [use] using data, ordered, ?_⟩
    intro key
    rw [fields, lastSet_snoc key uses rfl]
    rfl
  | setValid | clearErrors | abort =>
    refine ⟨ds, data, ordered, ?_⟩
    intro key
    rw [fields, lastSet_snoc key uses rfl]
    rfl

theorem run_holdsFields (initial : f.initial = .object ms) (fresh : f.data = .object ms)
    (sorted : ms.Sorted) : HoldsFields ms uses (f.run uses).data := by
  induction uses using List.reverseRecOn with
  | nil => exact ⟨ms, fresh, sorted, by simp⟩
  | append_singleton uses u ih =>
    rw [run_snoc]
    exact use_holdsFields ((run_fixed f uses).2.2.trans initial) sorted ih u

end Fields

section Body

variable (f : RoutedForm) (extra : Option Json)

theorem requestBody_eq : f.requestBody extra =
    .object (Members.ofList ([(ownKey, f.data)] ++ extraMembers extra)) := by
  rcases extra with _ | _ | _ | _ | _ | _ | _ | _ <;> rfl

/-- A form that is valid posts the text of its body, if its address can be read. -/
theorem submit_valid (valid : f.valid = true) {path : List Char}
    (address : Endpoint.read f.endpoint = .ok path) :
    f.submit extra =
      (f, .later (respond f.routes (String.ofList path) (f.requestBody extra).compact).1
        (.ok (some (respond f.routes (String.ofList path) (f.requestBody extra).compact).2))) := by
  simp [submit, valid, address]

end Body

/-- The posted members are the form's own data and those of the extra data; of two with the key of
the form's own data, the extra one. -/
theorem posted_members (f : RoutedForm) {ms : Members Json} (initial : f.initial = .object ms)
    (fresh : f.data = .object ms) (sorted : ms.Sorted) (uses : List Use) (extra : Option Json)
    (ordered : (extraMembers extra).Sorted) :
    HoldsFields ms uses (f.run uses).data ∧
      (∃ body : Members Json, (f.run uses).requestBody extra = .object body ∧ body.Sorted ∧
        body.find? ownKey = some (((extraMembers extra).find? ownKey).getD (f.run uses).data) ∧
        ∀ key, key ≠ ownKey → body.find? key = (extraMembers extra).find? key) ∧
      ((f.run uses).valid = true → ∀ path, Endpoint.read f.endpoint = .ok path →
        (f.run uses).submit extra = (f.run uses,
          let (delay, r) := respond f.routes (String.ofList path)
            ((f.run uses).requestBody extra).compact
          .later delay (.ok (some r)))) := by
  refine ⟨run_holdsFields initial fresh sorted, ⟨_, requestBody_eq _ extra,
    Members.sorted_ofList _, ?_, ?_⟩, ?_⟩
  · rw [Members.find?_ofList_append ordered]
    cases (extraMembers extra).find? ownKey <;> rfl
  · intro key other
    have alone : Members.find? key (Members.ofList [(ownKey, (f.run uses).data)]) = none := by
      simp [Members.ofList, Members.put, Members.find?_cons, other]
    rw [Members.find?_ofList_append ordered, alone, Option.or_none]
  · intro valid path address
    obtain ⟨endpoint, routes, -⟩ := run_fixed f uses
    rw [submit_valid _ extra valid (endpoint ▸ address), routes]

/-- Extra data with the key of the form's own data: the data is not posted. -/
theorem posted_members_clash : ∃ f : RoutedForm,
    HoldsFields [("name", .string "Ada")] [.setField "name" (.string "Bob"), .reset] f.data ∧
      (∃ body : Members Json, f.requestBody (some (.object [(ownKey, .null)])) = .object body ∧
        body.find? ownKey = some .null) ∧
      f.data.member? "name" = some (.string "Ada") ∧
      f.submit (some (.object [(ownKey, .null)])) =
        (f, .later 0 (.ok (some ⟨404, .null⟩))) := by
  let f : RoutedForm :=
    { endpoint := "/echo", routes := [], initial := .object [("name", .string "Ada")],
      data := .object [("name", .string "Ada")] }
  have address : Endpoint.read f.endpoint = .ok "/echo".toList := by decide
  obtain ⟨holds, ⟨body, posted, -, own, -⟩, sent⟩ :=
    posted_members f rfl rfl (by simp [Members.Sorted])
      [.setField "name" (.string "Bob"), .reset] (some (.object [(ownKey, .null)]))
      (by simp [Members.Sorted, extraMembers])
  exact ⟨_, holds, ⟨body, posted, own⟩, rfl, sent rfl _ address⟩

end Bench.RoutedForm

end ActionChain
