import ActionChain.Proofs.Layering

/-!
Values laid over values, path by path. A path is a list of keys, and the layer reaches it, blocks it
by a value that is no object, or leaves it open. Main statement `overlay_merges`: what the layer
holds counts, what it leaves open stays, nothing else is there, and a layer counts once.
-/
namespace ActionChain.Json

/-- A value that is no object stands before the end of the path. -/
def Blocks (layer : Json) (path : List String) : Prop :=
  ∃ before key after v, path = before ++ key :: after ∧ layer.at? before = some v ∧ v.members? = none

section Paths

variable {v : Json} {ms : Members Json} {key : String} {path : List String}

theorem at?_object (key : String) (path : List String) :
    (Json.object ms).at? (key :: path) = (ms.find? key).bind (·.at? path) := rfl

theorem at?_of_value (whole : v.members? = none) (key : String) (path : List String) :
    v.at? (key :: path) = none := by
  cases v with
  | object => cases whole
  | _ => rfl

theorem blocks_of_value (whole : v.members? = none) (key : String) (path : List String) :
    v.Blocks (key :: path) :=
  ⟨[], key, path, v, rfl, rfl, whole⟩

theorem not_blocks_nil : ¬v.Blocks [] := by
  rintro ⟨before, key, after, -, parts, -⟩
  simp at parts

theorem blocks_object : (Json.object ms).Blocks (key :: path) ↔
    ∃ w, ms.find? key = some w ∧ w.Blocks path := by
  constructor
  · rintro ⟨before, key', after, v, parts, held, whole⟩
    cases before with
    | nil =>
      cases held
      cases whole
    | cons k before =>
      obtain ⟨rfl, rfl⟩ := List.cons.inj parts
      obtain ⟨w, found, there⟩ := Option.bind_eq_some_iff.mp held
      exact ⟨w, found, before, key', after, v, rfl, there, whole⟩
  · rintro ⟨w, found, before, key', after, v, rfl, there, whole⟩
    exact ⟨key :: before, key', after, v, rfl, Option.bind_eq_some_iff.mpr ⟨w, found, there⟩, whole⟩

end Paths

section Laid

variable {below : Option Json} {layer v : Json} {ls : Members Json} {path : List String}

theorem overlay_of_value (whole : layer.members? = none) (target : Json) :
    overlay target layer = layer := by
  rw [overlay]
  rintro ms ls - rfl
  cases whole

theorem laid_of_value (whole : layer.members? = none) (below : Option Json) :
    laid below layer = layer := by
  cases below with
  | none => rfl
  | some target => exact overlay_of_value whole target

/-- What is no object after the layer was laid was none in the layer. -/
theorem value_of_laid (whole : (laid below layer).members? = none) : layer.members? = none := by
  cases layer with
  | object ls =>
    rcases below with _ | _ | _ | _ | _ | _ | _ | ms
    case some.object =>
      rw [laid, overlay] at whole
      cases whole
    all_goals cases whole
  | _ => rfl

/-- The members of what is below, if that is an object. -/
def membersBelow (below : Option Json) : Members Json := (below.bind members?).getD []

theorem find?_membersBelow (below : Option Json) (key : String) :
    (membersBelow below).find? key = below.bind (·.member? key) := by
  rcases below with _ | _ | _ | _ | _ | _ | _ | _ <;> rfl

theorem membersBelow_ordered (beneath : ∀ t ∈ below, t.Ordered) :
    (Json.object (membersBelow below)).Ordered := by
  rcases below with _ | _ | _ | _ | _ | _ | _ | ms
  case some.object => exact beneath _ rfl
  all_goals exact .object .nil (List.forall_mem_nil _)

theorem laid_object (sorted : ls.Sorted) (below : Option Json) :
    laid below (.object ls) = .object (overlayMembers (membersBelow below) ls) := by
  rcases below with _ | _ | _ | _ | _ | _ | _ | ms
  case some.object =>
    rw [laid, overlay]
    rfl
  all_goals exact congrArg Json.object (overlayMembers_nothing sorted).symm

theorem at?_laid_object (sorted : ls.Sorted) (below : Option Json) (key : String)
    (path : List String) : (laid below (.object ls)).at? (key :: path) =
      (((ls.find? key).map (laid (below.bind (·.member? key)))).or
        (below.bind (·.member? key))).bind (·.at? path) := by
  rw [laid_object sorted, at?_object, find?_overlayMembers sorted, find?_membersBelow]

theorem bind_at?_cons (below : Option Json) (key : String) (path : List String) :
    below.bind (·.at? (key :: path)) = (below.bind (·.member? key)).bind (·.at? path) := by
  cases below <;> rfl

/-- A path that the layer reaches leads to what the layer holds there, laid over what is below it
there. -/
theorem at?_laid_reached (ordered : layer.Ordered) (held : layer.at? path = some v) :
    (laid below layer).at? path = some (laid (below.bind (·.at? path)) v) := by
  induction path generalizing below layer with
  | nil =>
    cases held
    cases below <;> rfl
  | cons key path ih =>
    obtain ⟨w, found, there⟩ := Option.bind_eq_some_iff.mp held
    cases ordered with
    | object sorted each =>
      have here : Members.find? key _ = some w := found
      rw [at?_laid_object sorted, here, bind_at?_cons]
      exact ih (each _ (Members.mem_of_find? here)) there
    | _ => cases found

theorem at?_laid_blocked (ordered : layer.Ordered) (blocks : layer.Blocks path) :
    (laid below layer).at? path = none := by
  induction path generalizing below layer with
  | nil => exact absurd blocks not_blocks_nil
  | cons key path ih =>
    cases ordered with
    | object sorted each =>
      obtain ⟨w, found, later⟩ := blocks_object.mp blocks
      rw [at?_laid_object sorted, found]
      exact ih (each _ (Members.mem_of_find? found)) later
    | _ => rw [laid_of_value rfl, at?_of_value rfl]

theorem at?_laid_open (ordered : layer.Ordered) (absent : layer.at? path = none)
    (free : ¬layer.Blocks path) : (laid below layer).at? path = below.bind (·.at? path) := by
  induction path generalizing below layer with
  | nil => cases absent
  | cons key path ih =>
    cases ordered with
    | @object ls sorted each =>
      rw [at?_laid_object sorted, bind_at?_cons]
      rw [at?_object] at absent
      rw [blocks_object] at free
      cases found : ls.find? key with
      | none => rfl
      | some w =>
        rw [found] at absent
        exact ih (each _ (Members.mem_of_find? found)) absent fun blocks => free ⟨w, found, blocks⟩
    | _ => exact absurd (blocks_of_value rfl key path) free

/-- Whatever is held at a path in the end was laid there, or was left there. -/
theorem at?_laid_eq_some (ordered : layer.Ordered) (found : (laid below layer).at? path = some v) :
    (∃ w, layer.at? path = some w ∧ laid (below.bind (·.at? path)) w = v) ∨
      below.bind (·.at? path) = some v := by
  cases held : layer.at? path with
  | some w =>
    rw [at?_laid_reached ordered held] at found
    exact .inl ⟨w, rfl, Option.some.inj found⟩
  | none =>
    by_cases blocks : layer.Blocks path
    · rw [at?_laid_blocked ordered blocks] at found
      cases found
    · exact .inr ((at?_laid_open ordered held blocks).symm.trans found)

theorem laid_ordered (beneath : ∀ t ∈ below, t.Ordered) (ordered : layer.Ordered) :
    (laid below layer).Ordered := by
  induction ordered generalizing below with
  | @object ls sorted each ih =>
    obtain ⟨first, rest⟩ := ordered_object.mp (membersBelow_ordered beneath)
    rw [laid_object sorted]
    have all : (overlayMembers (membersBelow below) ls).Sorted := sorted_overlayMembers first
    refine .object all fun m mem => ?_
    have found := all.find?_of_mem mem
    rw [find?_overlayMembers sorted] at found
    cases told : ls.find? m.1 with
    | none =>
      rw [told] at found
      exact rest _ (Members.mem_of_find? found)
    | some w =>
      rw [told] at found
      rw [← Option.some.inj found]
      exact ih _ (Members.mem_of_find? told) fun t there => rest _ (Members.mem_of_find? there)
  | array each =>
    rw [laid_of_value rfl]
    exact .array each
  | _ =>
    rw [laid_of_value rfl]
    constructor

/-- A layer that has been laid makes no difference when it is laid again. -/
theorem overlay_laid (beneath : ∀ t ∈ below, t.Ordered) (ordered : layer.Ordered) :
    overlay (laid below layer) layer = laid below layer := by
  induction ordered generalizing below with
  | @object ls sorted each ih =>
    obtain ⟨first, rest⟩ := ordered_object.mp (membersBelow_ordered beneath)
    have all : (overlayMembers (membersBelow below) ls).Sorted := sorted_overlayMembers first
    rw [laid_object sorted, overlay]
    refine congrArg Json.object ((sorted_overlayMembers all).ext all fun key => ?_)
    rw [find?_overlayMembers sorted, find?_overlayMembers sorted]
    cases told : ls.find? key with
    | none => rfl
    | some w =>
      exact congrArg some
        (ih _ (Members.mem_of_find? told) fun t there => rest _ (Members.mem_of_find? there))
  | _ => rw [laid_of_value rfl, overlay_of_value rfl]

end Laid

/-- What comes of laying a value over another: what the layer holds, at each path that it reaches
with a value that is no object; what was there before, at each path that it leaves open; and nothing
else. An empty object changes no object, and a layer that is laid twice counts once. -/
theorem overlay_merges {target layer : Json} (below : target.Ordered) (above : layer.Ordered) :
    (overlay target layer).Ordered ∧
      (∀ path v, layer.at? path = some v → v.members? = none →
        (overlay target layer).at? path = some v) ∧
      (∀ path, layer.at? path = none → ¬layer.Blocks path →
        (overlay target layer).at? path = target.at? path) ∧
      (∀ path, ((overlay target layer).at? path).isSome →
        (target.at? path).isSome ∨ (layer.at? path).isSome) ∧
      (∀ path v, (overlay target layer).at? path = some v → v.members? = none →
        target.at? path = some v ∨ layer.at? path = some v) ∧
      (target.members?.isSome → overlay target emptyObject = target) ∧
      overlay (overlay target layer) layer = overlay target layer := by
  have beneath : ∀ t ∈ some target, t.Ordered := fun t same => Option.some.inj same ▸ below
  have origin {path : List String} {v : Json}
      (found : (laid (some target) layer).at? path = some v) := at?_laid_eq_some above found
  have reached {path : List String} {v : Json} (held : layer.at? path = some v) :
      (laid (some target) layer).at? path = _ := at?_laid_reached above held
  have left {path : List String} (absent : layer.at? path = none) (free : ¬layer.Blocks path) :
      (laid (some target) layer).at? path = _ := at?_laid_open above absent free
  refine ⟨laid_ordered beneath above, fun path v held whole => ?_,
    fun path => left, fun path some => ?_,
    fun path v found whole => ?_, fun object => ?_, overlay_laid beneath above⟩
  · exact (reached held).trans (congrArg Option.some (laid_of_value whole _))
  · obtain ⟨v, found⟩ := Option.isSome_iff_exists.mp some
    rcases origin found with ⟨w, held, -⟩ | there
    · exact .inr (Option.isSome_iff_exists.mpr ⟨w, held⟩)
    · exact .inl (Option.isSome_iff_exists.mpr ⟨v, there⟩)
  · rcases origin found with ⟨w, held, rfl⟩ | there
    · exact .inr (held.trans (congrArg Option.some (laid_of_value (value_of_laid whole) _).symm))
    · exact .inl there
  · cases target with
    | object ms => rw [emptyObject, overlay, overlayMembers]
    | _ => cases object

/-- A table in both is merged: one key is changed, one is kept, and one is new. -/
theorem overlay_merges_nested :
    let target := Json.object [("a", .int 1), ("b", .object [("c", .int 2), ("d", .int 3)])]
    let layer := Json.object [("b", .object [("c", .int 20)]), ("e", .int 5)]
    (overlay target layer).at? ["b", "c"] = some (.int 20) ∧
      (overlay target layer).at? ["b", "d"] = some (.int 3) ∧
      (overlay target layer).at? ["e"] = some (.int 5) ∧
      overlay target emptyObject = target ∧
      overlay (overlay target layer) layer = overlay target layer := by
  intro target layer
  have pair {k l : String} {v w : Json} (before : k < l) (first : v.Ordered) (second : w.Ordered) :
      (Json.object [(k, v), (l, w)]).Ordered := by
    refine .object (List.pairwise_pair.mpr before) fun m mem => ?_
    rcases List.mem_pair.mp mem with rfl | rfl
    · exact first
    · exact second
  have single {k : String} {v : Json} (only : v.Ordered) : (Json.object [(k, v)]).Ordered :=
    .object (List.pairwise_singleton _ _) (List.forall_mem_singleton.mpr only)
  have below : target.Ordered := pair (by decide) (.int 1) (pair (by decide) (.int 2) (.int 3))
  have above : layer.Ordered := pair (by decide) (single (.int 20)) (.int 5)
  have free : ¬layer.Blocks ["b", "d"] := by
    rw [blocks_object]
    rintro ⟨w, found, blocks⟩
    obtain rfl := Option.some.inj found
    obtain ⟨v, absent, -⟩ := blocks_object.mp blocks
    exact absurd absent nofun
  obtain ⟨-, held, kept, -, -, empty, twice⟩ := overlay_merges below above
  exact ⟨held ["b", "c"] _ rfl rfl, kept ["b", "d"] rfl free, held ["e"] _ rfl rfl, empty rfl, twice⟩

end ActionChain.Json
