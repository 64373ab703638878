import Mathlib.Data.List.Forall2

/-!
Results or faults. One thing after the other goes well if each does; otherwise the fault is that of
the first which does not. The same of a list that is gone through from the left.
-/
namespace ActionChain

variable {α β ε : Type}

section Sequence

variable {x : Except ε α} {f : α → Except ε β} {b : β} {e : ε}

theorem bind_ok_iff : (x >>= f) = .ok b ↔ ∃ a, x = .ok a ∧ f a = .ok b := by
  cases x <;> simp [bind, Except.bind]

theorem bind_error_iff :
    (x >>= f) = .error e ↔ x = .error e ∨ ∃ a, x = .ok a ∧ f a = .error e := by
  cases x <;> simp [bind, Except.bind]

theorem map_ok_iff {g : α → β} : g <$> x = .ok b ↔ ∃ a, x = .ok a ∧ g a = b := by
  cases x <;> simp [Functor.map, Except.map]

theorem map_error_iff {g : α → β} : g <$> x = .error e ↔ x = .error e := by
  cases x <;> simp [Functor.map, Except.map]

end Sequence

section Lists

variable {f : α → Except ε β} {xs : List α} {ys : List β} {e : ε}

theorem mapM_ok_iff : xs.mapM f = .ok ys ↔ List.Forall₂ (fun x y => f x = .ok y) xs ys := by
  induction xs generalizing ys with
  | nil => cases ys <;> simp [pure, Except.pure]
  | cons x xs ih =>
    rw [List.mapM_cons, List.forall₂_cons_left_iff]
    simp only [bind_ok_iff, ih, pure, Except.pure, Except.ok.injEq]
    constructor
    · rintro ⟨y, first, ys, rest, rfl⟩
      exact ⟨y, ys, first, rest, rfl⟩
    · rintro ⟨y, ys, first, rest, rfl⟩
      exact ⟨y, first, ys, rest, rfl⟩

theorem mapM_congr {g : α → Except ε β} (same : ∀ x ∈ xs, f x = g x) : xs.mapM f = xs.mapM g := by
  induction xs with
  | nil => rfl
  | cons x xs ih =>
    obtain ⟨first, rest⟩ := List.forall_mem_cons.mp same
    rw [List.mapM_cons, List.mapM_cons, first, ih rest]

theorem mapM_cons_error_iff {x : α} : (x :: xs).mapM f = .error e ↔
    f x = .error e ∨ (∃ y, f x = .ok y) ∧ xs.mapM f = .error e := by
  rw [List.mapM_cons]
  simp [bind_error_iff, pure, Except.pure]

/-- The fault is that of the first item that is refused. -/
theorem mapM_error_iff : xs.mapM f = .error e ↔
    ∃ before x after, xs = before ++ x :: after ∧ (∀ z ∈ before, ∃ y, f z = .ok y) ∧
      f x = .error e := by
  constructor
  · intro failed
    induction xs with
    | nil => cases failed
    | cons x xs ih =>
      rcases mapM_cons_error_iff.mp failed with first | ⟨done, later⟩
      · exact ⟨[], x, xs, rfl, by simp, first⟩
      · obtain ⟨before, z, after, rfl, good, refused⟩ := ih later
        exact ⟨x :: before, z, after, rfl, List.forall_mem_cons.mpr ⟨done, good⟩, refused⟩
  · rintro ⟨before, x, after, rfl, good, refused⟩
    induction before with
    | nil => exact mapM_cons_error_iff.mpr (.inl refused)
    | cons z before ih =>
      obtain ⟨done, good⟩ := List.forall_mem_cons.mp good
      exact mapM_cons_error_iff.mpr (.inr ⟨done, ih good⟩)

theorem mapM_ok_iff_all : (∃ ys, xs.mapM f = .ok ys) ↔ ∀ x ∈ xs, ∃ y, f x = .ok y := by
  simp only [mapM_ok_iff]
  induction xs with
  | nil => simp
  | cons x xs ih =>
    rw [List.forall_mem_cons, ← ih]
    constructor
    · rintro ⟨_, all⟩
      obtain ⟨y, ys, first, rest, -⟩ := List.forall₂_cons_left_iff.mp all
      exact ⟨⟨y, first⟩, ys, rest⟩
    · rintro ⟨⟨y, first⟩, ys, rest⟩
      exact ⟨y :: ys, .cons first rest⟩

theorem getElem?_of_forall₂ {R : α → β → Prop} (all : List.Forall₂ R xs ys) {i : Nat} {x : α}
    (found : xs[i]? = some x) : ∃ y, ys[i]? = some y ∧ R x y := by
  induction all generalizing i with
  | nil => cases found
  | @cons x' y xs ys now later ih =>
    cases i with
    | zero =>
      obtain rfl := Option.some.inj found
      exact ⟨y, rfl, now⟩
    | succ i => exact ih found

end Lists

end ActionChain
