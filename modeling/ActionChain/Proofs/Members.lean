import ActionChain.Members

/-!
Members of objects as maps. Setting a key keeps the order and changes this key only, and members in
order are determined by what their keys are set to.
-/
namespace ActionChain.Members

variable {α : Type}

@[simp] theorem find?_nil (key : String) : find? key ([] : Members α) = none := rfl

theorem find?_cons (key k : String) (v : α) (rest : Members α) :
    find? key ((k, v) :: rest) = if key = k then some v else find? key rest := by
  by_cases same : key = k
  · simp [find?, same]
  · have differ : (key == k) = false := by simpa using same
    simp [find?, List.lookup_cons, same, differ]

theorem mem_of_find? {key : String} {v : α} {ms : Members α} (found : ms.find? key = some v) :
    (key, v) ∈ ms := by
  induction ms with
  | nil => cases found
  | cons m rest ih =>
    obtain ⟨k, w⟩ := m
    rw [find?_cons] at found
    split at found
    · rename_i same
      cases found
      exact same ▸ List.mem_cons_self
    · exact List.mem_cons_of_mem _ (ih found)

theorem find?_put (key other : String) (value : α) (ms : Members α) :
    find? other (put key value ms) = if other = key then some value else find? other ms := by
  induction ms with
  | nil => simp only [put, find?_cons, find?_nil]
  | cons m rest ih =>
    obtain ⟨k, v⟩ := m
    simp only [put]
    split
    · rw [find?_cons]
    · split
      · rename_i same
        subst same
        simp only [find?_cons]
        grind
      · simp only [find?_cons, ih]
        grind

theorem keys_put {key k : String} {value : α} {ms : Members α}
    (mem : k ∈ (put key value ms).map (·.1)) : k = key ∨ k ∈ ms.map (·.1) := by
  induction ms with
  | nil => simpa [put] using mem
  | cons m rest ih =>
    obtain ⟨l, v⟩ := m
    simp only [put] at mem
    grind

theorem mem_put {key : String} {value : α} {ms : Members α} {m : String × α}
    (mem : m ∈ put key value ms) : m = (key, value) ∨ m ∈ ms := by
  induction ms with
  | nil => simpa [put] using mem
  | cons n rest ih =>
    obtain ⟨l, v⟩ := n
    simp only [put] at mem
    grind

theorem Sorted.put {ms : Members α} (sorted : Sorted ms) (key : String) (value : α) :
    Sorted (ms.put key value) := by
  induction ms with
  | nil => simp [Members.put, Sorted]
  | cons m rest ih =>
    obtain ⟨k, v⟩ := m
    obtain ⟨least, tail⟩ := List.pairwise_cons.mp sorted
    simp only [Members.put]
    split
    · rename_i before
      refine List.pairwise_cons.mpr ⟨?_, sorted⟩
      intro n mem
      rcases List.mem_cons.mp mem with rfl | later
      · exact before
      · exact String.lt_trans before (least n later)
    · split
      · rename_i same
        exact List.pairwise_cons.mpr ⟨fun n mem => same ▸ least n mem, tail⟩
      · rename_i notBefore other
        have after : k < key := by grind
        refine List.pairwise_cons.mpr ⟨?_, ih tail⟩
        intro n mem
        rcases keys_put (List.mem_map_of_mem mem) with same | old
        · exact same ▸ after
        · obtain ⟨n', mem', same⟩ := List.mem_map.mp old
          exact same ▸ least n' mem'

theorem sorted_ofList (pairs : List (String × α)) : Sorted (ofList pairs) := by
  have sets : ∀ ms : Members α, Sorted ms →
      Sorted (pairs.foldl (fun ms (key, value) => put key value ms) ms) := by
    induction pairs with
    | nil => exact fun ms sorted => sorted
    | cons p rest ih => exact fun ms sorted => ih _ (sorted.put p.1 p.2)
  exact sets [] .nil

theorem mem_ofList {pairs : List (String × α)} {m : String × α} (mem : m ∈ ofList pairs) :
    m ∈ pairs := by
  have sets (ps : List (String × α)) (ms : Members α)
      (mem : m ∈ ps.foldl (fun ms (key, value) => put key value ms) ms) : m ∈ ps ∨ m ∈ ms := by
    induction ps generalizing ms with
    | nil => exact .inr mem
    | cons p rest ih =>
      rcases ih _ mem with later | before
      · exact .inl (List.mem_cons_of_mem p later)
      · exact (mem_put before).imp (fun same => by simp [same]) id
  exact (sets pairs [] mem).resolve_right List.not_mem_nil

theorem find?_ofList (key : String) (pairs : List (String × α)) :
    find? key (ofList pairs) = pairs.reverse.lookup key := by
  have sets : ∀ ms : Members α, find? key (pairs.foldl (fun ms (key, value) => put key value ms) ms) =
      (pairs.reverse.lookup key).or (find? key ms) := by
    induction pairs with
    | nil => exact fun ms => rfl
    | cons p rest ih =>
      intro ms
      obtain ⟨k, v⟩ := p
      rw [List.foldl_cons, ih, find?_put, List.reverse_cons, List.lookup_append, Option.or_assoc]
      by_cases same : key = k
      · simp [same]
      · have differ : (key == k) = false := by simpa using same
        simp [same, List.lookup_cons, differ]
  rw [ofList, sets []]
  exact Option.or_none

theorem find?_of_least {k key : String} {v : α} {rest : Members α} (sorted : Sorted ((k, v) :: rest))
    (least : key < k ∨ key = k) : find? key rest = none := by
  have later := (List.pairwise_cons.mp sorted).1
  rw [find?, List.lookup_eq_none_iff]
  intro n mem
  have after := later n mem
  grind

theorem Sorted.find?_of_mem {ms : Members α} (sorted : Sorted ms) {m : String × α} (mem : m ∈ ms) :
    find? m.1 ms = some m.2 := by
  induction ms with
  | nil => cases mem
  | cons n rest ih =>
    obtain ⟨k, v⟩ := n
    obtain ⟨least, tail⟩ := List.pairwise_cons.mp sorted
    rw [find?_cons]
    rcases List.mem_cons.mp mem with rfl | later
    · exact if_pos rfl
    · have after := least m later
      rw [if_neg (by grind), ih tail later]

/-- Members in order are determined by what is found in them. -/
theorem Sorted.ext {ms ns : Members α} (sorted : Sorted ms) (other : Sorted ns)
    (same : ∀ key, find? key ms = find? key ns) : ms = ns := by
  induction ms generalizing ns with
  | nil =>
    cases ns with
    | nil => rfl
    | cons n ns =>
      have found := same n.1
      rw [find?_nil, find?_cons, if_pos rfl] at found
      cases found
  | cons m ms ih =>
    obtain ⟨k, v⟩ := m
    cases ns with
    | nil =>
      have found := same k
      rw [find?_nil, find?_cons, if_pos rfl] at found
      cases found
    | cons n ns =>
      obtain ⟨l, w⟩ := n
      have first := same k
      have second := same l
      simp only [find?_cons, if_true] at first second
      have keys : k = l := by
        rcases Std.lt_trichotomy k l with before | equal | after
        · have absent := find?_of_least other (.inl before)
          grind
        · exact equal
        · have absent := find?_of_least sorted (.inl after)
          grind
      subst keys
      have values : v = w := by simpa using first
      have tails : ms = ns := by
        refine ih (List.pairwise_cons.mp sorted).2 (List.pairwise_cons.mp other).2 fun key => ?_
        by_cases head : key = k
        · rw [find?_of_least sorted (.inr head), find?_of_least other (.inr head)]
        · have found := same key
          simpa only [find?_cons, if_neg head] using found
      rw [values, tails]

theorem Sorted.eq_ofList {ms : Members α} {pairs : List (String × α)} (sorted : Sorted ms)
    (last : ∀ key, find? key ms = pairs.reverse.lookup key) : ms = ofList pairs :=
  sorted.ext (sorted_ofList pairs) fun key => (last key).trans (find?_ofList key pairs).symm

end ActionChain.Members
