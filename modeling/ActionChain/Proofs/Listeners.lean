import ActionChain.Event
import Mathlib.Data.List.Induction

/-!
The listeners of a target after listeners have been added and removed. A listener stands since it
was first added after its last removal. Main statement `ofEdits_lawful`: no two listeners share their
type and name, and they are called in the order of the times since when they stand.
-/
namespace ActionChain

variable {κ : Type}

/-- What is done to the listeners of a target. -/
inductive Edit (κ : Type)
  | add (type id : String) (callback : κ)
  | remove (type id : String)

def Edit.key : Edit κ → String × String
  | .add type id _ | .remove type id => (type, id)

def Listener.key (l : Listener κ) : String × String := (l.type, l.id)

theorem Listener.isFor_iff {l : Listener κ} {type id : String} :
    l.isFor type id = true ↔ l.key = (type, id) := by
  simp [isFor, key]

section History

def AddedAt (history : List (Edit κ)) (time : Nat) (key : String × String) : Prop :=
  ∃ k, history[time]? = some (Edit.add key.1 key.2 k)

def RemovedAt (history : List (Edit κ)) (time : Nat) (key : String × String) : Prop :=
  history[time]? = some (Edit.remove key.1 key.2)

/-- A listener was first added at a time, has not been removed since, and has the callback with
which it was added last. -/
structure StandsSince (history : List (Edit κ)) (time : Nat) (l : Listener κ) : Prop where
  added : AddedAt history time l.key
  kept : ∀ t, time < t → ¬RemovedAt history t l.key
  first : ∀ t < time, AddedAt history t l.key → ∃ u, t < u ∧ u < time ∧ RemovedAt history u l.key
  latest : ∃ t, history[t]? = some (Edit.add l.type l.id l.callback) ∧
    ∀ u, t < u → ¬AddedAt history u l.key

variable {history : List (Edit κ)} {x y : Edit κ} {t : Nat} {key : String × String}

theorem getElem?_snoc_iff :
    (history ++ [x])[t]? = some y ↔ history[t]? = some y ∨ t = history.length ∧ x = y := by
  rw [List.getElem?_append]
  split
  · rename_i early
    rw [or_iff_left]
    rintro ⟨rfl, -⟩
    exact Nat.lt_irrefl _ early
  · rename_i late
    have absent : history[t]? = none := List.getElem?_eq_none (Nat.not_lt.mp late)
    have last : t - history.length = 0 ↔ t = history.length := by omega
    simp [absent, List.getElem?_singleton, last]

theorem addedAt_snoc : AddedAt (history ++ [x]) t key ↔
    AddedAt history t key ∨ t = history.length ∧ ∃ k, x = .add key.1 key.2 k := by
  simp only [AddedAt, getElem?_snoc_iff, exists_or, exists_and_left]

theorem removedAt_snoc : RemovedAt (history ++ [x]) t key ↔
    RemovedAt history t key ∨ t = history.length ∧ x = .remove key.1 key.2 := getElem?_snoc_iff

theorem AddedAt.lt (added : AddedAt history t key) : t < history.length := by
  obtain ⟨k, found⟩ := added
  exact (List.getElem?_eq_some_iff.mp found).1

theorem RemovedAt.lt (removed : RemovedAt history t key) : t < history.length :=
  (List.getElem?_eq_some_iff.mp removed).1

variable {time : Nat} {l : Listener κ}

theorem addedAt_snoc_other (differ : x.key ≠ key) :
    AddedAt (history ++ [x]) t key ↔ AddedAt history t key := by
  refine addedAt_snoc.trans (or_iff_left ?_)
  rintro ⟨-, k, rfl⟩
  exact differ rfl

theorem removedAt_snoc_other (differ : x.key ≠ key) :
    RemovedAt (history ++ [x]) t key ↔ RemovedAt history t key := by
  refine removedAt_snoc.trans (or_iff_left ?_)
  rintro ⟨-, rfl⟩
  exact differ rfl

theorem StandsSince.other (stands : StandsSince history time l) (differ : x.key ≠ l.key) :
    StandsSince (history ++ [x]) time l := by
  have added {t : Nat} : AddedAt (history ++ [x]) t l.key ↔ AddedAt history t l.key :=
    addedAt_snoc_other differ
  have removed {t : Nat} : RemovedAt (history ++ [x]) t l.key ↔ RemovedAt history t l.key :=
    removedAt_snoc_other differ
  constructor
  · exact added.mpr stands.added
  · exact fun t later => removed.not.mpr (stands.kept t later)
  · intro t early again
    obtain ⟨u, after, before, gone⟩ := stands.first t early (added.mp again)
    exact ⟨u, after, before, removed.mpr gone⟩
  · obtain ⟨t, found, last⟩ := stands.latest
    exact ⟨t, getElem?_snoc_iff.mpr (.inl found), fun u later => added.not.mpr (last u later)⟩

/-- Added again, a listener keeps its time. -/
theorem StandsSince.again (stands : StandsSince history time l) (k : κ) :
    StandsSince (history ++ [.add l.type l.id k]) time { l with callback := k } := by
  have removed {t : Nat} : RemovedAt (history ++ [.add l.type l.id k]) t l.key ↔
      RemovedAt history t l.key := removedAt_snoc.trans (or_iff_left (by simp))
  constructor
  · exact addedAt_snoc.mpr (.inl stands.added)
  · exact fun t later => removed.not.mpr (stands.kept t later)
  · intro t early again
    have old : AddedAt history t l.key := by
      refine (addedAt_snoc.mp again).resolve_right ?_
      rintro ⟨rfl, -⟩
      exact Nat.lt_asymm early stands.added.lt
    obtain ⟨u, after, before, gone⟩ := stands.first t early old
    exact ⟨u, after, before, removed.mpr gone⟩
  · refine ⟨history.length, getElem?_snoc_iff.mpr (.inr ⟨rfl, rfl⟩), fun u later again => ?_⟩
    have early := again.lt
    rw [List.length_append, List.length_singleton] at early
    omega

/-- Added for the first time, or after a removal, a listener stands from now on. -/
theorem standsSince_new (absent : ∀ t, AddedAt history t l.key →
      ∃ u, t < u ∧ RemovedAt history u l.key) :
    StandsSince (history ++ [.add l.type l.id l.callback]) history.length l := by
  constructor
  · exact addedAt_snoc.mpr (.inr ⟨rfl, _, rfl⟩)
  · intro t later gone
    have early := gone.lt
    rw [List.length_append, List.length_singleton] at early
    omega
  · intro t early again
    have old : AddedAt history t l.key :=
      (addedAt_snoc.mp again).resolve_right fun now => Nat.ne_of_lt early now.1
    obtain ⟨u, after, gone⟩ := absent t old
    exact ⟨u, after, gone.lt, removedAt_snoc.mpr (.inl gone)⟩
  · refine ⟨history.length, getElem?_snoc_iff.mpr (.inr ⟨rfl, rfl⟩), fun u later again => ?_⟩
    have early := again.lt
    rw [List.length_append, List.length_singleton] at early
    omega

end History

namespace EventTarget

section Places

variable {l m : Listener κ} {ls before after : List (Listener κ)}

theorem place_fresh (fresh : ∀ m ∈ ls, m.key ≠ l.key) : place l ls = ls ++ [l] := by
  induction ls with
  | nil => rfl
  | cons m rest ih =>
    obtain ⟨differ, others⟩ := List.forall_mem_cons.mp fresh
    rw [place, if_neg (mt Listener.isFor_iff.mp differ), ih others, List.cons_append]

theorem place_known (same : m.key = l.key) (others : ∀ n ∈ before, n.key ≠ l.key) :
    place l (before ++ m :: after) = before ++ l :: after := by
  induction before with
  | nil => exact if_pos (Listener.isFor_iff.mpr same)
  | cons n rest ih =>
    obtain ⟨differ, others⟩ := List.forall_mem_cons.mp others
    rw [List.cons_append, place, if_neg (mt Listener.isFor_iff.mp differ), ih others,
      List.cons_append]

theorem keys_differ (distinct : ((before ++ l :: after).map (·.key)).Nodup) :
    (∀ m ∈ before, m.key ≠ l.key) ∧ ∀ m ∈ after, m.key ≠ l.key := by
  have moved : ((l :: (before ++ after)).map (·.key)).Nodup :=
    (List.perm_middle.map _).nodup_iff.mp distinct
  have absent := (List.nodup_cons.mp moved).1
  have differ : ∀ m ∈ before ++ after, m.key ≠ l.key := fun m member same =>
    absent (List.mem_map.mpr ⟨m, member, same⟩)
  exact List.forall_mem_append.mp differ

/-- The listener with a key is replaced, and no other one. -/
def replaced (l m : Listener κ) : Listener κ := if m.key = l.key then l else m

theorem replaced_key (l m : Listener κ) : (replaced l m).key = m.key := by
  rw [replaced]
  split
  · rename_i same
    exact same.symm
  · rfl

theorem place_eq_map (distinct : (ls.map (·.key)).Nodup) (there : ∃ m ∈ ls, m.key = l.key) :
    place l ls = ls.map (replaced l) := by
  obtain ⟨m, member, same⟩ := there
  obtain ⟨before, after, rfl⟩ := List.append_of_mem member
  obtain ⟨earlier, later⟩ := keys_differ distinct
  rw [same] at earlier later
  have kept {part : List (Listener κ)} (others : ∀ n ∈ part, n.key ≠ l.key) :
      part.map (replaced l) = part :=
    (List.map_congr_left fun n member => if_neg (others n member)).trans (List.map_id _)
  rw [place_known same earlier, List.map_append, List.map_cons, kept earlier, kept later, replaced,
    if_pos same]

theorem filter_known (distinct : ((before ++ l :: after).map (·.key)).Nodup) :
    (before ++ l :: after).filter (fun m => !m.isFor l.type l.id) = before ++ after := by
  obtain ⟨earlier, later⟩ := keys_differ distinct
  have kept {part : List (Listener κ)} (others : ∀ n ∈ part, n.key ≠ l.key) :
      part.filter (fun m => !m.isFor l.type l.id) = part := by
    refine List.filter_eq_self.mpr fun n member => ?_
    simpa using mt Listener.isFor_iff.mp (others n member)
  have gone : (!l.isFor l.type l.id) = false := by simp [Listener.isFor]
  rw [List.filter_append, List.filter_cons, gone, kept earlier, kept later]
  rfl

end Places

def edit (t : EventTarget κ) : Edit κ → EventTarget κ
  | .add type id callback => t.add type id callback
  | .remove type id => (t.remove type id).1

def ofEdits (history : List (Edit κ)) : EventTarget κ := history.foldl edit {}

theorem ofEdits_snoc (history : List (Edit κ)) (x : Edit κ) :
    ofEdits (history ++ [x]) = (ofEdits history).edit x := List.foldl_append

end EventTarget

/-- The listeners there are after a history, in the order of the times since when they stand. -/
structure Ordered (history : List (Edit κ)) (ls : List (Listener κ)) : Prop where
  distinct : (ls.map (·.key)).Nodup
  standing : ∀ l ∈ ls, ∃ t, StandsSince history t l
  ascending : ls.Pairwise fun l m =>
    ∃ t u, t < u ∧ StandsSince history t l ∧ StandsSince history u m
  /-- Who was added and has not been removed since is there. -/
  present : ∀ t key, AddedAt history t key → (∀ u, t < u → ¬RemovedAt history u key) →
    ∃ l ∈ ls, l.key = key

namespace Ordered

variable {history : List (Edit κ)} {ls : List (Listener κ)}

theorem present_other (ordered : Ordered history ls) {x : Edit κ} {t : Nat} {key : String × String}
    (differ : x.key ≠ key) (added : AddedAt (history ++ [x]) t key)
    (kept : ∀ u, t < u → ¬RemovedAt (history ++ [x]) u key) : ∃ m ∈ ls, m.key = key :=
  ordered.present t key ((addedAt_snoc_other differ).mp added)
    fun u later gone => kept u later ((removedAt_snoc_other differ).mpr gone)

theorem append (ordered : Ordered history ls) {l : Listener κ} (fresh : ∀ m ∈ ls, m.key ≠ l.key) :
    Ordered (history ++ [.add l.type l.id l.callback]) (ls ++ [l]) := by
  have others {t : Nat} {m : Listener κ} (member : m ∈ ls) (stands : StandsSince history t m) :
      StandsSince (history ++ [.add l.type l.id l.callback]) t m :=
    stands.other (Ne.symm (fresh m member))
  have this : StandsSince (history ++ [.add l.type l.id l.callback]) history.length l := by
    refine standsSince_new fun t added => ?_
    by_contra kept
    obtain ⟨m, member, same⟩ :=
      ordered.present t l.key added fun u later gone => kept ⟨u, later, gone⟩
    exact fresh m member same
  constructor
  case distinct => simpa [List.nodup_append] using ⟨ordered.distinct, fresh⟩
  case standing =>
    refine List.forall_mem_append.mpr ⟨fun m member => ?_, ?_⟩
    · obtain ⟨t, stands⟩ := ordered.standing m member
      exact ⟨t, others member stands⟩
    · exact List.forall_mem_singleton.mpr ⟨_, this⟩
  case ascending =>
    refine List.pairwise_append.mpr ⟨?_, List.pairwise_singleton .., fun m member n last => ?_⟩
    · refine ordered.ascending.imp_of_mem fun first second ⟨t, u, before, stands, stands'⟩ => ?_
      exact ⟨t, u, before, others first stands, others second stands'⟩
    · obtain rfl := List.mem_singleton.mp last
      obtain ⟨t, stands⟩ := ordered.standing m member
      exact ⟨t, _, stands.added.lt, others member stands, this⟩
  case present =>
    intro t key added kept
    by_cases same : l.key = key
    · exact ⟨l, List.mem_append_right _ (List.mem_singleton_self l), same⟩
    · obtain ⟨m, member, mine⟩ :=
        ordered.present_other (x := .add l.type l.id l.callback) same added kept
      exact ⟨m, List.mem_append_left _ member, mine⟩

open EventTarget in
theorem replace (ordered : Ordered history ls) {l : Listener κ} (there : ∃ m ∈ ls, m.key = l.key) :
    Ordered (history ++ [.add l.type l.id l.callback]) (ls.map (replaced l)) := by
  have still {t : Nat} {m : Listener κ} (stands : StandsSince history t m) :
      StandsSince (history ++ [.add l.type l.id l.callback]) t (replaced l m) := by
    rw [replaced]
    split
    · rename_i same
      obtain ⟨type, id, k⟩ := m
      obtain ⟨rfl, rfl⟩ := Prod.mk.inj same
      exact stands.again l.callback
    · rename_i differ
      exact stands.other (Ne.symm differ)
  constructor
  case distinct =>
    have same : (ls.map (replaced l)).map (·.key) = ls.map (·.key) := by
      simp [replaced_key]
    exact same ▸ ordered.distinct
  case standing =>
    refine List.forall_mem_map.mpr fun m member => ?_
    obtain ⟨t, stands⟩ := ordered.standing m member
    exact ⟨t, still stands⟩
  case ascending =>
    refine List.pairwise_map.mpr (ordered.ascending.imp ?_)
    rintro m n ⟨t, u, before, stands, stands'⟩
    exact ⟨t, u, before, still stands, still stands'⟩
  case present =>
    intro t key added kept
    by_cases same : l.key = key
    · obtain ⟨m, member, mine⟩ := there
      exact ⟨_, List.mem_map_of_mem member, (replaced_key l m).trans (mine.trans same)⟩
    · obtain ⟨m, member, mine⟩ :=
        ordered.present_other (x := .add l.type l.id l.callback) same added kept
      exact ⟨_, List.mem_map_of_mem member, (replaced_key l m).trans mine⟩

theorem remove (ordered : Ordered history ls) (type id : String) :
    Ordered (history ++ [.remove type id]) (ls.filter fun l => !l.isFor type id) := by
  have part : (ls.filter fun l => !l.isFor type id).Sublist ls := List.filter_sublist
  have others {t : Nat} {m : Listener κ} (member : m ∈ ls.filter fun l => !l.isFor type id)
      (stands : StandsSince history t m) : StandsSince (history ++ [.remove type id]) t m := by
    refine stands.other fun same => ?_
    have kept : m.isFor type id = false := by simpa using (List.mem_filter.mp member).2
    exact absurd (Listener.isFor_iff.mpr same.symm) (by simp [kept])
  constructor
  case distinct => exact (part.map _).nodup ordered.distinct
  case standing =>
    intro m member
    obtain ⟨t, stands⟩ := ordered.standing m (part.subset member)
    exact ⟨t, others member stands⟩
  case ascending =>
    refine (ordered.ascending.sublist part).imp_of_mem ?_
    rintro m n first second ⟨t, u, before, stands, stands'⟩
    exact ⟨t, u, before, others first stands, others second stands'⟩
  case present =>
    intro t key added kept
    by_cases same : (type, id) = key
    · subst same
      have early : AddedAt history t (type, id) := (addedAt_snoc.mp added).resolve_right (by simp)
      have gone : RemovedAt (history ++ [.remove type id]) history.length (type, id) :=
        removedAt_snoc.mpr (.inr ⟨rfl, rfl⟩)
      exact absurd gone (kept _ early.lt)
    · obtain ⟨m, member, mine⟩ := ordered.present_other (x := .remove type id) same added kept
      refine ⟨m, List.mem_filter.mpr ⟨member, ?_⟩, mine⟩
      simpa using mt Listener.isFor_iff.mp (mine ▸ Ne.symm same)

end Ordered

namespace EventTarget

theorem ofEdits_ordered (history : List (Edit κ)) : Ordered history (ofEdits history).listeners := by
  induction history using List.reverseRecOn with
  | nil => constructor <;> simp [ofEdits, AddedAt]
  | append_singleton history x ih =>
    rw [ofEdits_snoc]
    cases x with
    | add type id k =>
      by_cases there : ∃ m ∈ (ofEdits history).listeners, m.key = (type, id)
      · have placed : ((ofEdits history).edit (.add type id k)).listeners =
            (ofEdits history).listeners.map (replaced ⟨type, id, k⟩) :=
          place_eq_map ih.distinct there
        exact placed ▸ ih.replace (l := ⟨type, id, k⟩) there
      · have fresh : ∀ m ∈ (ofEdits history).listeners, m.key ≠ (type, id) :=
          fun m member same => there ⟨m, member, same⟩
        have placed : ((ofEdits history).edit (.add type id k)).listeners =
            (ofEdits history).listeners ++ [⟨type, id, k⟩] := place_fresh fresh
        exact placed ▸ ih.append (l := ⟨type, id, k⟩) fresh
    | remove type id => exact ih.remove type id

end EventTarget

/-- The listeners of a target are those that its history leaves, in their order, and this is what
happens to them next. -/
structure Lawful (history : List (Edit κ)) (t : EventTarget κ) : Prop where
  ordered : Ordered history t.listeners
  replaces : ∀ before l after k, t.listeners = before ++ l :: after →
    (t.add l.type l.id k).listeners = before ++ { l with callback := k } :: after
  appends : ∀ l, (∀ m ∈ t.listeners, m.key ≠ l.key) →
    (t.add l.type l.id l.callback).listeners = t.listeners ++ [l]
  removes : ∀ before l after, t.listeners = before ++ l :: after →
    t.remove l.type l.id = (⟨before ++ after⟩, true)
  ignores : ∀ type id, (∀ m ∈ t.listeners, m.key ≠ (type, id)) → t.remove type id = (t, false)

theorem EventTarget.ofEdits_lawful (history : List (Edit κ)) : Lawful history (ofEdits history) := by
  have ordered := ofEdits_ordered history
  generalize ofEdits history = t at ordered ⊢
  obtain ⟨ls⟩ := t
  constructor
  case ordered => exact ordered
  case replaces =>
    rintro before l after k rfl
    exact place_known rfl (keys_differ ordered.distinct).1
  case appends => exact fun l fresh => place_fresh fresh
  case removes =>
    rintro before l after rfl
    have found : (before ++ l :: after).any (·.isFor l.type l.id) = true :=
      List.any_eq_true.mpr ⟨l, by simp, Listener.isFor_iff.mpr rfl⟩
    rw [remove, filter_known ordered.distinct, found]
  case ignores =>
    intro type id absent
    have others : ∀ m ∈ ls, m.isFor type id = false := fun m member => by
      simpa using mt Listener.isFor_iff.mp (absent m member)
    have kept : (ls.filter fun m => !m.isFor type id) = ls :=
      List.filter_eq_self.mpr fun m member => by simp [others m member]
    have missing : ls.any (·.isFor type id) = false := by simpa using others
    rw [remove, kept, missing]

end ActionChain
