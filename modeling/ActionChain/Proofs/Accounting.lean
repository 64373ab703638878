import ActionChain.Proofs.ClassLists
import ActionChain.Proofs.History
import Mathlib.Data.List.DropRight
import Mathlib.Data.List.Nodup

/-!
The accounts of a button. In every history each activation lives one life: it enters, works, restores
the element once and leaves. So the counter is the number of activations that have entered and not
left, and when it is back at zero the element has the look it was made with. Main statement:
`activations_accounted`.
-/
namespace ActionChain

variable {κ η : Type} {fixed : Fixed}

inductive Stage
  | unborn
  | skipped
  | inFlight
  | restored
  | closed
  deriving DecidableEq

/-- The activation an act belongs to, and the stages it takes that activation from and to. -/
def Act.passage? : Act κ η fixed → Option (Nat × Stage × Stage)
  | .skip n => some (n, .unborn, .skipped)
  | .enter n => some (n, .unborn, .inFlight)
  | .work n _ | .putAside n _ | .takeUp n => some (n, .inFlight, .inFlight)
  | .restore n => some (n, .inFlight, .restored)
  | .leave n _ => some (n, .restored, .closed)
  | .expire _ | .abort | .outside _ => none

def Act.number? (a : Act κ η fixed) : Option Nat := a.passage?.map (·.1)

def Act.IsWork : Act κ η fixed → Prop
  | .work .. | .putAside .. | .takeUp _ => True
  | _ => False

/-- The life of an activation, as far as it has come: all that it did, in order. -/
inductive Life (n : Nat) : List (Act κ η fixed) → Stage → Prop
  | unborn : Life n [] .unborn
  | skipped : Life n [.skip n] .skipped
  | inFlight {work : List (Act κ η fixed)} :
      (∀ a ∈ work, a.IsWork) → Life n (.enter n :: work) .inFlight
  | restored {work : List (Act κ η fixed)} :
      (∀ a ∈ work, a.IsWork) → Life n (.enter n :: work ++ [.restore n]) .restored
  | closed {work : List (Act κ η fixed)} (ending : Ending) :
      (∀ a ∈ work, a.IsWork) →
      Life n (.enter n :: work ++ [.restore n, .leave n ending]) .closed

def lifeOf (n : Nat) (h : List (Act κ η fixed)) : List (Act κ η fixed) :=
  h.filter (·.number? = some n)

/-- The activations that were started, in order. -/
def entered (h : List (Act κ η fixed)) : List Nat :=
  h.filterMap fun
    | .enter n => some n
    | _ => none

/-- The activations that have settled or were dropped, in order. -/
def left (h : List (Act κ η fixed)) : List Nat :=
  h.filterMap fun
    | .leave n _ => some n
    | _ => none

/-- The activations that were started and are not over. -/
def live (h : List (Act κ η fixed)) : List Nat := (entered h).filter (· ∉ left h)

def Act.isRestore : Act κ η fixed → Bool
  | .restore _ => true
  | _ => false

def sinceRestore (h : List (Act κ η fixed)) : List (Act κ η fixed) := h.rtakeWhile (!·.isRestore)

def World.look (w : World κ η fixed) : ClassList × Bool := (w.element.classes, w.element.disabled)

theorem World.cancelSleep_look (w : World κ η fixed) : w.cancelSleep.1.look = w.look := by
  rw [World.cancelSleep]
  split
  · rfl
  · split <;> rfl

theorem World.abort_look [Form η] (w : World κ η fixed) : w.abort.look = w.look :=
  cancelSleep_look w

def KeepsLook (f : World κ η fixed → World κ η fixed) : Prop := ∀ w, (f w).look = w.look

def stages (h : List (Act κ η fixed)) : Nat → Stage :=
  h.foldl (fun s a => match a.passage? with
    | some (n, _, stage) => Function.update s n stage
    | none => s) fun _ => .unborn

section Snoc

variable (h : List (Act κ η fixed)) (a : Act κ η fixed)

theorem lifeOf_snoc (n : Nat) :
    lifeOf n (h ++ [a]) = if a.number? = some n then lifeOf n h ++ [a] else lifeOf n h := by
  by_cases mine : a.number? = some n <;> simp [lifeOf, mine]

theorem stages_passed {n : Nat} {s t : Stage} (passes : a.passage? = some (n, s, t)) :
    stages (h ++ [a]) n = t := by
  simp [stages, passes]

theorem stages_other {n : Nat} (other : a.number? ≠ some n) :
    stages (h ++ [a]) n = stages h n := by
  rw [stages, List.foldl_append, List.foldl_cons, List.foldl_nil]
  cases passes : a.passage? with
  | none => rfl
  | some passage =>
    have apart : n ≠ passage.1 := fun same => other (by simp [Act.number?, passes, same])
    exact Function.update_of_ne apart ..

theorem entered_enter (n : Nat) : entered (h ++ [.enter n]) = entered h ++ [n] := by
  simp [entered]

theorem entered_other (other : ∀ n, a ≠ .enter n) : entered (h ++ [a]) = entered h := by
  cases a <;> simp_all [entered]

theorem left_leave (n : Nat) (e : Ending) : left (h ++ [.leave n e]) = left h ++ [n] := by
  simp [left]

theorem left_other (other : ∀ n e, a ≠ .leave n e) : left (h ++ [a]) = left h := by
  cases a <;> simp_all [left]

theorem sinceRestore_restore (n : Nat) : sinceRestore (h ++ [.restore n]) = [] := by
  simp [sinceRestore, Act.isRestore]

theorem sinceRestore_other (other : ∀ n, a ≠ .restore n) :
    sinceRestore (h ++ [a]) = sinceRestore h ++ [a] := by
  cases a <;> simp_all [sinceRestore, Act.isRestore]

theorem live_other (entering : ∀ n, a ≠ .enter n)
    (leaving : ∀ n e, a ≠ .leave n e) : live (h ++ [a]) = live h := by
  rw [live, live, entered_other h a entering, left_other h a leaving]

theorem live_enter {n : Nat} (fresh : n ∉ left h) :
    live (h ++ [.enter n]) = live h ++ [n] := by
  rw [live, live, entered_enter, left_other _ _ (by simp), List.filter_append]
  simp [fresh]

theorem live_leave (n : Nat) (e : Ending) :
    live (h ++ [.leave n e]) = (live h).filter (· != n) := by
  rw [live, live, entered_other _ _ (by simp), left_leave, List.filter_filter]
  apply List.filter_congr
  intro m _
  by_cases same : m = n <;> simp [same]

end Snoc

section Lives

variable {n : Nat} {h l : List (Act κ η fixed)} {stage : Stage}

theorem mem_entered : n ∈ entered h ↔ .enter n ∈ lifeOf n h := by
  constructor
  · intro member
    obtain ⟨a, some, found⟩ := List.mem_filterMap.mp member
    cases a <;> simp_all [lifeOf, Act.number?, Act.passage?]
  · intro member
    exact List.mem_filterMap.mpr ⟨_, (List.mem_filter.mp member).1, rfl⟩

theorem mem_left : n ∈ left h ↔ ∃ e, .leave n e ∈ lifeOf n h := by
  constructor
  · intro member
    obtain ⟨a, some, found⟩ := List.mem_filterMap.mp member
    cases a <;> simp_all [lifeOf, Act.number?, Act.passage?]
    exact ⟨_, some⟩
  · rintro ⟨e, member⟩
    exact List.mem_filterMap.mpr ⟨_, (List.mem_filter.mp member).1, rfl⟩

theorem not_mem_work {work : List (Act κ η fixed)} (works : ∀ a ∈ work, a.IsWork)
    {a : Act κ η fixed} (other : ¬ a.IsWork) : a ∉ work := fun member => other (works a member)

theorem Life.mem_entered (life : Life n (lifeOf n h) stage) :
    n ∈ entered h ↔ stage ≠ .unborn ∧ stage ≠ .skipped := by
  rw [ActionChain.mem_entered]
  generalize lifeOf n h = did at life ⊢
  cases life <;> simp

theorem Life.mem_left (life : Life n (lifeOf n h) stage) : n ∈ left h ↔ stage = .closed := by
  rw [ActionChain.mem_left]
  generalize lifeOf n h = did at life ⊢
  cases life with
  | unborn => simp
  | skipped => simp
  | inFlight works =>
    have stays : ∀ e, Act.leave n e ∉ _ := fun e => not_mem_work works id
    simp [stays]
  | restored works =>
    have stays : ∀ e, Act.leave n e ∉ _ := fun e => not_mem_work works id
    simp [stays]
  | closed ending works => simp

theorem Life.mem_live (life : Life n (lifeOf n h) stage) :
    n ∈ live h ↔ stage = .inFlight ∨ stage = .restored := by
  rw [live, List.mem_filter, life.mem_entered, decide_eq_true_iff, life.mem_left]
  cases stage <;> simp

/-- A life goes on by the passages of its acts. -/
theorem Life.passage {a : Act κ η fixed} {s t : Stage} (life : Life n l s)
    (passes : a.passage? = some (n, s, t)) : Life n (l ++ [a]) t := by
  have works {work : List (Act κ η fixed)} (before : ∀ a ∈ work, a.IsWork) (now : a.IsWork) :
      ∀ b ∈ work ++ [a], b.IsWork := by
    intro b member
    rcases List.mem_append.mp member with earlier | last
    · exact before b earlier
    · exact List.mem_singleton.mp last ▸ now
  cases a with
  | skip m | enter m =>
    cases passes
    cases life
    first | exact .skipped | exact .inFlight (by simp)
  | work m w | putAside m p | takeUp m =>
    cases passes
    cases life with
    | inFlight before => exact .inFlight (works before trivial)
  | restore m =>
    cases passes
    cases life with
    | inFlight before => exact .restored before
  | leave m e =>
    cases passes
    cases life with
    | restored before => simpa using Life.closed e before
  | expire | abort | outside => cases passes

theorem Life.restored_once (life : Life n (lifeOf n h) .closed) : .restore n ∈ h := by
  have member : .restore n ∈ lifeOf n h := by
    generalize lifeOf n h = did at life ⊢
    cases life
    simp
  exact (List.mem_filter.mp member).1

end Lives

namespace Button

structure Sound (h : List (Act κ η fixed)) (b : Button κ η fixed) : Prop where
  lives : ∀ n, Life n (lifeOf n h) (stages h n)
  unborn : ∀ n, b.started ≤ n → stages h n = .unborn
  waiting : ∀ r ∈ b.running, stages h r.number = .inFlight
  once : (entered h).Nodup
  counted : b.inFlight = (live h).length
  single : fixed.settings.reentrancy = .ignore → b.inFlight ≤ 1
  skipping : ∀ n, .skip n ∈ h → fixed.settings.reentrancy = .ignore
  working : ∀ n w, .work n w ∈ sinceRestore h → stages h n = .inFlight
  shown : (∃ n, .restore n ∈ h) → (∀ n w, .work n w ∉ sinceRestore h) →
    (∀ f, .outside f ∈ sinceRestore h → KeepsLook f) →
    b.world.look = (.ofText fixed.initialClass, false)

def Allows (h : List (Act κ η fixed)) (b : Button κ η fixed) : Act κ η fixed → Prop
  | .skip n => n = b.started ∧ b.isBusy = true
  | .enter n => n = b.started ∧ b.isBusy = false
  | .work n _ | .putAside n _ | .takeUp n => stages h n = .inFlight
  | .restore n => stages h n = .inFlight ∧ ∀ r ∈ b.running, r.number ≠ n
  | .leave n _ => stages h n = .restored
  | .expire _ | .abort | .outside _ => True

theorem isBusy_iff (b : Button κ η fixed) :
    b.isBusy = true ↔ fixed.settings.reentrancy = .ignore ∧ 0 < b.inFlight := by
  simp [isBusy, isRunning]

theorem Allows.passage {h : List (Act κ η fixed)} {b : Button κ η fixed} {a : Act κ η fixed}
    (allowed : b.Allows h a) (sound : Sound h b) {n : Nat} {s t : Stage}
    (passes : a.passage? = some (n, s, t)) : stages h n = s := by
  cases a with
  | skip m | enter m =>
    cases passes
    exact sound.unborn _ (Nat.le_of_eq allowed.1.symm)
  | work m w | putAside m p | takeUp m | leave m e =>
    cases passes
    exact allowed
  | restore m =>
    cases passes
    exact allowed.1
  | expire | abort | outside => cases passes

section Step

variable {h : List (Act κ η fixed)} {b : Button κ η fixed} {a : Act κ η fixed}

theorem Sound.lives_act (sound : Sound h b) (allowed : b.Allows h a) (n : Nat) :
    Life n (lifeOf n (h ++ [a])) (stages (h ++ [a]) n) := by
  have life := sound.lives n
  rw [lifeOf_snoc]
  by_cases mine : a.number? = some n
  · obtain ⟨⟨m, s, t⟩, passes, rfl⟩ := Option.map_eq_some_iff.mp mine
    rw [if_pos mine, stages_passed h a passes]
    rw [allowed.passage sound passes] at life
    exact life.passage passes
  · rw [if_neg mine, stages_other h a mine]
    exact life

/-- An activation in flight stays so through every act but its being restored. -/
theorem Sound.stays_inFlight (sound : Sound h b) (allowed : b.Allows h a) {n : Nat}
    (flying : stages h n = .inFlight) (other : a ≠ .restore n) :
    stages (h ++ [a]) n = .inFlight := by
  by_cases mine : a.number? = some n
  · obtain ⟨⟨m, s, t⟩, passes, rfl⟩ := Option.map_eq_some_iff.mp mine
    have from_flight : s = .inFlight := (allowed.passage sound passes).symm.trans flying
    rw [stages_passed h a passes]
    cases a <;> simp_all [Act.passage?]
  · rw [stages_other h a mine, flying]

theorem Sound.live_nodup (sound : Sound h b) : (live h).Nodup := sound.once.filter _

theorem Sound.leave_length (sound : Sound h b) {n : Nat} {e : Ending}
    (allowed : b.Allows h (.leave n e)) :
    0 < b.inFlight ∧ (live (h ++ [.leave n e])).length = b.inFlight - 1 := by
  have ready : stages h n = .restored := allowed
  have member : n ∈ live h := (sound.lives n).mem_live.mpr (.inr ready)
  rw [sound.counted, live_leave, ← sound.live_nodup.erase_eq_filter,
    List.length_erase_of_mem member]
  exact ⟨List.length_pos_of_mem member, rfl⟩

theorem Sound.once_act (sound : Sound h b) (allowed : b.Allows h a) :
    (entered (h ++ [a])).Nodup := by
  cases a with
  | enter n =>
    have unborn := sound.unborn n (Nat.le_of_eq allowed.1.symm)
    have fresh : n ∉ entered h := by simp [(sound.lives n).mem_entered, unborn]
    rw [entered_enter]
    exact List.Nodup.append sound.once (List.nodup_singleton n) (by simpa using fresh)
  | _ =>
    rw [entered_other]
    · exact sound.once
    · simp

theorem Sound.skipping_act (sound : Sound h b) (allowed : b.Allows h a) (n : Nat)
    (member : .skip n ∈ h ++ [a]) : fixed.settings.reentrancy = .ignore := by
  rcases List.mem_append.mp member with earlier | now
  · exact sound.skipping n earlier
  · obtain rfl := List.mem_singleton.mp now
    exact ((isBusy_iff b).mp allowed.2).1

theorem Sound.working_act (sound : Sound h b) (allowed : b.Allows h a) (n : Nat)
    (w : World κ η fixed) (member : .work n w ∈ sinceRestore (h ++ [a])) :
    stages (h ++ [a]) n = .inFlight := by
  by_cases restoring : ∃ m, a = .restore m
  · obtain ⟨m, rfl⟩ := restoring
    simp [sinceRestore_restore] at member
  · have other : ∀ m, a ≠ .restore m := fun m same => restoring ⟨m, same⟩
    rw [sinceRestore_other h a other] at member
    rcases List.mem_append.mp member with earlier | now
    · exact sound.stays_inFlight allowed (sound.working n w earlier) (other n)
    · obtain rfl := List.mem_singleton.mp now
      exact sound.stays_inFlight allowed allowed (by simp)

variable [Form η]

theorem Sound.unborn_act (sound : Sound h b) (allowed : b.Allows h a) (n : Nat)
    (late : (b.act a).started ≤ n) : stages (h ++ [a]) n = .unborn := by
  have earlier : b.started ≤ (b.act a).started := by
    cases a <;> simp [act, skip, enter, change, putAside, takeUp, leave]
  have unborn := sound.unborn n (Nat.le_trans earlier late)
  by_cases mine : a.number? = some n
  · obtain ⟨⟨m, s, t⟩, passes, rfl⟩ := Option.map_eq_some_iff.mp mine
    have from_unborn : s = .unborn := (allowed.passage sound passes).symm.trans unborn
    cases a with
    | skip m | enter m =>
      cases passes
      have now : m = b.started := allowed.1
      have started : b.started + 1 ≤ m := late
      omega
    | _ => simp_all [Act.passage?]
  · rw [stages_other h a mine, unborn]

theorem Sound.waiting_act (sound : Sound h b) (allowed : b.Allows h a)
    (r : Running (World κ η fixed)) (member : r ∈ (b.act a).running) :
    stages (h ++ [a]) r.number = .inFlight := by
  cases a with
  | putAside n p =>
    rcases List.mem_append.mp member with earlier | now
    · exact sound.stays_inFlight allowed (sound.waiting r earlier) (by simp)
    · rw [List.mem_singleton.mp now]
      exact stages_passed h (.putAside n p) rfl
  | takeUp n =>
    have before := sound.waiting r (List.mem_filter.mp member).1
    exact sound.stays_inFlight allowed before (by simp)
  | restore n =>
    have apart : n ≠ r.number := (allowed.2 r member).symm
    exact sound.stays_inFlight allowed (sound.waiting r member) (by simpa using apart)
  | skip | enter | work | leave | expire | abort | outside =>
    exact sound.stays_inFlight allowed (sound.waiting r member) (by simp)

theorem Sound.counted_act (sound : Sound h b) (allowed : b.Allows h a) :
    (b.act a).inFlight = (live (h ++ [a])).length := by
  cases a with
  | enter n =>
    have unborn := sound.unborn n (Nat.le_of_eq allowed.1.symm)
    have fresh : n ∉ left h := by simp [(sound.lives n).mem_left, unborn]
    rw [live_enter h fresh, List.length_append, ← sound.counted]
    rfl
  | leave n e => exact (sound.leave_length allowed).2.symm
  | _ =>
    rw [live_other, ← sound.counted]
    · rfl
    · simp
    · simp

theorem Sound.single_act (sound : Sound h b) (allowed : b.Allows h a)
    (ignoring : fixed.settings.reentrancy = .ignore) : (b.act a).inFlight ≤ 1 := by
  have before := sound.single ignoring
  cases a with
  | enter n =>
    have idle : ¬ b.isBusy = true := by simp [allowed.2]
    rw [isBusy_iff] at idle
    have zero : b.inFlight = 0 := Nat.eq_zero_of_not_pos fun some => idle ⟨ignoring, some⟩
    exact Nat.le_of_eq (congrArg (· + 1) zero)
  | leave n e => exact Nat.le_trans (Nat.sub_le ..) before
  | _ => exact before

theorem Sound.shown_act (sound : Sound h b) (restored : ∃ n, .restore n ∈ h ++ [a])
    (resting : ∀ n w, .work n w ∉ sinceRestore (h ++ [a]))
    (unwritten : ∀ f, .outside f ∈ sinceRestore (h ++ [a]) → KeepsLook f) :
    (b.act a).world.look = (.ofText fixed.initialClass, false) := by
  by_cases restoring : ∃ m, a = .restore m
  · obtain ⟨m, rfl⟩ := restoring
    rfl
  · have other : ∀ m, a ≠ .restore m := fun m same => restoring ⟨m, same⟩
    rw [sinceRestore_other h a other] at resting unwritten
    have shown : b.world.look = (.ofText fixed.initialClass, false) := by
      apply sound.shown
      · obtain ⟨n, member⟩ := restored
        rcases List.mem_append.mp member with earlier | now
        · exact ⟨n, earlier⟩
        · exact absurd (List.mem_singleton.mp now).symm (other n)
      · exact fun n w member => resting n w (List.mem_append_left _ member)
      · exact fun f member => unwritten f (List.mem_append_left _ member)
    cases a with
    | restore m => exact absurd rfl (other m)
    | work n w => exact absurd (List.mem_append_right _ (List.mem_singleton_self _)) (resting n w)
    | outside f =>
      have keeps := unwritten f (List.mem_append_right _ (List.mem_singleton_self _))
      exact (keeps b.world).trans shown
    | abort => exact b.world.abort_look.trans shown
    | skip | enter | putAside | takeUp | leave | expire => exact shown

theorem Sound.act (sound : Sound h b) (allowed : b.Allows h a) : Sound (h ++ [a]) (b.act a) where
  lives := sound.lives_act allowed
  unborn := sound.unborn_act allowed
  waiting := sound.waiting_act allowed
  once := sound.once_act allowed
  counted := sound.counted_act allowed
  single := sound.single_act allowed
  skipping := sound.skipping_act allowed
  working := sound.working_act allowed
  shown := sound.shown_act

def AllowsAll (h : List (Act κ η fixed)) (b : Button κ η fixed) : List (Act κ η fixed) → Prop
  | [] => True
  | a :: rest => b.Allows h a ∧ AllowsAll (h ++ [a]) (b.act a) rest

theorem AllowsAll.append {as bs : List (Act κ η fixed)} (first : b.AllowsAll h as)
    (second : (b.perform as).AllowsAll (h ++ as) bs) : b.AllowsAll h (as ++ bs) := by
  induction as generalizing h b with
  | nil => simpa using second
  | cons a rest ih => exact ⟨first.1, ih first.2 (by simpa using second)⟩

theorem AllowsAll.of_append {as bs : List (Act κ η fixed)} (all : b.AllowsAll h (as ++ bs)) :
    b.AllowsAll h as ∧ (b.perform as).AllowsAll (h ++ as) bs := by
  induction as generalizing h b with
  | nil => exact ⟨trivial, by simpa using all⟩
  | cons a rest ih =>
    have later := ih all.2
    exact ⟨⟨all.1, later.1⟩, by simpa using later.2⟩

theorem Sound.perform (sound : Sound h b) {as : List (Act κ η fixed)} (all : b.AllowsAll h as) :
    Sound (h ++ as) (b.perform as) := by
  induction as generalizing h b with
  | nil => simpa using sound
  | cons a rest ih => simpa using ih (sound.act all.1) all.2

section Flying

variable {n : Nat} (flying : stages h n = .inFlight) (alone : ∀ r ∈ b.running, r.number ≠ n)

include flying alone

theorem finishing_allowed (w : World κ η fixed) (e : Ending) :
    b.AllowsAll h (finishing n w e) := by
  refine ⟨flying, ⟨?_, alone⟩, ?_, trivial⟩
  · exact stages_passed h (.work n w) rfl
  · exact stages_passed (h ++ [.work n w]) (.restore n) rfl

theorem placing_allowed (r : World κ η fixed × Status (World κ η fixed)) :
    b.AllowsAll h (placing n r) := by
  obtain ⟨w, p | o⟩ := r
  · exact ⟨flying, stages_passed h (.work n w) rfl, trivial⟩
  · exact finishing_allowed flying alone w (.outcome o)

end Flying

omit [Form η] in
/-- What is taken up again is in flight, and no longer put aside. -/
theorem Sound.takeUp (sound : Sound h b) {r : Running (World κ η fixed)} (member : r ∈ b.running) :
    b.Allows h (.takeUp r.number) ∧ stages (h ++ [.takeUp r.number]) r.number = .inFlight ∧
      ∀ s ∈ (b.takeUp r.number).running, s.number ≠ r.number := by
  refine ⟨sound.waiting r member, stages_passed h (.takeUp r.number) rfl, ?_⟩
  intro s still
  simpa using (List.mem_filter.mp still).2

omit [Form η] in
theorem Sound.running_earlier (sound : Sound h b) : ∀ r ∈ b.running, r.number ≠ b.started := by
  intro r member same
  have unborn := sound.unborn r.number (Nat.le_of_eq same.symm)
  exact absurd ((sound.waiting r member).symm.trans unborn) Stage.noConfusion

theorem Sound.acts_allowed (sound : Sound h b) (m : Move κ η fixed) :
    b.AllowsAll h (b.acts m) := by
  cases m with
  | activate =>
    by_cases busy : b.isBusy = true
    · rw [acts, if_pos busy]
      exact ⟨⟨rfl, busy⟩, trivial⟩
    · rw [acts, if_neg busy]
      have flying := stages_passed h (.enter b.started) rfl
      refine ⟨⟨rfl, by simpa using busy⟩, placing_allowed flying ?_ _⟩
      exact sound.running_earlier
  | resume ticket signal =>
    rw [acts]
    cases found : b.running.find? (·.paused.ticket = ticket) with
    | none => trivial
    | some r =>
      obtain ⟨allowed, flying, alone⟩ := sound.takeUp (List.mem_of_find?_eq_some found)
      exact ⟨allowed, placing_allowed flying alone _⟩
  | drop number =>
    rw [acts]
    cases found : b.running.find? (·.number = number) with
    | none => trivial
    | some r =>
      have same : r.number = number := by simpa using List.find?_some found
      obtain ⟨allowed, flying, alone⟩ := sound.takeUp (List.mem_of_find?_eq_some found)
      rw [same] at allowed flying alone
      exact ⟨allowed, finishing_allowed flying alone _ _⟩
  | expire | abort | outside => exact ⟨trivial, trivial⟩

theorem Sound.history_allowed (sound : Sound h b) (moves : List (Move κ η fixed)) :
    b.AllowsAll h (b.history moves) := by
  induction moves generalizing h b with
  | nil => trivial
  | cons m rest ih =>
    have now := sound.acts_allowed m
    apply AllowsAll.append now
    rw [← move_eq]
    exact ih (move_eq b m ▸ sound.perform now)

/-- Between two moves, the live activations are those that wait. -/
def AtRest (h : List (Act κ η fixed)) (b : Button κ η fixed) : Prop :=
  (live h).Perm (b.running.map (·.number))

section Placing

variable {n : Nat} (alone : ∀ r ∈ b.running, r.number ≠ n)
  (working : (live h).Perm (n :: b.running.map (·.number)))

include working

theorem finishing_atRest (alone : ∀ r ∈ b.running, r.number ≠ n) (w : World κ η fixed)
    (e : Ending) : AtRest (h ++ finishing n w e) (b.perform (finishing n w e)) := by
  have worked : live (h ++ [.work n w, .restore n]) = live h := by
    rw [List.append_cons, live_other, live_other] <;> simp
  have left_behind := live_leave (h ++ [.work n w, .restore n]) n e
  rw [worked, List.append_assoc] at left_behind
  have gone := working.filter (· != n)
  have others : (n :: b.running.map (·.number)).filter (· != n) = b.running.map (·.number) := by
    rw [List.filter_cons_of_neg (by simp), List.filter_eq_self]
    intro m member
    obtain ⟨r, waits, rfl⟩ := List.mem_map.mp member
    simpa using alone r waits
  rw [others, ← left_behind] at gone
  exact gone

theorem placing_atRest (alone : ∀ r ∈ b.running, r.number ≠ n)
    (r : World κ η fixed × Status (World κ η fixed)) :
    AtRest (h ++ placing n r) (b.perform (placing n r)) := by
  obtain ⟨w, p | o⟩ := r
  · have worked : live (h ++ [.work n w, .putAside n p]) = live h := by
      rw [List.append_cons, live_other, live_other] <;> simp
    have waits : (b.perform [.work n w, .putAside n p]).running.map (·.number) =
        b.running.map (·.number) ++ [n] := List.map_append
    rw [placing, AtRest, worked, waits]
    exact working.trans (List.perm_append_singleton n _).symm
  · exact finishing_atRest working alone w (.outcome o)

end Placing

theorem AtRest.takeUp (rest : AtRest h b) (sound : Sound h b) {r : Running (World κ η fixed)}
    (member : r ∈ b.running) :
    (live (h ++ [.takeUp r.number])).Perm
      (r.number :: (b.act (.takeUp r.number)).running.map (·.number)) := by
  have nodup : (b.running.map (·.number)).Nodup := rest.nodup_iff.mp sound.live_nodup
  have others : (b.act (.takeUp r.number)).running.map (·.number) =
      (b.running.map (·.number)).erase r.number := takeUp_numbers nodup
  have same : live (h ++ [.takeUp r.number]) = live h := by
    rw [live_other] <;> simp
  rw [same, others]
  exact rest.trans (List.perm_cons_erase (List.mem_map_of_mem member))

theorem Sound.acts_atRest (sound : Sound h b) (rest : AtRest h b) (m : Move κ η fixed) :
    AtRest (h ++ b.acts m) (b.perform (b.acts m)) := by
  cases m with
  | activate =>
    by_cases busy : b.isBusy = true
    · have same : live (h ++ [.skip b.started]) = live h := by
        rw [live_other] <;> simp
      rw [acts, if_pos busy, AtRest, same]
      exact rest
    · have unborn := sound.unborn b.started (Nat.le_refl _)
      have fresh : b.started ∉ left h := by simp [(sound.lives b.started).mem_left, unborn]
      have working : (live (h ++ [.enter b.started])).Perm
          (b.started :: (b.act (.enter b.started)).running.map (·.number)) := by
        rw [live_enter h fresh]
        exact (List.perm_append_singleton b.started (live h)).trans (rest.cons b.started)
      have placed := placing_atRest working sound.running_earlier
        (Activation.start b.success b.reject b.world)
      rw [acts, if_neg busy]
      simpa using placed
  | resume ticket signal =>
    rw [acts]
    cases found : b.running.find? (·.paused.ticket = ticket) with
    | none => simpa using rest
    | some r =>
      have member := List.mem_of_find?_eq_some found
      have placed := placing_atRest (rest.takeUp sound member) (sound.takeUp member).2.2
        (Activation.resume b.reject r.paused signal b.world)
      simpa using placed
  | drop number =>
    rw [acts]
    cases found : b.running.find? (·.number = number) with
    | none => simpa using rest
    | some r =>
      have same : r.number = number := by simpa using List.find?_some found
      have member := List.mem_of_find?_eq_some found
      have finished := finishing_atRest (rest.takeUp sound member) (sound.takeUp member).2.2
        (b.world.forget r.paused.ticket) .dropped
      simpa [same] using finished
  | expire | abort | outside =>
    rw [acts, AtRest, live_other]
    · exact rest
    · simp
    · simp

theorem Sound.run_atRest (sound : Sound h b) (rest : AtRest h b)
    (moves : List (Move κ η fixed)) : AtRest (h ++ b.history moves) (b.run moves) := by
  induction moves generalizing h b with
  | nil => simpa [history, run] using rest
  | cons m later ih =>
    have moved := ih (sound.perform (sound.acts_allowed m)) (sound.acts_atRest rest m)
    rw [← move_eq, List.append_assoc] at moved
    exact moved

omit [Form η] in
theorem sound_ofChains (chains : Chains (Step (World κ η fixed))) (w : World κ η fixed) :
    Sound [] { chains, world := w : Button κ η fixed } where
  lives _ := .unborn
  unborn _ _ := rfl
  waiting _ member := absurd member List.not_mem_nil
  once := List.nodup_nil
  counted := rfl
  single _ := Nat.zero_le 1
  skipping _ member := absurd member List.not_mem_nil
  working _ _ member := absurd member List.not_mem_nil
  shown := fun ⟨_, member⟩ => absurd member List.not_mem_nil

omit [Form η] in
theorem Sound.restored (sound : Sound h b) (idle : b.inFlight = 0) (some : entered h ≠ [])
    (unwritten : ∀ f, .outside f ∈ sinceRestore h → KeepsLook f) :
    b.world.look = (.ofText fixed.initialClass, false) := by
  have none_live (n : Nat) : n ∉ live h := by
    rw [List.eq_nil_of_length_eq_zero (sound.counted.symm.trans idle)]
    exact List.not_mem_nil
  refine sound.shown ?_ (fun n w member => ?_) unwritten
  · obtain ⟨n, member⟩ := List.exists_mem_of_ne_nil _ some
    refine ⟨n, Life.restored_once (n := n) ?_⟩
    have life := sound.lives n
    have dead := life.mem_live.not.mp (none_live n)
    have born := life.mem_entered.mp member
    cases stage : stages h n <;> simp_all
  · exact none_live n ((sound.lives n).mem_live.mpr (.inl (sound.working n w member)))

omit [Form η] in
theorem isBusy_false (free : fixed.settings.reentrancy = .ignore → b.inFlight = 0) :
    b.isBusy = false := by
  rw [← Bool.not_eq_true, isBusy_iff]
  rintro ⟨ignoring, some⟩
  exact Nat.lt_irrefl 0 (free ignoring ▸ some)

end Step

/-- The accounts after the acts `done` of a history `h`. -/
structure Balanced (h done : List (Act κ η fixed)) (b : Button κ η fixed) : Prop where
  /-- Each activation enters, works, restores the element once and leaves, in this order. -/
  lives : ∀ n, ∃ stage, Life n (lifeOf n done) stage
  counted : b.inFlight = (live done).length
  /-- The counter is never counted down from zero. -/
  positive : ∀ n e, done ++ [.leave n e] <+: h → 0 < b.inFlight
  restored : b.inFlight = 0 → entered done ≠ [] →
    (∀ f, .outside f ∈ sinceRestore done → KeepsLook f) →
    b.world.look = (ClassList.distinctWords fixed.initialClass, false)
  single : fixed.settings.reentrancy = .ignore → b.inFlight ≤ 1
  emptied : fixed.settings.reentrancy = .ignore →
    ∀ n e, done ++ [.leave n e] <+: h → (b.leave n e).inFlight = 0
  unskipped : fixed.settings.reentrancy = .allow → ∀ n, .skip n ∉ done

/-- The accounts between two moves: the activations that are not over are those that wait, and a call
is skipped, and then changes nothing else, exactly if activations in flight have to be respected. -/
structure Resting (h : List (Act κ η fixed)) (b : Button κ η fixed) : Prop where
  waiting : (live h).Perm (b.running.map (·.number))
  skipped : fixed.settings.reentrancy = .ignore → 0 < b.inFlight → b.activate =
    { b with started := b.started + 1, endings := b.endings ++ [(b.started, .outcome .skipped)] }
  started : (fixed.settings.reentrancy = .ignore → b.inFlight = 0) →
    ∃ later, b.acts .activate = .enter b.started :: later

/-- In whatever order a button is called and its activations go on, are aborted and dropped, the
accounts are right between any two acts. What is restored are the classes of the element as it was
when the button was made. -/
theorem activations_accounted [Form η] (settings : ButtonSettings) (element : Element κ) (page : η)
    (chains : Chains (Step (World κ η ⟨settings, element.classes.text⟩)))
    (moves : List (Move κ η ⟨settings, element.classes.text⟩)) :
    let b := ofChains settings element page chains
    let h := b.history moves
    b.run moves = b.perform h ∧
      (∀ done, done <+: h → Balanced h done (b.perform done)) ∧ Resting h (b.run moves) ∧
      (element.classes.Clean →
        ClassList.distinctWords element.classes.text = element.classes) := by
  intro b h
  have new : Sound [] b := sound_ofChains chains _
  have allowed : b.AllowsAll [] h := new.history_allowed moves
  refine ⟨run_eq b moves, ?_, ?_, ?_⟩
  · intro done part
    obtain ⟨later, whole⟩ := part
    have sound : Sound done (b.perform done) := by
      simpa using new.perform (whole ▸ allowed).of_append.1
    have leaving (n : Nat) (e : Ending) (next : done ++ [.leave n e] <+: h) :
        (b.perform done).Allows done (.leave n e) := by
      obtain ⟨rest, parts⟩ := next
      simpa using (parts ▸ allowed).of_append.1.of_append.2.1
    constructor
    case lives => exact fun n => ⟨_, sound.lives n⟩
    case counted => exact sound.counted
    case positive => exact fun n e next => (sound.leave_length (leaving n e next)).1
    case restored => exact ClassList.ofText_eq_distinctWords _ ▸ sound.restored
    case single => exact sound.single
    case emptied =>
      intro ignoring n e next
      have one := sound.single ignoring
      exact Nat.sub_eq_zero_of_le one
    case unskipped =>
      intro allowing n member
      exact absurd (allowing.symm.trans (sound.skipping n member)) (by decide)
  · have rest : AtRest h (b.run moves) := by
      simpa using new.run_atRest (List.Perm.refl []) moves
    constructor
    case waiting => exact rest
    case skipped =>
      intro ignoring some
      exact if_pos ((isBusy_iff _).mpr ⟨ignoring, some⟩)
    case started =>
      intro free
      exact ⟨_, if_neg (by simp [isBusy_false free])⟩
  · intro clean
    rw [← ClassList.ofText_eq_distinctWords]
    exact clean.ofText_text

end Button

end ActionChain
