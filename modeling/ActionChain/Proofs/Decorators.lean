import ActionChain.Bench.ScriptedForm
import ActionChain.Proofs.ClassOrder
import ActionChain.Proofs.Touches

/-!
Decorators. `okay` and `bummer` take every decorator off and put theirs on; `spinner` only puts one
on. Main statement `decorators_shown`: when one of the first two has run, and until something else
writes classes, the element has its own classes in their order and then the one decorator, and so it
is after any number of such steps.
-/
namespace ActionChain

/-- The class that alone is left of the decorators when an action has put it on. -/
def Action.shown? (settings : ButtonSettings) : Action → Option String
  | .okay _ => some settings.okayClass
  | .bummer _ => some settings.bummerClass
  | _ => none

/-- The action writes decorators, and nothing else of the classes. -/
inductive Action.Decorates : Action → Prop
  | spinner : Decorates .spinner
  | okay (pause : Option Micros) : Decorates (.okay pause)
  | bummer (pause : Option Micros) : Decorates (.bummer pause)

namespace ClassList

def plain (settings : ButtonSettings) (cs : ClassList) : ClassList :=
  cs.filter (· ∉ settings.decorators)

def carried (settings : ButtonSettings) (cs : ClassList) : ClassList :=
  cs.filter (· ∈ settings.decorators)

/-- A list that shows one decorator, beside the other classes that another list has. -/
structure Shows (settings : ButtonSettings) (c : String) (before now : ClassList) : Prop where
  whole : now = before.plain settings ++ [c]
  decorator : now.carried settings = [c]
  others : now.plain settings = before.plain settings
  once : before.Nodup → now.Nodup

variable {settings : ButtonSettings} {c : String} {cs before other now : ClassList}

theorem removeAll_eq (names : List String) (cs : ClassList) :
    names.foldl (fun cs d => cs.remove d) cs = cs.filter (· ∉ names) := by
  induction names generalizing cs with
  | nil => simp
  | cons d rest ih =>
    rw [List.foldl_cons, ih, remove, List.filter_filter]
    refine List.filter_congr fun e _ => ?_
    by_cases same : e = d <;> simp [same]

theorem plain_plain : (plain settings cs).plain settings = cs.plain settings := by
  rw [plain, plain, List.filter_filter]
  exact List.filter_congr fun d _ => Bool.and_self _

theorem plain_add (listed : c ∈ settings.decorators) :
    (cs.add c).plain settings = cs.plain settings := by
  by_cases present : c ∈ cs
  · rw [add_present present]
  · rw [add_absent present, plain, List.filter_append, plain]
    simp [listed]

theorem absent_plain (listed : c ∈ settings.decorators) : c ∉ cs.plain settings := by
  simp [plain, listed]

theorem shows_of_plain (listed : c ∈ settings.decorators) :
    Shows settings c cs (cs.plain settings ++ [c]) where
  whole := rfl
  decorator := by
    have none : (plain settings cs).carried settings = [] := by
      refine List.filter_eq_nil_iff.mpr fun d mem => ?_
      simpa using (List.mem_filter.mp mem).2
    rw [carried, List.filter_append]
    rw [carried] at none
    simp [none, listed]
  others := by
    rw [plain, List.filter_append]
    rw [← plain, plain_plain]
    simp [listed]
  once nodup := by
    refine (nodup.filter _).append (List.nodup_singleton c) ?_
    exact List.disjoint_singleton.mpr (absent_plain listed)

/-- What is shown depends on the other classes only. -/
theorem Shows.congr (shows : Shows settings c before now)
    (same : other.plain settings = before.plain settings) (listed : c ∈ settings.decorators) :
    Shows settings c other now := by
  rw [shows.whole, ← same]
  exact shows_of_plain listed

end ClassList

open ClassList (Shows)

variable {κ η : Type} {fixed : Fixed} [Form η] {react : React κ η fixed}

section Steps

variable {a : Action} {c : String}

theorem Action.shown?_listed (shown : a.shown? fixed.settings = some c) :
    c ∈ fixed.settings.decorators := by
  cases a with
  | okay | bummer =>
    obtain rfl := Option.some.inj shown
    simp [ButtonSettings.decorators]
  | _ => cases shown

omit [Form η] in
theorem World.showDecorator_shows (listed : c ∈ fixed.settings.decorators) (pause : Micros)
    (value : Option Response) (w : World κ η fixed) :
    Shows fixed.settings c w.element.classes
      (w.showDecorator c pause value).1.element.classes := by
  have classes : (w.decorate c).element.classes =
      w.element.classes.plain fixed.settings ++ [c] := by
    show ClassList.add c _ = _
    rw [ClassList.removeAll_eq]
    exact ClassList.add_absent (ClassList.absent_plain listed)
  rw [(w.showDecorator_frame c pause value).1, classes]
  exact ClassList.shows_of_plain listed

theorem Action.run_shows (shown : a.shown? fixed.settings = some c) (input : Option Response)
    (w : World κ η fixed) :
    Shows fixed.settings c w.element.classes (a.run react input w).1.element.classes := by
  have listed := shown?_listed shown
  cases a with
  | okay | bummer =>
    obtain rfl := Option.some.inj shown
    exact World.showDecorator_shows listed _ input w
  | _ => cases shown

/-- A decorator that comes or goes leaves all other classes in their order. -/
theorem Action.Decorates.plain (decorates : a.Decorates) (input : Option Response)
    (w : World κ η fixed) : (a.run react input w).1.element.classes.plain fixed.settings =
      w.element.classes.plain fixed.settings := by
  cases decorates with
  | spinner => exact ClassList.plain_add (by simp [ButtonSettings.decorators])
  | okay pause => exact (run_shows (a := .okay pause) rfl input w).others
  | bummer pause => exact (run_shows (a := .bummer pause) rfl input w).others

end Steps

namespace Touch

/-- The start of a step that writes decorators only. -/
inductive Decorates (react : React κ η fixed) : Touch κ η fixed → Prop
  | mk (number : Nat) (phase : Phase) {a : Action} (input : Option Response)
    (w : World κ η fixed) : a.Decorates →
    Decorates react (.step number (.starts phase (a.run react) input w))

omit [Form η] in
/-- No classes are written. -/
def Quiet (x : Touch κ η fixed) : Prop := x.after.element.classes = x.before.element.classes

variable {v w : Element κ} {xs : List (Touch κ η fixed)}

omit [Form η] in
theorem Lead.quiet (lead : Lead v xs w) (quiet : ∀ x ∈ xs, x.Quiet) :
    w.classes = v.classes ∧ ∀ x ∈ xs, x.after.element.classes = v.classes := by
  induction lead with
  | nil => exact ⟨rfl, nofun⟩
  | cons x _ ih =>
    obtain ⟨now, later⟩ := List.forall_mem_cons.mp quiet
    obtain ⟨last, each⟩ := ih later
    have same : x.after.element.classes = x.before.element.classes := now
    refine ⟨last.trans same, List.forall_mem_cons.mpr ⟨same, fun y mem => ?_⟩⟩
    exact (each y mem).trans same

theorem Lead.plain (lead : Lead v xs w) (decorates : ∀ x ∈ xs, x.Decorates react ∨ x.Quiet) :
    w.classes.plain fixed.settings = v.classes.plain fixed.settings ∧
      ∀ x ∈ xs, w.classes.plain fixed.settings =
        x.before.element.classes.plain fixed.settings := by
  induction lead with
  | nil => exact ⟨rfl, nofun⟩
  | cons x _ ih =>
    obtain ⟨now, later⟩ := List.forall_mem_cons.mp decorates
    obtain ⟨last, each⟩ := ih later
    have same : x.after.element.classes.plain fixed.settings =
        x.before.element.classes.plain fixed.settings := by
      rcases now with ⟨n, phase, input, w, written⟩ | quiet
      · exact written.plain input w
      · exact congrArg _ quiet
    exact ⟨last.trans same, List.forall_mem_cons.mpr ⟨last.trans same, each⟩⟩

end Touch

namespace Button

/-- On buttons with any plan, whatever happens to them: a step that shows a decorator leaves the
classes that are no decorators, in their order, and then its own. If only decorators are written
up to its start, then this is so of the classes from before any of them; and so it stays, paused or
not, until classes are written again. -/
theorem decorators_shown (react : React κ η fixed) (plan : Chains Action) (w : World κ η fixed)
    (moves : List (Move κ η fixed)) {a : Action} {c : String}
    (shown : a.shown? fixed.settings = some c) :
    let first : Button κ η fixed := { chains := plan.map (Action.run react), world := w }
    (∀ input v, Shows fixed.settings c v.element.classes
      (a.run react input v).1.element.classes) ∧
    ∀ earlier during since later n phase input v,
      let start : Touch κ η fixed := .step n (.starts phase (a.run react) input v)
      first.touchesAll moves = earlier ++ during ++ start :: since ++ later →
      (∀ x ∈ during, x.Decorates react ∨ x.Quiet) → (∀ x ∈ since, x.Quiet) →
      ∀ x ∈ start :: during,
        (∀ y ∈ start :: since,
          Shows fixed.settings c x.before.element.classes y.after.element.classes) ∧
        (later = [] → Shows fixed.settings c x.before.element.classes
          (first.run moves).world.element.classes) := by
  intro first
  have listed := Action.shown?_listed shown
  refine ⟨Action.run_shows shown, ?_⟩
  intro earlier during since later n phase input v start touched decorates quiet
  have lead := touches_linked react plan w moves
  dsimp only at lead
  rw [touched] at lead
  -- The touches are cut behind the quiet ones, before the start of the step, and before the stretch.
  obtain ⟨u, lead, last⟩ := Linked.split lead
  obtain ⟨t, lead, stays⟩ := Linked.split lead
  obtain ⟨s, -, comes⟩ := Linked.split lead
  cases stays with
  | cons _ stays =>
    obtain ⟨left, kept⟩ := Touch.Lead.quiet stays quiet
    obtain ⟨-, others⟩ := Touch.Lead.plain comes decorates
    have run : Shows fixed.settings c v.element.classes
        (a.run react input v).1.element.classes := Action.run_shows shown input v
    intro x mem
    have same : x.before.element.classes.plain fixed.settings =
        v.element.classes.plain fixed.settings := by
      rcases List.mem_cons.mp mem with rfl | earlier
      · rfl
      · exact (others x earlier).symm
    have shows := run.congr same listed
    constructor
    · intro y mem
      rcases List.mem_cons.mp mem with rfl | later
      · exact shows
      · exact kept y later ▸ shows
    · rintro rfl
      cases last
      exact left ▸ shows

/-- Two decorators are the same class here, and the button had the third one on. -/
theorem decorators_shown_pause :
    let settings : ButtonSettings :=
      { spinnerClass := "busy", okayClass := "done", bummerClass := "busy" }
    let plan : Chains Action := ⟨[⟨⟨"spinner", []⟩, [], .spinner⟩,
      ⟨⟨"bummer", [.number (.ofNat 5)]⟩, [], .bummer (some 5000)⟩], []⟩
    let react : React Unit Bench.ScriptedForm ⟨settings, "btn"⟩ := fun _ _ w => w
    let first : Button Unit Bench.ScriptedForm ⟨settings, "btn"⟩ :=
      { chains := plan.map (Action.run react)
        world := { element := { id := "save", classes := ["btn", "done", "big"] }, page := {} } }
    let paused := first.run [.activate, .expire 4]
    paused.running.length = 1 ∧
      Shows settings "busy" ["btn", "done", "big"] paused.world.element.classes ∧
      paused.world.element.classes = ["btn", "big", "busy"] := by
  intro settings plan react first paused
  have shown : (Action.bummer (some 5000)).shown? settings = some "busy" := rfl
  obtain ⟨-, stretch⟩ := decorators_shown react plan first.world [.activate, .expire 4] shown
  let w := (Action.spinner.run react none first.world).1
  let begun : Touch Unit Bench.ScriptedForm ⟨settings, "btn"⟩ :=
    .step 0 (.starts .success (Action.spinner.run react) none first.world)
  let settled : Touch Unit Bench.ScriptedForm ⟨settings, "btn"⟩ := .step 0 (.settles (.ok none) w)
  have decorates : ∀ x ∈ [begun, settled], x.Decorates react ∨ x.Quiet := by
    intro x mem
    rcases List.mem_pair.mp mem with rfl | rfl
    · exact .inl (.mk 0 .success none first.world .spinner)
    · exact .inr rfl
  have shows := (stretch [] [begun, settled] [] [] 0 .success none w rfl decorates nofun begun
    (by simp)).2 rfl
  exact ⟨rfl, shows, shows.whole⟩

end Button

end ActionChain
