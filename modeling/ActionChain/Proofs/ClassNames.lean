import ActionChain.Bench.ScriptedForm
import ActionChain.Proofs.ClassLists
import ActionChain.Proofs.Invariants
import ActionChain.Proofs.Layering
import ActionChain.Proofs.Locations
import ActionChain.Proofs.Signatures

/-!
The classes that an element has while a button is in use. Arguments and attributes only bring words
in, each once, but the settings bring in their decorators as they are. Main statement
`reads_back_iff`: whatever happens, the class list can be read back from its text if and only if all
decorators are words.
-/
namespace ActionChain

open ClassList (IsName Of Clean)

variable {κ η : Type} {fixed : Fixed} {P : κ → Prop}

section Edits

/-- What is done to a class list from outside of the actions. -/
inductive ClassEdit
  | set (text : String)
  | add (name : String)
  | remove (name : String)
  | toggle (name : String)

namespace ClassEdit

def apply (cs : ClassList) : ClassEdit → ClassList
  | .set text => .ofText text
  | .add c => cs.add c
  | .remove c => cs.remove c
  | .toggle c => cs.toggle c

/-- The name is a word. A text may be any, as its words are taken. -/
def Proper : ClassEdit → Prop
  | .set _ => True
  | .add c | .remove c | .toggle c => IsName c

theorem apply_of {kind : String → Prop} (words : ∀ c, IsName c → kind c) {cs : ClassList}
    (of : Of kind cs) {e : ClassEdit} (proper : e.Proper) : Of kind (e.apply cs) := by
  cases e with
  | set text => exact (ClassList.clean_ofText text).mono words
  | add c => exact of.add (words c proper)
  | remove c => exact of.remove c
  | toggle c => exact of.toggle (words c proper)

theorem applyAll_of {kind : String → Prop} (words : ∀ c, IsName c → kind c) {cs : ClassList}
    (of : Of kind cs) {edits : List ClassEdit} (proper : ∀ e ∈ edits, e.Proper) :
    Of kind (edits.foldl apply cs) := by
  induction edits generalizing cs with
  | nil => exact of
  | cons e rest ih =>
    obtain ⟨now, later⟩ := List.forall_mem_cons.mp proper
    exact ih (apply_of words of now) later

end ClassEdit

/-- A change of the world that edits the class list properly, if at all, and lets no other listeners
in. -/
structure Dresses (P : κ → Prop) (v w : World κ η fixed) : Prop where
  edits : ∃ edits : List ClassEdit, (∀ e ∈ edits, e.Proper) ∧
    w.element.classes = edits.foldl ClassEdit.apply v.element.classes
  heard : v.HeardBy P → w.HeardBy P

end Edits

/-- A class that an element may have: a word, or a decorator of the settings. -/
def ButtonSettings.Allows (settings : ButtonSettings) (c : String) : Prop :=
  IsName c ∨ c ∈ settings.decorators

namespace World

/-- The listeners are of a kind, and the classes are there once and allowed. -/
structure Dressed (P : κ → Prop) (w : World κ η fixed) : Prop where
  heard : w.HeardBy P
  classes : Of fixed.settings.Allows w.element.classes

section Dressed

variable {v w : World κ η fixed} {react : React κ η fixed}

theorem Dressed.of_element (dressed : v.Dressed P) (same : w.element = v.element) :
    w.Dressed P := by
  constructor
  · rw [HeardBy, same]
    exact dressed.heard
  · rw [same]
    exact dressed.classes

theorem Dressed.change {change : ClassList → ClassList} (dressed : w.Dressed P)
    (keeps : ∀ cs, Of fixed.settings.Allows cs → Of fixed.settings.Allows (change cs)) :
    (w.changeClasses change).Dressed P :=
  ⟨dressed.heard, keeps _ dressed.classes⟩

theorem Dressed.dresses (dressed : v.Dressed P) (dresses : Dresses P v w) : w.Dressed P := by
  obtain ⟨⟨edits, proper, same⟩, heard⟩ := dresses
  refine ⟨heard dressed.heard, ?_⟩
  rw [same]
  exact ClassEdit.applyAll_of (fun _ => .inl) dressed.classes proper

theorem Dressed.restore (dressed : w.Dressed P) : w.restore.Dressed P :=
  ⟨dressed.heard, (ClassList.clean_ofText fixed.initialClass).mono fun _ => .inl⟩

theorem Dressed.dispatch (dressed : w.Dressed P) (attend : ∀ k e w, P k → Dresses P w (react k e w))
    (e : Event) : (w.dispatch react e).1.Dressed P := by
  have called : ∀ k ∈ w.element.target.callbacks e.type, P k := by
    intro k mem
    obtain ⟨l, hears, rfl⟩ := List.mem_map.mp mem
    exact dressed.heard l (List.mem_of_mem_filter hears)
  rw [World.dispatch, EventTarget.dispatch]
  generalize w.element.target.callbacks e.type = ks at called
  induction ks generalizing w with
  | nil => exact dressed
  | cons k rest ih =>
    obtain ⟨now, later⟩ := List.forall_mem_cons.mp called
    exact ih (dressed.dresses (attend k e w now)) later

theorem Dressed.navigate (dressed : w.Dressed P) (attend : ∀ k e w, P k → Dresses P w (react k e w))
    (url : String) : (w.navigate react url).Dressed P := by
  have there : World.Dressed P { w with element := { w.element with location := url } } :=
    ⟨dressed.heard, dressed.classes⟩
  exact there.dispatch attend _

/-- The decorators are taken off before one of them is put on. -/
theorem Dressed.decorate (dressed : w.Dressed P) {c : String}
    (listed : c ∈ fixed.settings.decorators) : (w.decorate c).Dressed P := by
  refine dressed.change fun cs of => Of.add ?_ (.inr listed)
  generalize fixed.settings.decorators = ds
  induction ds generalizing cs with
  | nil => exact of
  | cons d rest ih => exact ih _ (of.remove d)

theorem Dressed.showDecorator (dressed : w.Dressed P) {c : String}
    (listed : c ∈ fixed.settings.decorators) (pause : Micros) (value : Option Response) :
    (w.showDecorator c pause value).1.Dressed P :=
  (dressed.decorate listed).of_element (w.showDecorator_frame c pause value).1

theorem dressed_lasting [Form η] :
    World.Lasting (Dressed P : World κ η fixed → Prop) :=
  lasting_of_element (fun _ _ same dressed => dressed.of_element same) fun _ => Dressed.restore

end Dressed

end World

namespace Action

/-- The class that an action adds or toggles is a word. -/
def Proper : Action → Prop
  | .addClass c | .toggleClass c => IsName c
  | _ => True

theorem ofCall_proper {name : String} {args : List Bound} {a : Action}
    (made : ofCall name args = .ok a) : a.Proper := by
  obtain rfl := ofCall_name made
  obtain ⟨sig, known, takes⟩ := takes_of_ofCall made
  cases a with
  | addClass c | toggleClass c =>
    cases Option.some.inj known
    obtain ⟨b, _, -, ⟨⟩, first⟩ := takes_one.mp takes
    exact isClassName_iff.mp (takes_className.mp first).2
  | _ => trivial

theorem run_dressed [Form η] {react : React κ η fixed}
    (attend : ∀ k e w, P k → Dresses P w (react k e w)) {a : Action} (proper : a.Proper)
    (input : Option Response) {w : World κ η fixed} (dressed : w.Dressed P) :
    (a.run react input w).1.Dressed P := by
  cases a with
  | addClass c => exact dressed.change fun cs of => of.add (.inl proper)
  | removeClass c => exact dressed.change fun cs of => of.remove c
  | toggleClass c => exact dressed.change fun cs of => of.toggle (.inl proper)
  | spinner => exact dressed.change fun cs of => of.add (.inr (by simp [ButtonSettings.decorators]))
  | okay pause => exact dressed.showDecorator (by simp [ButtonSettings.decorators]) _ _
  | bummer pause => exact dressed.showDecorator (by simp [ButtonSettings.decorators]) _ _
  | delay pause => exact dressed.of_element (w.sleep_frame _ _).1
  | submit data => exact dressed.of_element (w.submit_frame _).1
  | emit type detail => exact dressed.dispatch attend _
  | activate args => exact dressed.dispatch attend _
  | reload => exact dressed.navigate attend _
  | proceed fallback =>
    cases goal : destination? fallback input with
    | none =>
      simp only [run, goal]
      exact dressed
    | some url =>
      simp only [run, goal]
      exact dressed.navigate attend url
  | disable | enable => exact ⟨dressed.heard, dressed.classes⟩
  | reset | clearErrors | intercept | noop => exact dressed.of_element rfl

theorem run_keeps_dressed [Form η] {react : React κ η fixed}
    (attend : ∀ k e w, P k → Dresses P w (react k e w)) {a : Action} (proper : a.Proper) :
    Step.Keeps (World.Dressed P) (a.run react) where
  starts input w dressed := a.run_dressed attend proper input dressed
  resumes input w ticket resume waits signal v dressed := by
    rwa [a.run_idle react waits]

end Action

/-- A class list that the element of a button with these settings may come to have, with any chains
of the actions and whatever happens to the button. Listeners and whoever else acts on the element
may edit the list, but only properly. -/
inductive Wears (settings : ButtonSettings) : ClassList → Prop
  | mk {κ η : Type} [Form η] {P : κ → Prop} {element : Element κ} {text source : String} {page : η}
      {react : React κ η ⟨settings, element.classes.text⟩}
      {b : Button κ η ⟨settings, element.classes.text⟩}
      {moves : List (Move κ η ⟨settings, element.classes.text⟩)}
      {w : World κ η ⟨settings, element.classes.text⟩} :
      element.classes = .ofText text →
      Button.create settings element page (.ofActions (Action.run react)) source = .ok b →
      (∀ l ∈ element.target.listeners, P l.callback) →
      (∀ k e w, P k → Dresses P w (react k e w)) →
      (∀ f, .outside f ∈ moves → ∀ w, Dresses P w (f w)) →
      b.Visits moves w → Wears settings w.element.classes

section Wearing

variable {settings : ButtonSettings}

theorem Catalogue.compile_ofActions {τ : Type} (embed : Action → τ) (source : String) :
    (ofActions embed).compile source = Chains.map embed <$> actions.compile source := by
  unfold compile
  split
  · exact build_ofActions embed _
  · rfl

theorem Button.create_eq {element : Element κ} {page : η} [Form η]
    {react : React κ η ⟨settings, element.classes.text⟩} {source : String}
    {b : Button κ η ⟨settings, element.classes.text⟩} :
    Button.create settings element page (.ofActions (Action.run react)) source = .ok b ↔
      ∃ plan, Catalogue.actions.compile source = .ok plan ∧
        b = .ofChains settings element page (plan.map (Action.run react)) := by
  rw [create, Catalogue.compile_ofActions]
  cases Catalogue.actions.compile source with
  | error f => simp [Functor.map, Except.map]
  | ok plan => simp [Functor.map, Except.map, eq_comm]

theorem Catalogue.compile_proper {source : String} {plan : Chains Action}
    (compiled : actions.compile source = .ok plan) :
    ∀ r ∈ plan.success ++ plan.reject, r.step.Proper := by
  unfold compile at compiled
  split at compiled
  · obtain ⟨-, -, made⟩ := build_actions compiled
    exact fun r mem => Action.ofCall_proper (made r mem)
  · cases compiled

theorem wears_allowed {cs : ClassList} (wears : Wears settings cs) : Of settings.Allows cs := by
  obtain @⟨κ, η, form, P, element, text, source, page, react, b, moves, w, initial, created, heard,
    attend, outside, visited⟩ := wears
  obtain ⟨plan, compiled, rfl⟩ := Button.create_eq.mp created
  have proper := Catalogue.compile_proper compiled
  have keeps {rs : List (Resolved Action)} (proper : ∀ r ∈ rs, r.step.Proper) :
      ∀ step ∈ (rs.map (·.map (Action.run react))).map (·.step),
        Step.Keeps (World.Dressed P) step := by
    intro step mem
    rw [Resolved.map_steps] at mem
    obtain ⟨r, planned, rfl⟩ := List.mem_map.mp mem
    exact Action.run_keeps_dressed attend (proper r planned)
  let first := Button.ofChains settings element page (plan.map (Action.run react))
  have success : ∀ step ∈ first.success, Step.Keeps (World.Dressed P) step :=
    keeps fun r mem => proper r (List.mem_append_left _ mem)
  have reject : ∀ step ∈ first.reject, Step.Keeps (World.Dressed P) step :=
    keeps fun r mem => proper r (List.mem_append_right _ mem)
  have dressed : first.world.Dressed P := by
    refine ⟨heard, ?_⟩
    show Of settings.Allows element.classes
    rw [initial]
    exact (ClassList.clean_ofText text).mono fun _ => .inl
  have maintains : first.Maintains (World.Dressed P) moves := by
    apply Button.maintains_run World.dressed_lasting success reject rfl dressed
    exact fun f mem w dressed => dressed.dresses (outside f mem w)
  exact (maintains.visits w visited).classes

/-- The button passes through the world that the first step of its first activation leaves. -/
theorem Button.visits_first [Form η] {b : Button κ η fixed} {step : Step (World κ η fixed)}
    {rest : List (Step (World κ η fixed))} (free : b.inFlight = 0)
    (success : b.success = step :: rest) : b.Visits [.activate] (step none b.world).1 := by
  have idle : ¬ b.isBusy = true := by simp [isBusy, isRunning, free]
  have moved : (b.run [.activate]).world =
      (b.enter.place b.started (Activation.start b.success b.reject b.world)).world := by
    show b.activate.world = _
    rw [activate, if_neg idle]
  have entered : b.ledger [.activate] =
      (Activation.startEntries b.success b.reject b.world).map (b.started, ·) := by
    rw [ledger, ledger, List.append_nil, entries, if_neg idle]
  rw [success, Activation.startEntries, Activation.chainEntries] at entered
  rw [success, Activation.start, Activation.runChain] at moved
  rcases did : step none b.world with ⟨w, r | ⟨ticket, resume⟩⟩ <;> rw [did] at entered moved
  · refine .inr ⟨(b.started, .settles r w), ?_, rfl⟩
    rw [entered]
    simp
  · exact .inl moved.symm

/-- A chain of one action that leaves a bare element with one class. -/
theorem wears_of_action {source name : String} {a : Action} {d : String}
    (compiled : Catalogue.actions.compile source = .ok ⟨[⟨⟨name, []⟩, [], a⟩], []⟩)
    (dresses : ∀ w : World Unit Bench.ScriptedForm ⟨settings, ""⟩, w.element.classes = [] →
      (a.run (fun _ _ w => w) none w).1.element.classes = [d]) : Wears settings [d] := by
  let element : Element Unit := { id := "button" }
  let react : React Unit Bench.ScriptedForm ⟨settings, element.classes.text⟩ := fun _ _ w => w
  let b := Button.ofChains settings element {}
    (Chains.map (Action.run react) ⟨[⟨⟨name, []⟩, [], a⟩], []⟩)
  have created := Button.create_eq.mpr ⟨_, compiled, show b = b from rfl⟩
  have still (v : World Unit Bench.ScriptedForm ⟨settings, element.classes.text⟩) :
      Dresses (fun _ => True) v v := ⟨⟨[], nofun, rfl⟩, id⟩
  have bare : element.classes = .ofText "" := rfl
  have visited : b.Visits [.activate] (a.run react none b.world).1 := Button.visits_first rfl rfl
  have wears := Wears.mk bare created (fun _ _ => trivial) (fun _ _ w _ => still w) (by simp)
    visited
  have worn : (a.run react none b.world).1.element.classes = [d] := dresses b.world rfl
  rwa [worn] at wears

theorem World.showDecorator_bare {w : World κ η fixed} (bare : w.element.classes = []) (d : String)
    (pause : Micros) : (w.showDecorator d pause none).1.element.classes = [d] := by
  rw [(w.showDecorator_frame d pause none).1]
  simp [decorate, changeClasses, setClasses, bare, ButtonSettings.decorators, ClassList.remove,
    ClassList.add]

/-- Each decorator is worn alone by an element that was bare, in one of three chains. -/
theorem wears_decorator {d : String} (listed : d ∈ settings.decorators) : Wears settings [d] := by
  simp only [ButtonSettings.decorators, List.mem_cons, List.not_mem_nil, or_false] at listed
  rcases listed with rfl | rfl | rfl
  · have compiled : Catalogue.actions.compile "spinner" =
        .ok ⟨[⟨⟨"spinner", []⟩, [], .spinner⟩], []⟩ := rfl
    apply wears_of_action compiled
    intro w bare
    simp [Action.run, World.changeClasses, World.setClasses, bare, ClassList.add]
  · have compiled : Catalogue.actions.compile "okay" =
        .ok ⟨[⟨⟨"okay", []⟩, [], .okay none⟩], []⟩ := rfl
    apply wears_of_action compiled
    exact fun w bare => World.showDecorator_bare bare _ _
  · have compiled : Catalogue.actions.compile "bummer" =
        .ok ⟨[⟨⟨"bummer", []⟩, [], .bummer none⟩], []⟩ := rfl
    apply wears_of_action compiled
    exact fun w bare => World.showDecorator_bare bare _ _

end Wearing

/-- Whatever happens to a button, its element has each class once, and each class is a word or a
decorator. All class lists that it may come to have can be read back from their text, and have the
words of the text for their classes, if and only if the decorators are words. -/
theorem reads_back_iff (settings : ButtonSettings) :
    (∀ cs, Wears settings cs → Of settings.Allows cs) ∧
      ((∀ cs, Wears settings cs → Clean cs ∧ .ofText cs.text = cs ∧
        ∀ c, c ∈ cs ↔ c.toList ∈ Text.words cs.text.toList) ↔
          ∀ d ∈ settings.decorators, IsName d) := by
  refine ⟨fun cs => wears_allowed, ?_, ?_⟩
  · intro faithful d listed
    exact (faithful [d] (wears_decorator listed)).1.all d (List.mem_singleton_self d)
  · intro names cs wears
    have clean : Clean cs := (wears_allowed wears).mono fun c allowed => allowed.elim id (names c)
    exact ⟨clean, clean.ofText_text, clean.mem_iff⟩

/-- The decorators that settings can be given are not checked. -/
theorem Settings.ofLayer_decorators (spinner okay bummer : String) : ∃ s : Settings,
    Settings.ofLayer (.object [("button", .object [("bummer_class", .string bummer),
      ("okay_class", .string okay), ("spinner_class", .string spinner)])]) = .ok s ∧
        s.button.decorators = [spinner, okay, bummer] := by
  let classes : Members Json := [("bummer_class", .string bummer), ("okay_class", .string okay),
    ("spinner_class", .string spinner)]
  have keys : (classes.map (·.1)).Pairwise (· < ·) := by
    show ["bummer_class", "okay_class", "spinner_class"].Pairwise (· < ·)
    decide
  have inner : (Json.object classes).Ordered := by
    refine .object (List.pairwise_map.mp keys) fun m mem => ?_
    simp only [classes, List.mem_cons, List.not_mem_nil, or_false] at mem
    rcases mem with rfl | rfl | rfl <;> exact .string _
  have ordered : (Json.object [("button", .object classes)]).Ordered :=
    .object (List.pairwise_singleton _ _) (List.forall_mem_singleton.mpr inner)
  have table : ∀ v, Members.find? "button" [("button", Json.object classes)] = some v →
      ∃ ms, v = .object ms := fun v found => ⟨classes, (Option.some.inj found).symm⟩
  have typed : Settings.Typed [("button", .object classes)] := by
    refine ⟨nofun, nofun, ⟨nofun, nofun, ?_, ?_, ?_, nofun, nofun⟩, nofun⟩
    · exact fun v found => ⟨spinner, Option.some.inj found ▸ rfl⟩
    · exact fun v found => ⟨okay, Option.some.inj found ▸ rfl⟩
    · exact fun v found => ⟨bummer, Option.some.inj found ▸ rfl⟩
  exact ⟨_, (Settings.ofLayer_layer ordered table).mpr ⟨typed, rfl⟩, rfl⟩

theorem reads_back_iff_empty : ∃ s : Settings,
    Settings.ofLayer (.object [("button", .object [("bummer_class", .string "dj-bummer"),
      ("okay_class", .string "dj-okay"), ("spinner_class", .string "")])]) = .ok s ∧
    Wears s.button [""] ∧ ClassList.ofText (ClassList.text [""]) = [] ∧
    ¬ ∀ cs, Wears s.button cs → Clean cs ∧ .ofText cs.text = cs ∧
      ∀ c, c ∈ cs ↔ c.toList ∈ Text.words cs.text.toList := by
  obtain ⟨s, loaded, decorators⟩ := Settings.ofLayer_decorators "" "dj-okay" "dj-bummer"
  have listed : "" ∈ s.button.decorators := by simp [decorators]
  refine ⟨s, loaded, wears_decorator listed, rfl, fun faithful => ?_⟩
  exact ((reads_back_iff s.button).2.mp faithful "" listed).some rfl

end ActionChain
