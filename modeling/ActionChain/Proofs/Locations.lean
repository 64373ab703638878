import ActionChain.Proofs.Effects
import ActionChain.Proofs.Interleaving

/-!
Where the element of a button is, over all that happens to the button. The listeners are taken to
leave the location alone; then every change of it is the doing of a step, and the step is in the
ledger. Main statement `guarded_run`: the location is that from the start, or one that some step in
the ledger has moved to.
-/
namespace ActionChain

variable {κ η : Type} {fixed : Fixed} {P : κ → Prop}

def World.location (w : World κ η fixed) : String := w.element.location

/-- All listeners of the element are of a kind. -/
def World.HeardBy (P : κ → Prop) (w : World κ η fixed) : Prop :=
  ∀ l ∈ w.element.target.listeners, P l.callback

/-- A change of the world that is not a change of the location, and lets no other listeners in. -/
structure Stays (P : κ → Prop) (v w : World κ η fixed) : Prop where
  location : w.location = v.location
  heard : v.HeardBy P → w.HeardBy P

/-- Listeners of this kind leave the location alone, and let no others in. -/
def Bystanding (P : κ → Prop) (react : React κ η fixed) : Prop :=
  ∀ k e w, P k → Stays P w (react k e w)

section Stays

variable {u v w : World κ η fixed}

theorem Stays.refl (w : World κ η fixed) : Stays P w w := ⟨rfl, id⟩

theorem Stays.trans (first : Stays P u v) (next : Stays P v w) : Stays P u w :=
  ⟨next.location.trans first.location, next.heard ∘ first.heard⟩

theorem Stays.of_eq (location : w.location = v.location)
    (target : w.element.target = v.element.target) : Stays P v w := by
  refine ⟨location, fun heard => ?_⟩
  rwa [World.HeardBy, target]

theorem Stays.of_element (same : w.element = v.element) : Stays P v w :=
  .of_eq (congrArg (·.location) same) (congrArg (·.target) same)

theorem World.restore_stays (w : World κ η fixed) : Stays P w w.restore := .of_eq rfl rfl

theorem World.abort_stays [Form η] (w : World κ η fixed) : Stays P w w.abort :=
  .of_element w.abort_element

theorem World.dispatch_stays {react : React κ η fixed} (bystanding : Bystanding P react)
    (heard : w.HeardBy P) (e : Event) : Stays P w (w.dispatch react e).1 := by
  have called : ∀ k ∈ w.element.target.callbacks e.type, P k := by
    intro k mem
    obtain ⟨l, hears, rfl⟩ := List.mem_map.mp mem
    exact heard l (List.mem_of_mem_filter hears)
  have all (ks : List κ) (tame : ∀ k ∈ ks, P k) (v : World κ η fixed) :
      Stays P v (ks.foldl (fun w k => react k e w) v) := by
    induction ks generalizing v with
    | nil => exact .refl v
    | cons k rest ih =>
      obtain ⟨now, later⟩ := List.forall_mem_cons.mp tame
      exact (bystanding k e v now).trans (ih later _)
  exact all _ called w

theorem World.navigate_led {react : React κ η fixed} (bystanding : Bystanding P react)
    (heard : w.HeardBy P) (url : String) :
    (w.navigate react url).HeardBy P ∧ (w.navigate react url).location = url := by
  let there : World κ η fixed := { w with element := { w.element with location := url } }
  have heard' : there.HeardBy P := heard
  have stays := World.dispatch_stays bystanding heard' (.navigate url)
  exact ⟨stays.heard heard', stays.location⟩

theorem World.showDecorator_stays (c : String) (pause : Micros) (value : Option Response)
    (w : World κ η fixed) : Stays P w (w.showDecorator c pause value).1 := by
  have decorated : Stays P w (w.decorate c) := .of_eq rfl rfl
  exact decorated.trans (.of_element (w.showDecorator_frame c pause value).1)

end Stays

/-- A step that lets no other listeners in, and that does nothing more once it has waited. -/
structure Step.Tame (P : κ → Prop) (step : Step (World κ η fixed)) : Prop where
  heard : ∀ input w, w.HeardBy P → (step input w).1.HeardBy P
  idle : ∀ input w ticket resume, (step input w).2 = .waits ticket resume →
    ∀ signal v, (resume signal v).1 = v

/-- What is put aside does nothing more, and tame steps are left. -/
structure Paused.Tame (P : κ → Prop) (p : Paused (World κ η fixed)) : Prop where
  idle : ∀ signal v, (p.resume signal v).1 = v
  rest : ∀ step ∈ p.rest, Step.Tame P step

/-- A step that was started here and has moved to this place. -/
def Entry.MovedTo (P : κ → Prop) (url : String) : Entry (World κ η fixed) → Prop
  | .starts _ step input before => before.HeardBy P ∧ (step input before).1.location = url ∧
    before.location ≠ url
  | .settles .. => False

/-- It is the place from before, or one that a step among these entries has moved to. -/
def Traveled (P : κ → Prop) (entries : List (Entry (World κ η fixed))) (start url : String) :
    Prop :=
  url = start ∨ ∃ x ∈ entries, x.MovedTo P url

/-- A part of an activation, with what is entered in it, from a world on. -/
structure Led (P : κ → Prop) (entries : List (Entry (World κ η fixed))) (v : World κ η fixed)
    (r : World κ η fixed × Status (World κ η fixed)) : Prop where
  heard : r.1.HeardBy P
  traveled : Traveled P entries v.location r.1.location
  paused : ∀ p, r.2 = .paused p → p.Tame P

section Led

variable {entries more : List (Entry (World κ η fixed))} {v w : World κ η fixed}
  {r : World κ η fixed × Status (World κ η fixed)} {step : Step (World κ η fixed)}
  {steps reject : List (Step (World κ η fixed))} {url next : String}

theorem Traveled.mono (traveled : Traveled P entries url next) (kept : ∀ x ∈ entries, x ∈ more) :
    Traveled P more url next :=
  traveled.imp id fun ⟨x, mem, moved⟩ => ⟨x, kept x mem, moved⟩

theorem Traveled.trans {last : String} (traveled : Traveled P entries url next)
    (further : Traveled P more next last) : Traveled P (entries ++ more) url last := by
  rcases further with rfl | ⟨x, mem, moved⟩
  · exact traveled.mono fun x mem => List.mem_append_left more mem
  · exact .inr ⟨x, List.mem_append_right entries mem, moved⟩

theorem Led.ended (heard : w.HeardBy P) (traveled : Traveled P entries v.location w.location)
    (o : Outcome) : Led P entries v (w, .ended o) :=
  ⟨heard, traveled, nofun⟩

theorem Led.after (traveled : Traveled P entries v.location w.location) (led : Led P more w r) :
    Led P (entries ++ more) v r :=
  ⟨led.heard, traveled.trans led.traveled, led.paused⟩

/-- Whatever a step does to the location, it does when it starts. -/
theorem traveled_start (phase : Phase) (step : Step (World κ η fixed)) (input : Option Response)
    (heard : v.HeardBy P) :
    Traveled P [.starts phase step input v] v.location (step input v).1.location := by
  by_cases same : (step input v).1.location = v.location
  · exact .inl same
  · exact .inr ⟨_, List.mem_singleton_self _, heard, rfl, Ne.symm same⟩

namespace Activation

theorem chain_led (phase : Phase)
    {onReject : Rejection → World κ η fixed → World κ η fixed × Status (World κ η fixed)}
    {onEntries : Rejection → World κ η fixed → List (Entry (World κ η fixed))}
    (rejects : ∀ why w, w.HeardBy P → Led P (onEntries why w) w (onReject why w))
    (tame : ∀ step ∈ steps, Step.Tame P step) (value : Option Response) (heard : v.HeardBy P) :
    Led P (chainEntries phase onEntries steps value v) v
      (runChain phase onReject steps value v) := by
  induction steps generalizing value v with
  | nil => exact .ended heard (.inl rfl) _
  | cons step rest ih =>
    obtain ⟨now, later⟩ := List.forall_mem_cons.mp tame
    have started := traveled_start phase step value heard
    have heard' := now.heard value v heard
    have idle := now.idle value v
    rw [chainEntries, runChain]
    rcases did : step value v with ⟨w, r | ⟨ticket, resume⟩⟩ <;> rw [did] at started heard' idle
    · have settled : Traveled P [.starts phase step value v, .settles r w] v.location w.location :=
        started.mono fun x mem => List.mem_cons.mpr (.inl (List.mem_singleton.mp mem))
      rcases r with (why | _) | value
      · exact (rejects why w heard').after settled
      · exact .ended heard' settled _
      · exact (ih later value heard').after settled
    · refine ⟨heard', started, fun p same => ?_⟩
      cases same
      exact ⟨idle ticket resume rfl, later⟩

variable (tame : ∀ step ∈ reject, Step.Tame P step)
include tame

theorem rejected_led (phase : Phase) (why : Rejection) (heard : v.HeardBy P) :
    Led P (rejectedEntries reject phase why v) v (rejected reject phase why v) := by
  cases phase with
  | reject => exact .ended heard (.inl rfl) _
  | success =>
    rw [rejected]
    split
    · exact .ended heard (.inl rfl) _
    · exact chain_led .reject (fun why w heard => .ended heard (.inl rfl) _) tame why.input heard

theorem start_led (tame' : ∀ step ∈ steps, Step.Tame P step) (heard : v.HeardBy P) :
    Led P (startEntries steps reject v) v (start steps reject v) :=
  chain_led .success (fun why _ => rejected_led tame .success why) tame' none heard

theorem resume_led {p : Paused (World κ η fixed)} (paused : p.Tame P) (signal : Signal)
    (heard : v.HeardBy P) :
    Led P (resumeEntries reject p signal v) v (resume reject p signal v) := by
  have idle := paused.idle signal v
  rcases did : p.resume signal v with ⟨w, r⟩
  rw [did] at idle
  obtain rfl : w = v := idle
  have settled : Traveled P [.settles r w] w.location w.location := .inl rfl
  rw [resume_eq reject p signal did, resumeEntries_eq reject p signal did]
  refine Led.after settled ?_
  rcases r with (why | _) | value
  · exact rejected_led tame p.phase why heard
  · exact .ended heard (.inl rfl) _
  · exact chain_led p.phase (fun why _ => rejected_led tame p.phase why) paused.rest value heard

end Activation

end Led

namespace Button

theorem place_stays (b : Button κ η fixed) (n : Nat)
    (r : World κ η fixed × Status (World κ η fixed)) : Stays P r.1 (b.place n r).world := by
  obtain ⟨w, p | o⟩ := r
  · exact .refl w
  · exact w.restore_stays

variable [Form η]

/-- What is true of a button as long as nobody but its steps moves its element. -/
structure Guarded (P : κ → Prop) (first : Button κ η fixed) (moves : List (Move κ η fixed)) :
    Prop where
  heard : (first.run moves).world.HeardBy P
  traveled : Traveled P ((first.ledger moves).map (·.2)) first.world.location
    (first.run moves).world.location
  paused : ∀ r ∈ (first.run moves).running, r.paused.Tame P

section Moves

variable {first : Button κ η fixed} {moves : List (Move κ η fixed)} {m : Move κ η fixed}

/-- Nothing is entered in a move that leaves the location alone. -/
theorem Guarded.unmoved (guarded : Guarded P first moves)
    (stays : Stays P (first.run moves).world ((first.run moves).move m).world)
    (fewer : ∀ r ∈ ((first.run moves).move m).running, r ∈ (first.run moves).running) :
    Guarded P first (moves ++ [m]) where
  heard := by
    rw [run_snoc]
    exact stays.heard guarded.heard
  traveled := by
    rw [run_snoc, stays.location, ledger_snoc, List.map_append]
    exact guarded.traveled.mono fun x mem => List.mem_append_left _ mem
  paused r mem := by
    rw [run_snoc] at mem
    exact guarded.paused r (fewer r mem)

theorem Guarded.placed (guarded : Guarded P first moves) {b : Button κ η fixed} {n : Nat}
    {entered : List (Entry (World κ η fixed))}
    {r : World κ η fixed × Status (World κ η fixed)} (led : Led P entered (first.run moves).world r)
    (moved : (first.run moves).move m = b.place n r)
    (entries : (first.run moves).entries m = entered.map (n, ·))
    (fewer : ∀ r ∈ b.running, r ∈ (first.run moves).running) : Guarded P first (moves ++ [m]) where
  heard := by
    rw [run_snoc, moved]
    exact (place_stays b n r).heard led.heard
  traveled := by
    have same : (entered.map (n, ·)).map (·.2) = entered := by
      rw [List.map_map]
      exact List.map_id _
    rw [run_snoc, moved, (place_stays (P := P) b n r).location, ledger_snoc, entries,
      List.map_append, same]
    exact guarded.traveled.trans led.traveled
  paused x mem := by
    rw [run_snoc, moved] at mem
    rcases place_running b n r x mem with earlier | now
    · exact guarded.paused x (fewer x earlier)
    · exact led.paused x.paused now

variable (success : ∀ step ∈ first.success, Step.Tame P step)
  (reject : ∀ step ∈ first.reject, Step.Tame P step)
include success reject

theorem Guarded.move (guarded : Guarded P first moves)
    (outside : ∀ f, m = .outside f → ∀ v, Stays P v (f v)) : Guarded P first (moves ++ [m]) := by
  rw [← run_success first moves] at success
  rw [← run_reject first moves] at reject
  cases m with
  | activate =>
    by_cases busy : (first.run moves).isBusy = true
    · have skipped : (first.run moves).move .activate = (first.run moves).skip := if_pos busy
      refine guarded.unmoved ?_ ?_ <;> rw [skipped]
      · exact .refl _
      · exact fun r mem => mem
    · exact guarded.placed (Activation.start_led reject success guarded.heard) (if_neg busy)
        (if_neg busy) fun r mem => mem
  | resume ticket signal =>
    cases found : (first.run moves).running.find? (·.paused.ticket = ticket) with
    | none =>
      have unmoved : (first.run moves).move (.resume ticket signal) = first.run moves := by
        rw [Button.move, resume, found]
      refine guarded.unmoved ?_ ?_ <;> rw [unmoved]
      · exact .refl _
      · exact fun r mem => mem
    | some r =>
      have paused := guarded.paused r (List.mem_of_find?_eq_some found)
      refine guarded.placed (Activation.resume_led reject paused signal guarded.heard)
        (b := (first.run moves).takeUp r.number) (n := r.number) ?_ ?_ ?_
      · rw [Button.move, resume, found]
      · rw [entries, found]
      · exact fun x mem => List.mem_of_mem_filter mem
  | drop number =>
    cases found : (first.run moves).running.find? (·.number = number) with
    | none =>
      have unmoved : (first.run moves).move (.drop number) = first.run moves := by
        rw [Button.move, drop, found]
      refine guarded.unmoved ?_ ?_ <;> rw [unmoved]
      · exact .refl _
      · exact fun r mem => mem
    | some r =>
      refine guarded.unmoved ?_ ?_ <;> rw [Button.move, drop, found]
      · exact .of_eq rfl rfl
      · exact fun x mem => List.mem_of_mem_filter mem
  | expire time => exact guarded.unmoved (.of_element rfl) fun r mem => mem
  | abort => exact guarded.unmoved (World.abort_stays _) fun r mem => mem
  | outside f => exact guarded.unmoved (outside f rfl _) fun r mem => mem

/-- Nothing but steps in the ledger has moved the element. -/
theorem guarded_run (heard : first.world.HeardBy P) (idle : first.running = [])
    (outside : ∀ f, .outside f ∈ moves → ∀ v, Stays P v (f v)) : Guarded P first moves := by
  induction moves using List.reverseRecOn with
  | nil =>
    have none : ∀ r ∈ first.running, r.paused.Tame P := by simp [idle]
    exact ⟨heard, .inl rfl, none⟩
  | append_singleton moves m ih =>
    have earlier := ih fun f mem => outside f (List.mem_append_left _ mem)
    exact earlier.move success reject fun f same =>
      outside f (List.mem_append_right _ (List.mem_singleton.mpr same.symm))

end Moves

end Button

end ActionChain
