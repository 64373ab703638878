import ActionChain.Proofs.Interleaving
import ActionChain.Proofs.Waits

/-!
Invariants of what the steps of a button act on. What every step keeps, and what is kept by whatever
else happens, holds of each world that the button passes through: of those that the moves leave, and
of those that the steps start from and leave. Main statement `maintains_run`.
-/
namespace ActionChain

section Activations

variable {σ : Type} {I : σ → Prop}

/-- What holds before a step and before the end of its wait holds after them. -/
structure Step.Keeps (I : σ → Prop) (step : Step σ) : Prop where
  starts : ∀ input s, I s → I (step input s).1
  resumes : ∀ input s ticket resume, (step input s).2 = .waits ticket resume →
    ∀ signal t, I t → I (resume signal t).1

structure Paused.Keeps (I : σ → Prop) (p : Paused σ) : Prop where
  resumes : ∀ signal s, I s → I (p.resume signal s).1
  rest : ∀ step ∈ p.rest, Step.Keeps I step

def Entry.state : Entry σ → σ
  | .starts _ _ _ before => before
  | .settles _ after => after

/-- A part of an activation with what is entered in it. -/
structure Upheld (I : σ → Prop) (entries : List (Entry σ)) (r : σ × Status σ) : Prop where
  state : I r.1
  entries : ∀ x ∈ entries, I x.state
  paused : ∀ p, r.2 = .paused p → p.Keeps I

namespace Upheld

variable {entries : List (Entry σ)} {r : σ × Status σ} {s : σ}

theorem ended (holds : I s) (o : Outcome) : Upheld I [] (s, .ended o) := ⟨holds, nofun, nofun⟩

theorem cons {x : Entry σ} (holds : I x.state) (upheld : Upheld I entries r) :
    Upheld I (x :: entries) r :=
  ⟨upheld.state, List.forall_mem_cons.mpr ⟨holds, upheld.entries⟩, upheld.paused⟩

end Upheld

namespace Activation

variable {steps reject : List (Step σ)} {s : σ}

theorem chain_upheld (phase : Phase) {onReject : Rejection → σ → σ × Status σ}
    {onEntries : Rejection → σ → List (Entry σ)}
    (rejects : ∀ why s, I s → Upheld I (onEntries why s) (onReject why s))
    (keeps : ∀ step ∈ steps, Step.Keeps I step) (value : Option Response) (holds : I s) :
    Upheld I (chainEntries phase onEntries steps value s)
      (runChain phase onReject steps value s) := by
  induction steps generalizing value s with
  | nil => exact .ended holds _
  | cons step rest ih =>
    obtain ⟨now, later⟩ := List.forall_mem_cons.mp keeps
    have left := now.starts value s holds
    have resumes := now.resumes value s
    rw [chainEntries, runChain]
    rcases did : step value s with ⟨t, r | ⟨ticket, resume⟩⟩ <;> rw [did] at left resumes
    · rcases r with (why | _) | value
      · exact ((rejects why t left).cons left).cons holds
      · exact ((Upheld.ended left _).cons left).cons holds
      · exact ((ih later value left).cons left).cons holds
    · refine ⟨left, List.forall_mem_singleton.mpr holds, fun p same => ?_⟩
      cases same
      exact ⟨resumes ticket resume rfl, later⟩

variable (keeps : ∀ step ∈ reject, Step.Keeps I step)
include keeps

theorem rejected_upheld (phase : Phase) (why : Rejection) (holds : I s) :
    Upheld I (rejectedEntries reject phase why s) (rejected reject phase why s) := by
  cases phase with
  | reject => exact .ended holds _
  | success =>
    rw [rejected]
    split
    · rename_i none
      rw [List.isEmpty_iff.mp none]
      exact .ended holds _
    · exact chain_upheld .reject (fun why s holds => .ended holds _) keeps why.input holds

theorem start_upheld (keeps' : ∀ step ∈ steps, Step.Keeps I step) (holds : I s) :
    Upheld I (startEntries steps reject s) (start steps reject s) :=
  chain_upheld .success (fun why _ => rejected_upheld keeps .success why) keeps' none holds

theorem resume_upheld {p : Paused σ} (paused : p.Keeps I) (signal : Signal) (holds : I s) :
    Upheld I (resumeEntries reject p signal s) (resume reject p signal s) := by
  have left := paused.resumes signal s holds
  rcases did : p.resume signal s with ⟨t, r⟩
  rw [did] at left
  rw [resume_eq reject p signal did, resumeEntries_eq reject p signal did]
  refine Upheld.cons left ?_
  rcases r with (why | _) | value
  · exact rejected_upheld keeps p.phase why left
  · exact .ended left _
  · have rejects (why : Rejection) (s : σ) := rejected_upheld (s := s) keeps p.phase why
    exact chain_upheld p.phase rejects paused.rest value left

end Activation

end Activations

variable {κ η : Type} {fixed : Fixed}

/-- What is kept by all that happens to a world without a step. -/
structure World.Lasting [Form η] (I : World κ η fixed → Prop) : Prop where
  restore : ∀ w, I w → I w.restore
  passTo : ∀ time w, I w → I (w.passTo time)
  abort : ∀ w, I w → I w.abort
  forget : ∀ ticket w, I w → I (w.forget ticket)

/-- Only the end of an activation changes the element without a step. -/
theorem World.lasting_of_element [Form η] {I : World κ η fixed → Prop}
    (element : ∀ v w, w.element = v.element → I v → I w) (restore : ∀ w, I w → I w.restore) :
    World.Lasting I where
  restore := restore
  passTo _ w := element w _ rfl
  abort w := element w _ w.abort_element
  forget _ w := element w _ rfl

namespace Button

variable [Form η]

/-- The world after these moves, or before or after a step in one of them. -/
def Visits (first : Button κ η fixed) (moves : List (Move κ η fixed)) (w : World κ η fixed) :
    Prop :=
  w = (first.run moves).world ∨ ∃ x ∈ first.ledger moves, x.2.state = w

structure Maintains (I : World κ η fixed → Prop) (first : Button κ η fixed)
    (moves : List (Move κ η fixed)) : Prop where
  visits : ∀ w, first.Visits moves w → I w
  paused : ∀ r ∈ (first.run moves).running, r.paused.Keeps I

section Moves

variable {I : World κ η fixed → Prop} {first : Button κ η fixed} {moves : List (Move κ η fixed)}
  {m : Move κ η fixed}

theorem Maintains.world (maintains : Maintains I first moves) : I (first.run moves).world :=
  maintains.visits _ (.inl rfl)

theorem Maintains.entered (maintains : Maintains I first moves) :
    ∀ x ∈ first.ledger moves, I x.2.state :=
  fun x mem => maintains.visits _ (.inr ⟨x, mem, rfl⟩)

theorem maintains_snoc (maintains : Maintains I first moves)
    (world : I ((first.run moves).move m).world)
    (entered : ∀ x ∈ (first.run moves).entries m, I x.2.state)
    (paused : ∀ r ∈ ((first.run moves).move m).running,
      r ∈ (first.run moves).running ∨ r.paused.Keeps I) : Maintains I first (moves ++ [m]) := by
  constructor
  · rintro w (rfl | ⟨x, mem, rfl⟩)
    · rwa [run_snoc]
    · rw [ledger_snoc] at mem
      exact (List.mem_append.mp mem).elim (maintains.entered x) (entered x)
  · intro r mem
    rw [run_snoc] at mem
    exact (paused r mem).elim (maintains.paused r) id

theorem Maintains.silent (maintains : Maintains I first moves)
    (world : I ((first.run moves).move m).world) (none : (first.run moves).entries m = [])
    (fewer : ∀ r ∈ ((first.run moves).move m).running, r ∈ (first.run moves).running) :
    Maintains I first (moves ++ [m]) := by
  apply maintains_snoc maintains world
  · simp [none]
  · exact fun r mem => .inl (fewer r mem)

/-- A move that finds nothing to do. -/
theorem Maintains.still (maintains : Maintains I first moves)
    (unmoved : (first.run moves).move m = first.run moves)
    (none : (first.run moves).entries m = []) : Maintains I first (moves ++ [m]) := by
  apply maintains.silent _ none
  · simp [unmoved]
  · rw [unmoved]
    exact maintains.world

theorem place_maintains (lasting : World.Lasting I) (b : Button κ η fixed) (n : Nat)
    {r : World κ η fixed × Status (World κ η fixed)} (holds : I r.1) : I (b.place n r).world := by
  obtain ⟨w, p | o⟩ := r
  · exact holds
  · exact lasting.restore w holds

variable (lasting : World.Lasting I)
include lasting

theorem Maintains.placed (maintains : Maintains I first moves) {b : Button κ η fixed} {n : Nat}
    {entered : List (Entry (World κ η fixed))} {r : World κ η fixed × Status (World κ η fixed)}
    (part : Upheld I entered r) (moved : (first.run moves).move m = b.place n r)
    (entries : (first.run moves).entries m = entered.map (n, ·))
    (fewer : ∀ r ∈ b.running, r ∈ (first.run moves).running) :
    Maintains I first (moves ++ [m]) := by
  apply maintains_snoc maintains
  · rw [moved]
    exact place_maintains lasting b n part.state
  · rw [entries]
    exact List.forall_mem_map.mpr part.entries
  · intro x mem
    rw [moved] at mem
    exact (place_running b n r x mem).imp (fewer x) (part.paused x.paused)

variable (success : ∀ step ∈ first.success, Step.Keeps I step)
  (reject : ∀ step ∈ first.reject, Step.Keeps I step)
include success reject

theorem Maintains.move (maintains : Maintains I first moves)
    (outside : ∀ f, m = .outside f → ∀ w, I w → I (f w)) : Maintains I first (moves ++ [m]) := by
  rw [← run_success first moves] at success
  rw [← run_reject first moves] at reject
  have world := maintains.world
  cases m with
  | activate =>
    by_cases busy : (first.run moves).isBusy = true
    · have skipped : (first.run moves).move .activate = (first.run moves).skip := if_pos busy
      have none : (first.run moves).entries .activate = [] := if_pos busy
      refine maintains.silent ?_ none ?_ <;> rw [skipped]
      · exact world
      · exact fun r mem => mem
    · have part := Activation.start_upheld reject success world
      exact maintains.placed lasting part (if_neg busy) (if_neg busy) fun r mem => mem
  | resume ticket signal =>
    cases found : (first.run moves).running.find? (·.paused.ticket = ticket) with
    | none =>
      apply maintains.still
      · rw [Button.move, resume, found]
      · rw [entries, found]
    | some r =>
      have paused := maintains.paused r (List.mem_of_find?_eq_some found)
      have part := Activation.resume_upheld reject paused signal world
      refine maintains.placed lasting part (b := (first.run moves).takeUp r.number)
        (n := r.number) ?_ ?_ ?_
      · rw [Button.move, resume, found]
      · rw [entries, found]
      · exact fun x mem => List.mem_of_mem_filter mem
  | drop number =>
    cases found : (first.run moves).running.find? (·.number = number) with
    | none =>
      apply maintains.still
      · rw [Button.move, drop, found]
      · rfl
    | some r =>
      refine maintains.silent ?_ rfl ?_ <;> rw [Button.move, drop, found]
      · exact lasting.restore _ (lasting.forget _ _ world)
      · exact fun x mem => List.mem_of_mem_filter mem
  | expire time => exact maintains.silent (lasting.passTo time _ world) rfl fun r mem => mem
  | abort => exact maintains.silent (lasting.abort _ world) rfl fun r mem => mem
  | outside f => exact maintains.silent (outside f rfl _ world) rfl fun r mem => mem

/-- What holds at first, and is kept by the steps and by everything else, holds of all worlds that
the button passes through. -/
theorem maintains_run (idle : first.running = []) (holds : I first.world)
    (outside : ∀ f, .outside f ∈ moves → ∀ w, I w → I (f w)) : Maintains I first moves := by
  induction moves using List.reverseRecOn with
  | nil =>
    constructor
    · rintro w (rfl | ⟨x, mem, -⟩)
      · exact holds
      · cases mem
    · rw [show first.run [] = first from rfl, idle]
      exact nofun
  | append_singleton moves m ih =>
    have earlier := ih fun f mem => outside f (List.mem_append_left _ mem)
    exact earlier.move lasting success reject fun f same =>
      outside f (List.mem_append_right _ (List.mem_singleton.mpr same.symm))

end Moves

end Button

end ActionChain
