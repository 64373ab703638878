import ActionChain.Proofs.Execution
import ActionChain.Proofs.History
import Mathlib.Data.List.Induction

/-!
Activations that overlap. All steps of all activations of a button are entered in one ledger, in the
order in which they start and settle. Main statement `activations_apart`: what the ledger says of one
activation is a run by the law of a single activation, as far as it has come, and what is done to one
activation leaves all others where they are.
-/
namespace ActionChain

variable {σ : Type}

/-- What is seen of the steps of an activation. -/
inductive Entry (σ : Type)
  | starts (phase : Phase) (step : Step σ) (input : Option Response) (before : σ)
  | settles (result : StepResult) (after : σ)

def Turn.entries (phase : Phase) (t : Turn σ) : List (Entry σ) :=
  [.starts phase t.step t.input t.before, .settles t.result t.after]

namespace Activation

/-- What is entered while a chain runs, until a step waits or fails. -/
def chainEntries (phase : Phase) (onReject : Rejection → σ → List (Entry σ)) :
    List (Step σ) → Option Response → σ → List (Entry σ)
  | [], _, _ => []
  | step :: rest, value, s =>
    .starts phase step value s ::
      match step value s with
      | (_, .waits _ _) => []
      | (t, .settled r) => .settles r t ::
        match r with
        | .ok value => chainEntries phase onReject rest value t
        | .error .aborted => []
        | .error (.rejected why) => onReject why t

def rejectedEntries (reject : List (Step σ)) : Phase → Rejection → σ → List (Entry σ)
  | .reject, _, _ => []
  | .success, why, s => chainEntries .reject (fun _ _ => []) reject why.input s

def startEntries (success reject : List (Step σ)) (s : σ) : List (Entry σ) :=
  chainEntries .success (rejectedEntries reject .success) success none s

/-- What is entered after a step has settled. -/
def laterEntries (reject : List (Step σ)) (phase : Phase) (rest : List (Step σ)) :
    StepResult → σ → List (Entry σ)
  | .ok value, s => chainEntries phase (rejectedEntries reject phase) rest value s
  | .error .aborted, _ => []
  | .error (.rejected why), s => rejectedEntries reject phase why s

def resumeEntries (reject : List (Step σ)) (p : Paused σ) (signal : Signal) (s : σ) :
    List (Entry σ) :=
  .settles (p.resume signal s).2 (p.resume signal s).1 ::
    laterEntries reject p.phase p.rest (p.resume signal s).2 (p.resume signal s).1

/-- What is entered after an activation was put aside, over waits that end so. -/
def goEntries (reject : List (Step σ)) : List (Interlude σ) → σ × Status σ → List (Entry σ)
  | i :: rest, (s, .paused p) => resumeEntries reject p i.signal (i.change s) ++
    goEntries reject rest (resume reject p i.signal (i.change s))
  | _, _ => []

section Runs

variable (reject : List (Step σ))

@[simp] theorem goEntries_ended (waits : List (Interlude σ)) (s : σ) (o : Outcome) :
    goEntries reject waits (s, .ended o) = [] := by
  cases waits <;> rfl

theorem goOn_append (waits more : List (Interlude σ)) (r : σ × Status σ) :
    goOn reject (waits ++ more) r = goOn reject more (goOn reject waits r) := by
  induction waits generalizing r with
  | nil => cases more <;> rfl
  | cons i rest ih =>
    obtain ⟨s, p | o⟩ := r
    · exact ih _
    · simp

theorem goEntries_append (waits more : List (Interlude σ)) (r : σ × Status σ) :
    goEntries reject (waits ++ more) r =
      goEntries reject waits r ++ goEntries reject more (goOn reject waits r) := by
  induction waits generalizing r with
  | nil => cases more <;> rfl
  | cons i rest ih =>
    obtain ⟨s, p | o⟩ := r
    · rw [List.cons_append, goEntries, goEntries, goOn, ih, List.append_assoc]
    · simp

section Steps

variable (phase : Phase) (rest : List (Step σ)) {step : Step σ} {value : Option Response} {s t : σ}

theorem chainEntries_settled {r : StepResult} (did : step value s = (t, .settled r)) :
    chainEntries phase (rejectedEntries reject phase) (step :: rest) value s =
      .starts phase step value s :: .settles r t :: laterEntries reject phase rest r t := by
  rw [chainEntries, did]
  rcases r with (_ | _) | _ <;> rfl

theorem chainEntries_waits {ticket : Ticket} {resume : Signal → σ → σ × StepResult}
    (did : step value s = (t, .waits ticket resume)) :
    chainEntries phase (rejectedEntries reject phase) (step :: rest) value s =
      [.starts phase step value s] := by
  rw [chainEntries, did]

theorem resumeEntries_eq (p : Paused σ) (signal : Signal) {s t : σ} {r : StepResult}
    (did : p.resume signal s = (t, r)) :
    resumeEntries reject p signal s = .settles r t :: laterEntries reject p.phase p.rest r t := by
  rw [resumeEntries, did]

end Steps

/-- One turn of a chain, with what is entered in it. -/
theorem genuine_entered {t : Turn σ} (genuine : t.Genuine) (phase : Phase) (rest : List (Step σ))
    (left : List (Interlude σ)) :
    let ran := runChain phase (rejected reject phase) (t.step :: rest) t.input t.before
    let after := afterStep reject phase rest t.result t.after
    goOn reject (t.wait.toList ++ left) ran = goOn reject left after ∧
      chainEntries phase (rejectedEntries reject phase) (t.step :: rest) t.input t.before ++
          goEntries reject (t.wait.toList ++ left) ran =
        t.entries phase ++ (laterEntries reject phase rest t.result t.after ++
          goEntries reject left after) := by
  intro ran after
  cases genuine with
  | settled did =>
    rename_i step input s u r
    have ran_eq : ran = after := runChain_settled reject phase rest did
    have entered := chainEntries_settled reject phase rest did
    refine ⟨congrArg (goOn reject left) ran_eq, ?_⟩
    rw [ran_eq]
    exact congrArg (· ++ goEntries reject left after) entered
  | waited did ended =>
    rename_i step input s u v r ticket resume i
    have ran_eq : ran = (u, .paused ⟨phase, ticket, resume, rest⟩) := by
      simp only [ran, runChain, did]
    have resumed : Activation.resume reject ⟨phase, ticket, resume, rest⟩ i.signal (i.change u) =
        after := resume_eq reject _ i.signal ended
    have first := chainEntries_waits reject phase rest did
    have second := resumeEntries_eq reject ⟨phase, ticket, resume, rest⟩ i.signal ended
    constructor
    · rw [ran_eq, Option.toList_some, List.singleton_append, goOn, resumed]
    · rw [ran_eq, Option.toList_some, List.singleton_append, goEntries, resumed, first, second]
      rfl

def failedEntries (phase : Phase) : StepResult → σ → List (Entry σ)
  | .error (.rejected why), s => rejectedEntries reject phase why s
  | _, _ => []

/-- A run of a chain by the law is the run of that chain, and its turns are what is entered. -/
theorem chainRun_entered {steps : List (Step σ)} {value : Option Response} {s t : σ}
    {turns : List (Turn σ)} {r : StepResult} (run : ChainRun steps value s turns r t)
    (phase : Phase) (left : List (Interlude σ)) :
    let ran := runChain phase (rejected reject phase) steps value s
    goOn reject (turns.filterMap (·.wait) ++ left) ran =
        goOn reject left (afterChain reject phase r t) ∧
      chainEntries phase (rejectedEntries reject phase) steps value s ++
          goEntries reject (turns.filterMap (·.wait) ++ left) ran =
        turns.flatMap (·.entries phase) ++ (failedEntries reject phase r t ++
          goEntries reject left (afterChain reject phase r t)) := by
  induction run with
  | completed value s => exact ⟨rfl, rfl⟩
  | failed rest genuine failed =>
    rename_i t f
    obtain ⟨went, entered⟩ := genuine_entered reject genuine phase rest left
    have waited : [t].filterMap (·.wait) = t.wait.toList := by
      cases wait : t.wait <;> simp [wait]
    rw [failed] at went entered
    rw [waited]
    refine ⟨went, entered.trans ?_⟩
    rcases f with why | _ <;> simp [laterEntries, failedEntries, afterStep]
  | next genuine ok run ih =>
    rename_i t value rest turns r s
    obtain ⟨went, entered⟩ :=
      genuine_entered reject genuine phase rest (turns.filterMap (·.wait) ++ left)
    have waited : (t :: turns).filterMap (·.wait) ++ left =
        t.wait.toList ++ (turns.filterMap (·.wait) ++ left) := by
      cases wait : t.wait <;> simp [wait]
    rw [ok] at went entered
    rw [waited]
    refine ⟨went.trans ih.1, entered.trans ?_⟩
    rw [List.flatMap_cons, List.append_assoc, ← ih.2]
    rfl

theorem ended_direct {r : StepResult} (t : σ)
    (final : ∀ why, r = .error (.rejected why) → reject = []) :
    afterChain reject .success r t = (t, .ended (.ofResult .fulfilled r)) ∧
      failedEntries reject .success r t = [] := by
  rcases r with (why | _) | value
  · obtain rfl := final why rfl
    exact ⟨rfl, rfl⟩
  · exact ⟨rfl, rfl⟩
  · exact ⟨rfl, rfl⟩

theorem ended_viaReject (r : StepResult) (t : σ) :
    afterChain reject .reject r t = (t, .ended (.ofResult .recovered r)) ∧
      failedEntries reject .reject r t = [] := by
  rcases r with (why | _) | value <;> exact ⟨rfl, rfl⟩

/-- An execution by the law is the run of an activation, and its turns are what is entered. -/
theorem execution_entered {success : List (Step σ)} {s t : σ} {turns more : List (Turn σ)}
    {o : Outcome} (law : Execution success reject s turns more o t) (left : List (Interlude σ)) :
    let waits := (turns ++ more).filterMap (·.wait) ++ left
    goOn reject waits (start success reject s) = (t, .ended o) ∧
      startEntries success reject s ++ goEntries reject waits (start success reject s) =
        turns.flatMap (·.entries .success) ++ more.flatMap (·.entries .reject) := by
  cases law with
  | direct run final =>
    rename_i r
    obtain ⟨went, entered⟩ := chainRun_entered reject run .success left
    obtain ⟨after, nothing⟩ := ended_direct reject t final
    rw [after] at went entered
    rw [nothing] at entered
    simp only [List.append_nil, List.flatMap_nil]
    exact ⟨went.trans (goOn_ended ..), entered.trans (by simp)⟩
  | viaReject run some run' =>
    rename_i why r u
    obtain ⟨went, entered⟩ :=
      chainRun_entered reject run .success (more.filterMap (·.wait) ++ left)
    obtain ⟨went', entered'⟩ := chainRun_entered reject run' .reject left
    obtain ⟨after, nothing⟩ := ended_viaReject reject r t
    have handed : afterChain reject .success (.error (.rejected why)) u =
        runChain .reject (rejected reject .reject) reject why.input u := by
      rw [afterChain, rejected, if_neg (by simpa using some)]
      rfl
    rw [handed] at went entered
    rw [after] at went' entered'
    rw [nothing] at entered'
    rw [List.filterMap_append, List.append_assoc]
    refine ⟨went.trans (went'.trans (goOn_ended ..)), entered.trans ?_⟩
    refine congrArg _ (Eq.trans ?_ (entered'.trans (by simp)))
    rfl

/-- However far an activation has come, it has come so far by the law. -/
theorem started_lawful (success : List (Step σ)) (s : σ) (waits : List (Interlude σ)) :
    let begun := start success reject s
    ∃ turns more o t, Execution success reject s turns more o t ∧
      startEntries success reject s ++ goEntries reject waits begun <+:
        turns.flatMap (·.entries .success) ++ more.flatMap (·.entries .reject) ∧
      ∀ o', (goOn reject waits begun).2 = .ended o' → o' = o ∧ (goOn reject waits begun).1 = t ∧
        startEntries success reject s ++ goEntries reject waits begun =
          turns.flatMap (·.entries .success) ++ more.flatMap (·.entries .reject) := by
  intro begun
  -- The law speaks of whole runs, so the run is taken to its end by waits that are cancelled.
  let further : List (Interlude σ) :=
    List.replicate (success.length + reject.length) ⟨.cancelled, id⟩
  obtain ⟨turns, more, o, t, law, ⟨left, taken⟩, ended⟩ :=
    start_lawful success reject s (waits ++ further) (by simp [further])
  obtain ⟨-, entered⟩ := execution_entered reject law left
  rw [taken, goEntries_append, ← List.append_assoc] at entered
  rw [goOn_append] at ended
  refine ⟨turns, more, o, t, law, ⟨_, entered⟩, fun o' final => ?_⟩
  obtain ⟨w, status⟩ : ∃ w, goOn reject waits begun = (w, .ended o') := ⟨_, Prod.ext rfl final⟩
  rw [status, goOn_ended] at ended
  rw [status, goEntries_ended, List.append_nil] at entered
  cases ended
  exact ⟨rfl, congrArg Prod.fst status, entered⟩

end Runs

end Activation

/-- What was entered for one of several activations. -/
def ofNumber {α : Type} (n : Nat) (tagged : List (Nat × α)) : List α :=
  (tagged.filter (·.1 = n)).map (·.2)

section Tagged

variable {α : Type}

theorem ofNumber_append (n : Nat) (tagged more : List (Nat × α)) :
    ofNumber n (tagged ++ more) = ofNumber n tagged ++ ofNumber n more := by
  simp [ofNumber]

theorem ofNumber_tag (n m : Nat) (all : List α) :
    ofNumber n (all.map (m, ·)) = if m = n then all else [] := by
  by_cases same : m = n <;> simp [ofNumber, List.filter_map, Function.comp_def, same]

end Tagged

namespace Button

variable {κ η : Type} {fixed : Fixed}

/-- What a move enters: the steps that are run in it, with the number of their activation. -/
def entries (b : Button κ η fixed) : Move κ η fixed → List (Nat × Entry (World κ η fixed))
  | .activate =>
    if b.isBusy then []
    else (Activation.startEntries b.success b.reject b.world).map (b.started, ·)
  | .resume ticket signal =>
    match b.running.find? (·.paused.ticket = ticket) with
    | none => []
    | some r => (Activation.resumeEntries b.reject r.paused signal b.world).map (r.number, ·)
  | .drop _ | .expire _ | .abort | .outside _ => []

/-- The activation that a move starts, goes on with or gives up. -/
def concerned? (b : Button κ η fixed) : Move κ η fixed → Option Nat
  | .activate => some b.started
  | .resume ticket _ => (b.running.find? (·.paused.ticket = ticket)).map (·.number)
  | .drop number => (b.running.find? (·.number = number)).map (·.number)
  | .expire _ | .abort | .outside _ => none

/-- What is left to do for an activation. -/
def waiting (n : Nat) (b : Button κ η fixed) : List (Running (World κ η fixed)) :=
  b.running.filter (·.number = n)

section Parts

variable {n m : Nat} {b : Button κ η fixed}

theorem waiting_takeUp (other : m ≠ n) : waiting n (b.takeUp m) = waiting n b := by
  rw [waiting, takeUp, List.filter_filter]
  refine List.filter_congr fun r _ => ?_
  by_cases same : r.number = n
  · simp [same, Ne.symm other]
  · simp [same]

theorem waiting_place (other : m ≠ n) (r : World κ η fixed × Status (World κ η fixed)) :
    waiting n (b.place m r) = waiting n b := by
  obtain ⟨w, p | o⟩ := r
  · simp [waiting, place, putAside, change, other]
  · rfl

theorem endings_place (other : m ≠ n) (r : World κ η fixed × Status (World κ η fixed)) :
    ofNumber n (b.place m r).endings = ofNumber n b.endings := by
  obtain ⟨w, p | o⟩ := r
  · rfl
  · simp [ofNumber, place, finish, leave, change, other]

end Parts

variable [Form η]

def ledger (b : Button κ η fixed) : List (Move κ η fixed) → List (Nat × Entry (World κ η fixed))
  | [] => []
  | m :: rest => b.entries m ++ (b.move m).ledger rest

theorem ledger_snoc (b : Button κ η fixed) (moves : List (Move κ η fixed)) (m : Move κ η fixed) :
    b.ledger (moves ++ [m]) = b.ledger moves ++ (b.run moves).entries m := by
  induction moves generalizing b with
  | nil => simp [ledger, run]
  | cons m' rest ih => rw [List.cons_append, ledger, ih, ledger, List.append_assoc]; rfl

theorem run_snoc (b : Button κ η fixed) (moves : List (Move κ η fixed)) (m : Move κ η fixed) :
    b.run (moves ++ [m]) = (b.run moves).move m := by
  simp [run]

/-- A move leaves every activation where it is that it does not concern. -/
theorem move_apart (b : Button κ η fixed) (m : Move κ η fixed) {n : Nat}
    (other : b.concerned? m ≠ some n) :
    waiting n (b.move m) = waiting n b ∧ ofNumber n (b.move m).endings = ofNumber n b.endings ∧
      ofNumber n (b.entries m) = [] := by
  cases m with
  | activate =>
    have apart : b.started ≠ n := fun same => other (congrArg some same)
    by_cases busy : b.isBusy = true
    · simp [move, activate, busy, entries, skip, waiting, ofNumber, apart]
    · simp only [move, activate, busy, entries, Bool.false_eq_true, if_false]
      refine ⟨(waiting_place apart _).trans rfl, (endings_place apart _).trans rfl, ?_⟩
      rw [ofNumber_tag, if_neg apart]
  | resume ticket signal =>
    cases found : b.running.find? (·.paused.ticket = ticket) with
    | none => simp [move, resume, entries, found, ofNumber]
    | some r =>
      have apart : r.number ≠ n := fun same => other (by simp [concerned?, found, same])
      simp only [move, resume, entries, found]
      refine ⟨(waiting_place apart _).trans (waiting_takeUp apart),
        (endings_place apart _).trans rfl, ?_⟩
      rw [ofNumber_tag, if_neg apart]
  | drop number =>
    cases found : b.running.find? (·.number = number) with
    | none => simp [move, drop, entries, found, ofNumber]
    | some r =>
      have named : r.number = number := by simpa using List.find?_some found
      have apart : number ≠ n := fun same =>
        other (by rw [concerned?, found, Option.map_some, named, same])
      simp only [move, drop, entries, found]
      refine ⟨waiting_takeUp apart, ?_, rfl⟩
      simp [finish, leave, change, takeUp, ofNumber, apart]
  | expire time => exact ⟨rfl, rfl, rfl⟩
  | abort => exact ⟨rfl, rfl, rfl⟩
  | outside f => exact ⟨rfl, rfl, rfl⟩

omit [Form η] in
theorem place_kept (b : Button κ η fixed) (number : Nat)
    (r : World κ η fixed × Status (World κ η fixed)) :
    (b.place number r).chains = b.chains ∧ (b.place number r).started = b.started := by
  obtain ⟨w, p | o⟩ := r <;> exact ⟨rfl, rfl⟩

theorem move_chains (b : Button κ η fixed) (m : Move κ η fixed) : (b.move m).chains = b.chains := by
  cases m with
  | activate =>
    rw [move, activate]
    split
    · rfl
    · exact (place_kept _ _ _).1
  | resume ticket signal =>
    rw [move, resume]
    split
    · rfl
    · exact (place_kept _ _ _).1
  | drop number =>
    rw [move, drop]
    split <;> rfl
  | expire | abort | outside => rfl

omit [Form η] in
theorem place_running (b : Button κ η fixed) (n : Nat)
    (r : World κ η fixed × Status (World κ η fixed)) :
    ∀ x ∈ (b.place n r).running, x ∈ b.running ∨ r.2 = .paused x.paused := by
  obtain ⟨w, p | o⟩ := r
  · intro x mem
    rcases List.mem_append.mp mem with earlier | now
    · exact .inl earlier
    · exact .inr (List.mem_singleton.mp now ▸ rfl)
  · exact fun x mem => .inl mem

/-- What waits after a move has waited before it, or has run in it. -/
theorem move_running (b : Button κ η fixed) (m : Move κ η fixed) :
    ∀ x ∈ (b.move m).running, x ∈ b.running ∨
      (Activation.start b.success b.reject b.world).2 = .paused x.paused ∨
      ∃ signal, ∃ r ∈ b.running,
        (Activation.resume b.reject r.paused signal b.world).2 = .paused x.paused := by
  intro x mem
  cases m with
  | activate =>
    rw [move, activate] at mem
    split at mem
    · exact .inl mem
    · exact (place_running _ _ _ x mem).imp id .inl
  | resume ticket signal =>
    rw [move, resume] at mem
    split at mem
    · exact .inl mem
    · rename_i r found
      have waits := List.mem_of_find?_eq_some found
      refine (place_running _ _ _ x mem).imp List.mem_of_mem_filter fun now => ?_
      exact .inr ⟨signal, r, waits, now⟩
  | drop number =>
    rw [move, drop] at mem
    split at mem
    · exact .inl mem
    · exact .inl (List.mem_of_mem_filter mem)
  | expire | abort | outside => exact .inl mem

theorem run_chains (b : Button κ η fixed) (moves : List (Move κ η fixed)) :
    (b.run moves).chains = b.chains := by
  induction moves using List.reverseRecOn with
  | nil => rfl
  | append_singleton moves m ih => rw [run_snoc, move_chains, ih]

theorem run_success (b : Button κ η fixed) (moves : List (Move κ η fixed)) :
    (b.run moves).success = b.success := by
  rw [success, run_chains, success]

theorem run_reject (b : Button κ η fixed) (moves : List (Move κ η fixed)) :
    (b.run moves).reject = b.reject := by
  rw [reject, run_chains, reject]

/-- How far an activation has come: it waits, it has ended, or it was given up while it waited. -/
inductive Stands (n : Nat) (b : Button κ η fixed) : Status (World κ η fixed) → Prop
  | waits {p : Paused (World κ η fixed)} :
      waiting n b = [⟨n, p⟩] → ofNumber n b.endings = [] → Stands n b (.paused p)
  | ended {o : Outcome} :
      waiting n b = [] → ofNumber n b.endings = [.outcome o] → Stands n b (.ended o)
  | dropped (p : Paused (World κ η fixed)) :
      waiting n b = [] → ofNumber n b.endings = [.dropped] → Stands n b (.paused p)

omit [Form η] in
theorem stands_place {n : Nat} {b : Button κ η fixed} (free : waiting n b = [])
    (unended : ofNumber n b.endings = []) (r : World κ η fixed × Status (World κ η fixed)) :
    Stands n (b.place n r) r.2 := by
  obtain ⟨w, p | o⟩ := r
  · refine .waits ?_ unended
    simpa [waiting, place, putAside, change] using free
  · refine .ended free ?_
    simpa [ofNumber, place, finish, leave, change] using unended

omit [Form η] in
theorem Stands.waiter {n : Nat} {b : Button κ η fixed} {status : Status (World κ η fixed)}
    (stands : Stands n b status) {r : Running (World κ η fixed)} (mem : r ∈ b.running)
    (named : r.number = n) : status = .paused r.paused ∧ ofNumber n b.endings = [] := by
  have here : r ∈ waiting n b := List.mem_filter.mpr ⟨mem, decide_eq_true named⟩
  cases stands with
  | waits only unended =>
    rw [only, List.mem_singleton] at here
    exact ⟨here ▸ rfl, unended⟩
  | ended none => rw [none] at here; cases here
  | dropped p none => rw [none] at here; cases here

/-- An activation that was skipped: nothing was done for it. -/
structure Skipped (first : Button κ η fixed) (moves : List (Move κ η fixed)) (n : Nat) : Prop where
  policy : fixed.settings.reentrancy = .ignore
  stands : Stands n (first.run moves) (.ended .skipped)
  silent : ofNumber n (first.ledger moves) = []

/-- An activation that was begun after some moves and has gone on over some waits. -/
structure Begun (first : Button κ η fixed) (moves : List (Move κ η fixed)) (n : Nat)
    (earlier : List (Move κ η fixed)) (waits : List (Interlude (World κ η fixed))) : Prop where
  called : earlier ++ [.activate] <+: moves
  numbered : (first.run earlier).started = n
  stands : Stands n (first.run moves) (Activation.goOn first.reject waits
    (Activation.start first.success first.reject (first.run earlier).world)).2
  entered : ofNumber n (first.ledger moves) =
    Activation.startEntries first.success first.reject (first.run earlier).world ++
      Activation.goEntries first.reject waits
        (Activation.start first.success first.reject (first.run earlier).world)

structure Traced (first : Button κ η fixed) (moves : List (Move κ η fixed)) : Prop where
  unborn : ∀ n, (first.run moves).started ≤ n → waiting n (first.run moves) = [] ∧
    ofNumber n (first.run moves).endings = [] ∧ ofNumber n (first.ledger moves) = []
  each : ∀ n < (first.run moves).started,
    Skipped first moves n ∨ ∃ earlier waits, Begun first moves n earlier waits

section Step

variable {first : Button κ η fixed} {moves : List (Move κ η fixed)} {m : Move κ η fixed} {n : Nat}

theorem stands_apart (other : (first.run moves).concerned? m ≠ some n)
    {status : Status (World κ η fixed)} (stands : Stands n (first.run moves) status) :
    Stands n (first.run (moves ++ [m])) status := by
  obtain ⟨waiting, endings, -⟩ := move_apart _ m other
  rw [run_snoc]
  cases stands with
  | waits only unended => exact .waits (waiting.trans only) (endings.trans unended)
  | ended none final => exact .ended (waiting.trans none) (endings.trans final)
  | dropped p none final => exact .dropped p (waiting.trans none) (endings.trans final)

theorem ledger_apart (other : (first.run moves).concerned? m ≠ some n) :
    ofNumber n (first.ledger (moves ++ [m])) = ofNumber n (first.ledger moves) := by
  rw [ledger_snoc, ofNumber_append, (move_apart _ m other).2.2, List.append_nil]

theorem Begun.apart {earlier : List (Move κ η fixed)} {waits : List (Interlude (World κ η fixed))}
    (begun : Begun first moves n earlier waits)
    (other : (first.run moves).concerned? m ≠ some n) :
    Begun first (moves ++ [m]) n earlier waits where
  called := begun.called.trans (List.prefix_append _ _)
  numbered := begun.numbered
  stands := stands_apart other begun.stands
  entered := (ledger_apart other).trans begun.entered

theorem Traced.begins (traced : Traced first moves) :
    Skipped first (moves ++ [.activate]) (first.run moves).started ∨
      Begun first (moves ++ [.activate]) (first.run moves).started moves [] := by
  obtain ⟨free, unended, silent⟩ := traced.unborn _ (Nat.le_refl _)
  have recorded := ledger_snoc first moves .activate
  by_cases busy : (first.run moves).isBusy = true
  · have skipped : first.run (moves ++ [.activate]) = (first.run moves).skip := by
      rw [run_snoc, move, activate, if_pos busy]
    have policy : fixed.settings.reentrancy = .ignore := by
      simp only [isBusy, Bool.and_eq_true, decide_eq_true_eq] at busy
      exact busy.1
    refine .inl ⟨policy, skipped ▸ .ended free ?_, ?_⟩
    · rw [skip, ofNumber_append, unended]
      simp [ofNumber]
    · rw [recorded, entries, if_pos busy, List.append_nil, silent]
  · refine .inr ⟨List.prefix_rfl, rfl, ?_, ?_⟩
    · rw [run_snoc, move, activate, if_neg busy, run_success, run_reject]
      exact stands_place (b := (first.run moves).enter) free unended _
    · rw [recorded, entries, if_neg busy, ofNumber_append, silent, ofNumber_tag, if_pos rfl,
        run_success, run_reject]
      exact (List.append_nil _).symm

variable {earlier : List (Move κ η fixed)} {waits : List (Interlude (World κ η fixed))}
  {r : Running (World κ η fixed)}

theorem Begun.goes (begun : Begun first moves r.number earlier waits) {ticket : Ticket}
    (signal : Signal)
    (found : (first.run moves).running.find? (·.paused.ticket = ticket) = some r) :
    Begun first (moves ++ [.resume ticket signal]) r.number earlier
      (waits ++ [⟨signal, fun _ => (first.run moves).world⟩]) := by
  obtain ⟨status, unended⟩ := begun.stands.waiter (List.mem_of_find?_eq_some found) rfl
  generalize ran : Activation.goOn first.reject waits (Activation.start first.success first.reject
    (first.run earlier).world) = reached at status
  obtain ⟨w, p⟩ := reached
  cases status
  have went := Activation.goOn_append first.reject waits
    [⟨signal, fun _ => (first.run moves).world⟩] (Activation.start first.success first.reject
      (first.run earlier).world)
  have entered := Activation.goEntries_append first.reject waits
    [⟨signal, fun _ => (first.run moves).world⟩] (Activation.start first.success first.reject
      (first.run earlier).world)
  rw [ran] at went entered
  have free : waiting r.number ((first.run moves).takeUp r.number) = [] := by
    simp [waiting, takeUp, List.filter_filter]
  refine ⟨begun.called.trans (List.prefix_append _ _), begun.numbered, ?_, ?_⟩
  · rw [went, run_snoc, move, resume, found, run_reject]
    exact stands_place free unended _
  · rw [entered, ledger_snoc, ofNumber_append, begun.entered, entries, found, ofNumber_tag,
      if_pos rfl, run_reject, List.append_assoc]
    simp [Activation.goEntries]

theorem Begun.given_up (begun : Begun first moves r.number earlier waits) {number : Nat}
    (found : (first.run moves).running.find? (·.number = number) = some r) :
    Begun first (moves ++ [.drop number]) r.number earlier waits := by
  obtain ⟨status, unended⟩ := begun.stands.waiter (List.mem_of_find?_eq_some found) rfl
  have named : r.number = number := by simpa using List.find?_some found
  subst named
  refine ⟨begun.called.trans (List.prefix_append _ _), begun.numbered, ?_, ?_⟩
  · rw [status, run_snoc, move, drop, found]
    refine .dropped _ ?_ ?_
    · simp [waiting, finish, leave, change, takeUp, List.filter_filter]
    · change ofNumber r.number ((first.run moves).endings ++ [(r.number, .dropped)]) = _
      rw [ofNumber_append, unended]
      simp [ofNumber]
  · rw [ledger_snoc, ofNumber_append, begun.entered]
    exact List.append_nil _

omit [Form η] in
theorem activate_started (b : Button κ η fixed) : b.activate.started = b.started + 1 := by
  rw [activate]
  split
  · rfl
  · exact (place_kept _ _ _).2

theorem move_started (b : Button κ η fixed) (other : m ≠ .activate) :
    (b.move m).started = b.started := by
  cases m with
  | activate => exact absurd rfl other
  | resume ticket signal =>
    rw [Button.move, resume]
    split
    · rfl
    · exact (place_kept _ _ _).2
  | drop number =>
    rw [Button.move, drop]
    split <;> rfl
  | expire | abort | outside => rfl

theorem Traced.born (traced : Traced first moves) (mem : r ∈ (first.run moves).running) :
    r.number < (first.run moves).started := by
  have here : r ∈ waiting r.number (first.run moves) := List.mem_filter.mpr ⟨mem, by simp⟩
  by_contra late
  rw [(traced.unborn _ (Nat.le_of_not_lt late)).1] at here
  cases here

/-- What is put aside has been begun. -/
theorem Traced.begun (traced : Traced first moves) (mem : r ∈ (first.run moves).running) :
    ∃ earlier waits, Begun first moves r.number earlier waits := by
  rcases traced.each _ (traced.born mem) with skipped | begun
  · cases (skipped.stands.waiter mem rfl).1
  · exact begun

theorem Traced.concerned (traced : Traced first moves)
    (mine : (first.run moves).concerned? m = some n) :
    Skipped first (moves ++ [m]) n ∨ ∃ earlier waits, Begun first (moves ++ [m]) n earlier waits := by
  cases m with
  | activate =>
    obtain rfl := Option.some.inj mine
    exact traced.begins.imp id fun begun => ⟨_, _, begun⟩
  | resume ticket signal =>
    obtain ⟨r, found, rfl⟩ := Option.map_eq_some_iff.mp mine
    obtain ⟨earlier, waits, begun⟩ := traced.begun (List.mem_of_find?_eq_some found)
    exact .inr ⟨_, _, begun.goes signal found⟩
  | drop number =>
    obtain ⟨r, found, rfl⟩ := Option.map_eq_some_iff.mp mine
    obtain ⟨earlier, waits, begun⟩ := traced.begun (List.mem_of_find?_eq_some found)
    exact .inr ⟨_, _, begun.given_up found⟩
  | expire | abort | outside => cases mine

/-- An activation that a move concerns is a known one, or the next. -/
theorem Traced.known (traced : Traced first moves)
    (mine : (first.run moves).concerned? m = some n) : n < (first.run (moves ++ [m])).started := by
  rw [run_snoc]
  cases m with
  | activate =>
    obtain rfl := Option.some.inj mine
    rw [Button.move, activate_started]
    exact Nat.lt_succ_self _
  | resume | drop =>
    obtain ⟨r, found, rfl⟩ := Option.map_eq_some_iff.mp mine
    refine Nat.lt_of_lt_of_eq (traced.born (List.mem_of_find?_eq_some found)) ?_
    exact (move_started _ (by simp)).symm
  | expire | abort | outside => cases mine

/-- An activation that a move does not concern was known before, if it is known after it. -/
theorem known_before (other : (first.run moves).concerned? m ≠ some n) :
    n < (first.run (moves ++ [m])).started ↔ n < (first.run moves).started := by
  rw [run_snoc]
  by_cases called : m = .activate
  · subst called
    have apart : (first.run moves).started ≠ n := fun same => other (congrArg some same)
    rw [Button.move, activate_started]
    omega
  · rw [move_started _ called]

theorem Traced.move (traced : Traced first moves) (m : Move κ η fixed) :
    Traced first (moves ++ [m]) := by
  constructor
  · intro n late
    have other : (first.run moves).concerned? m ≠ some n := fun mine =>
      absurd (traced.known mine) (Nat.not_lt_of_le late)
    have unborn := traced.unborn n (Nat.le_of_not_lt fun born =>
      absurd ((known_before other).mpr born) (Nat.not_lt_of_le late))
    obtain ⟨waiting, endings, -⟩ := move_apart _ m other
    rw [ledger_apart other, run_snoc, waiting, endings]
    exact unborn
  · intro n born
    by_cases mine : (first.run moves).concerned? m = some n
    · exact traced.concerned mine
    · rcases traced.each n ((known_before mine).mp born) with skipped | ⟨earlier, waits, begun⟩
      · exact .inl ⟨skipped.policy, stands_apart mine skipped.stands,
          (ledger_apart mine).trans skipped.silent⟩
      · exact .inr ⟨earlier, waits, begun.apart mine⟩

end Step

theorem traced (chains : Chains (Step (World κ η fixed))) (w : World κ η fixed)
    (moves : List (Move κ η fixed)) :
    Traced ({ chains, world := w } : Button κ η fixed) moves := by
  induction moves using List.reverseRecOn with
  | nil => exact ⟨fun n _ => ⟨rfl, rfl, rfl⟩, fun n born => absurd born (Nat.not_lt_zero n)⟩
  | append_singleton moves m ih => exact ih.move m

theorem Skipped.endings {first : Button κ η fixed} {moves : List (Move κ η fixed)} {n : Nat}
    (skipped : Skipped first moves n) :
    ofNumber n (first.run moves).endings = [.outcome .skipped] := by
  cases skipped.stands
  assumption

omit [Form η] in
theorem Stands.outcome {n : Nat} {b : Button κ η fixed} {status : Status (World κ η fixed)}
    (stands : Stands n b status) {o : Outcome} (final : .outcome o ∈ ofNumber n b.endings) :
    status = .ended o := by
  cases stands with
  | waits only unended => rw [unended] at final; cases final
  | ended none only =>
    rw [only, List.mem_singleton] at final
    cases final
    rfl
  | dropped p none only =>
    rw [only, List.mem_singleton] at final
    cases final

theorem Begun.lawful {first : Button κ η fixed} {moves earlier : List (Move κ η fixed)} {n : Nat}
    {waits : List (Interlude (World κ η fixed))} (begun : Begun first moves n earlier waits) :
    ∃ turns more o t,
      Execution first.success first.reject (first.run earlier).world turns more o t ∧
      ofNumber n (first.ledger moves) <+:
        turns.flatMap (·.entries .success) ++ more.flatMap (·.entries .reject) ∧
      ∀ o', .outcome o' ∈ ofNumber n (first.run moves).endings → o' = o ∧
        ofNumber n (first.ledger moves) =
          turns.flatMap (·.entries .success) ++ more.flatMap (·.entries .reject) := by
  obtain ⟨turns, more, o, t, law, come, whole⟩ :=
    Activation.started_lawful first.reject first.success (first.run earlier).world waits
  refine ⟨turns, more, o, t, law, begun.entered ▸ come, fun o' final => ?_⟩
  obtain ⟨same, -, complete⟩ := whole o' (begun.stands.outcome final)
  exact ⟨same, begun.entered.trans complete⟩

/-- Whatever happens to a button, in whatever order, each activation by itself is a run by the law
of a single one, in the world as it finds it: as much of such a run as has been entered for it, and
all of it once it has ended, with the outcome of this run. A move leaves the steps, the rest and the
ending of every activation as they were that it does not concern, and no ending touches a wait. -/
theorem activations_apart (chains : Chains (Step (World κ η fixed))) (w : World κ η fixed)
    (moves : List (Move κ η fixed)) :
    let first : Button κ η fixed := { chains, world := w }
    let b := first.run moves
    let own (n : Nat) := ofNumber n (first.ledger moves)
    (∀ n < b.started,
      (fixed.settings.reentrancy = .ignore ∧ ofNumber n b.endings = [.outcome .skipped] ∧
        own n = []) ∨
      ∃ earlier turns more o t,
        earlier ++ [.activate] <+: moves ∧ (first.run earlier).started = n ∧
        Execution first.success first.reject (first.run earlier).world turns more o t ∧
        own n <+: turns.flatMap (·.entries .success) ++ more.flatMap (·.entries .reject) ∧
        ∀ o', .outcome o' ∈ ofNumber n b.endings → o' = o ∧
          own n = turns.flatMap (·.entries .success) ++ more.flatMap (·.entries .reject)) ∧
    (∀ m n, b.concerned? m ≠ some n →
      waiting n (b.move m) = waiting n b ∧ ofNumber n (b.move m).endings = ofNumber n b.endings ∧
        ofNumber n (first.ledger (moves ++ [m])) = own n) ∧
    ∀ n e, (b.finish n e).world.pending = b.world.pending ∧
      (b.finish n e).world.woken = b.world.woken ∧ (b.finish n e).world.slot = b.world.slot := by
  intro first b own
  have all := traced chains w moves
  refine ⟨fun n born => ?_, fun m n other => ?_, fun n e => ⟨rfl, rfl, rfl⟩⟩
  · rcases all.each n born with skipped | ⟨earlier, waits, begun⟩
    · exact .inl ⟨skipped.policy, skipped.endings, skipped.silent⟩
    · obtain ⟨turns, more, o, t, law⟩ := begun.lawful
      exact .inr ⟨earlier, turns, more, o, t, begun.called, begun.numbered, law⟩
  · obtain ⟨waiting, endings, -⟩ := move_apart b m other
    exact ⟨waiting, endings, ledger_apart other⟩

end Button

end ActionChain
