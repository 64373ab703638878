import ActionChain.Button
import Mathlib.Data.List.Nodup

/-!
The histories of buttons. A move is what happens to a button as a whole: a call, progress of an
activation whose wait has ended, an activation given up, time, an abort, the page. A move is made of
acts, and doing the acts one by one is the move (`move_eq`), so that a history also shows what lies
between the parts of a move. A button that runs until all of it waits, or that lets time pass, makes
moves (`run_settleMoves`, `run_passMoves`), so that what holds of all moves holds of these.
-/
namespace ActionChain

inductive Move (κ η : Type) (fixed : Fixed)
  | activate
  /-- The wait that holds the ticket has ended. -/
  | resume (ticket : Ticket) (signal : Signal)
  | drop (number : Nat)
  /-- Timers expire and replies come, up to a time. -/
  | expire (time : Nat)
  | abort
  /-- Whatever else becomes of the world. -/
  | outside (f : World κ η fixed → World κ η fixed)

inductive Act (κ η : Type) (fixed : Fixed)
  | skip (number : Nat)
  | enter (number : Nat)
  /-- Steps of an activation have run and have left the world like this. -/
  | work (number : Nat) (w : World κ η fixed)
  | putAside (number : Nat) (p : Paused (World κ η fixed))
  | takeUp (number : Nat)
  | restore (number : Nat)
  | leave (number : Nat) (ending : Ending)
  | expire (time : Nat)
  | abort
  | outside (f : World κ η fixed → World κ η fixed)

variable {κ η : Type} {fixed : Fixed}

/-- The clock moves on to a time, and the waits end that are due. -/
def World.passTo (time : Nat) (w : World κ η fixed) : World κ η fixed :=
  { w with clock := time }.expire

namespace Button

variable [Form η]

def move (b : Button κ η fixed) : Move κ η fixed → Button κ η fixed
  | .activate => b.activate
  | .resume ticket signal => b.resume ticket signal
  | .drop number => (b.drop number).1
  | .expire time => b.change (·.passTo time)
  | .abort => b.change World.abort
  | .outside f => b.change f

def run (b : Button κ η fixed) (moves : List (Move κ η fixed)) : Button κ η fixed :=
  moves.foldl move b

def act (b : Button κ η fixed) : Act κ η fixed → Button κ η fixed
  | .skip _ => b.skip
  | .enter _ => b.enter
  | .work _ w => b.change fun _ => w
  | .putAside number p => b.putAside number p
  | .takeUp number => b.takeUp number
  | .restore _ => b.change World.restore
  | .leave number ending => b.leave number ending
  | .expire time => b.change (·.passTo time)
  | .abort => b.change World.abort
  | .outside f => b.change f

def perform (b : Button κ η fixed) (acts : List (Act κ η fixed)) : Button κ η fixed :=
  acts.foldl act b

@[simp] theorem perform_nil (b : Button κ η fixed) : b.perform [] = b := rfl

@[simp] theorem perform_cons (b : Button κ η fixed) (a : Act κ η fixed)
    (rest : List (Act κ η fixed)) : b.perform (a :: rest) = (b.act a).perform rest := rfl

omit [Form η] in
def finishing (number : Nat) (w : World κ η fixed) (ending : Ending) : List (Act κ η fixed) :=
  [.work number w, .restore number, .leave number ending]

omit [Form η] in
def placing (number : Nat) : World κ η fixed × Status (World κ η fixed) → List (Act κ η fixed)
  | (w, .paused p) => [.work number w, .putAside number p]
  | (w, .ended o) => finishing number w (.outcome o)

omit [Form η] in
def acts (b : Button κ η fixed) : Move κ η fixed → List (Act κ η fixed)
  | .activate =>
    if b.isBusy then [.skip b.started]
    else .enter b.started :: placing b.started (Activation.start b.success b.reject b.world)
  | .resume ticket signal =>
    match b.running.find? (·.paused.ticket = ticket) with
    | none => []
    | some r =>
      .takeUp r.number :: placing r.number (Activation.resume b.reject r.paused signal b.world)
  | .drop number =>
    match b.running.find? (·.number = number) with
    | none => []
    | some r => .takeUp number :: finishing number (b.world.forget r.paused.ticket) .dropped
  | .expire time => [.expire time]
  | .abort => [.abort]
  | .outside f => [.outside f]

def history (b : Button κ η fixed) : List (Move κ η fixed) → List (Act κ η fixed)
  | [] => []
  | m :: rest => b.acts m ++ (b.move m).history rest

omit [Form η] in
theorem takeUp_numbers {b : Button κ η fixed} {n : Nat} (once : (b.running.map (·.number)).Nodup) :
    (b.takeUp n).running.map (·.number) = (b.running.map (·.number)).erase n := by
  rw [once.erase_eq_filter, List.filter_map]
  refine congrArg (List.map _) (List.filter_congr fun r _ => ?_)
  by_cases same : r.number = n <;> simp [same]

theorem place_eq (b : Button κ η fixed) (number : Nat)
    (r : World κ η fixed × Status (World κ η fixed)) :
    b.place number r = b.perform (placing number r) := by
  obtain ⟨w, p | o⟩ := r <;> rfl

/-- A move is its acts, one by one. -/
theorem move_eq (b : Button κ η fixed) (m : Move κ η fixed) : b.move m = b.perform (b.acts m) := by
  cases m with
  | activate =>
    by_cases busy : b.isBusy = true
    · simp [move, activate, acts, busy, perform, act]
    · simp only [move, activate, acts, busy, Bool.false_eq_true, if_false, place_eq]
      rfl
  | resume ticket signal =>
    cases found : b.running.find? (·.paused.ticket = ticket) with
    | none => simp [move, resume, acts, found, perform]
    | some r =>
      simp only [move, resume, acts, found, place_eq]
      rfl
  | drop number =>
    cases found : b.running.find? (·.number = number) with
    | none => simp [move, drop, acts, found, perform]
    | some r =>
      simp only [move, drop, acts, found]
      rfl
  | expire time => rfl
  | abort => rfl
  | outside f => rfl

theorem perform_append (b : Button κ η fixed) (as bs : List (Act κ η fixed)) :
    b.perform (as ++ bs) = (b.perform as).perform bs := List.foldl_append

theorem run_eq (b : Button κ η fixed) (moves : List (Move κ η fixed)) :
    b.run moves = b.perform (b.history moves) := by
  induction moves generalizing b with
  | nil => rfl
  | cons m rest ih =>
    rw [history, perform_append, ← move_eq, ← ih]
    rfl

def Reaches (b c : Button κ η fixed) : Prop := ∃ moves, b.run moves = c

theorem Reaches.refl (b : Button κ η fixed) : b.Reaches b := ⟨[], rfl⟩

theorem Reaches.trans {b c d : Button κ η fixed} (first : b.Reaches c) (second : c.Reaches d) :
    b.Reaches d := by
  obtain ⟨moves, rfl⟩ := first
  obtain ⟨more, rfl⟩ := second
  exact ⟨moves ++ more, List.foldl_append⟩

section Settling

/-- The moves by which a button resumes what has been woken. -/
def wokenMoves : Nat → Button κ η fixed → List (Move κ η fixed)
  | 0, _ => []
  | fuel + 1, b =>
    match b.world.woken with
    | [] => []
    | (ticket, signal) :: rest =>
      .outside (fun w => { w with woken := rest }) :: .resume ticket signal ::
        wokenMoves fuel ((b.change fun w => { w with woken := rest }).resume ticket signal)

theorem run_wokenMoves (fuel : Nat) (b : Button κ η fixed) :
    b.run (b.wokenMoves fuel) = b.resumeWoken fuel := by
  induction fuel generalizing b with
  | zero => rfl
  | succ fuel ih =>
    unfold wokenMoves resumeWoken
    cases b.world.woken with
    | nil => rfl
    | cons first rest => exact ih _

def settleMoves (b : Button κ η fixed) : List (Move κ η fixed) :=
  b.wokenMoves (b.world.woken.length + b.waitsLeft)

theorem run_settleMoves (b : Button κ η fixed) : b.run b.settleMoves = b.settle :=
  run_wokenMoves _ b

/-- The moves by which a button lets time pass. -/
def passMoves (time : Nat) : Nat → Button κ η fixed → List (Move κ η fixed)
  | 0, _ => [.outside fun w => { w with clock := time }]
  | fuel + 1, b =>
    match b.world.nextDue? time with
    | none => [.outside fun w => { w with clock := time }]
    | some t =>
      let b := b.change (·.passTo t)
      .expire t :: (b.settleMoves ++ passMoves time fuel b.settle)

theorem run_passMoves (time fuel : Nat) (b : Button κ η fixed) :
    b.run (b.passMoves time fuel) = b.passTo time fuel := by
  induction fuel generalizing b with
  | zero => rfl
  | succ fuel ih =>
    unfold passMoves passTo
    cases b.world.nextDue? time with
    | none => rfl
    | some t =>
      have settled := run_settleMoves (b.change (·.passTo t))
      have passed := ih (b.change (·.passTo t)).settle
      rw [run] at settled passed ⊢
      rw [List.foldl_cons, List.foldl_append, move, settled]
      exact passed

end Settling

theorem settle_reached (b : Button κ η fixed) : b.Reaches b.settle := ⟨_, run_settleMoves b⟩

theorem advance_reached (milliseconds : Nat) (b : Button κ η fixed) :
    b.Reaches (b.advance milliseconds) := ⟨_, run_passMoves _ _ b⟩

theorem dropAll_reached (b : Button κ η fixed) : b.Reaches b.dropAll := by
  rw [dropAll]
  generalize (b.running.map (·.number)).mergeSort = numbers
  induction numbers generalizing b with
  | nil => exact .refl b
  | cons n rest ih =>
    have dropped : b.Reaches (b.drop n).1 := ⟨[.drop n], rfl⟩
    exact dropped.trans (ih _)

end Button

end ActionChain
