import ActionChain.Proofs.Actions
import ActionChain.Proofs.Alike
import ActionChain.Proofs.Interleaving

/-!
An abort with nothing to abort leaves no residue. Two runs of a button, one of them with such aborts
put in, go the same way: the same steps on the same inputs, the same endings, the same element, page
and waits; only the record of abort calls differs. Main statement `aborts_without_residue`.
-/
namespace ActionChain

open World Bench

variable {κ : Type} {fixed : Fixed}

section Activations

-- Steps that stand for each other in two runs.
variable (R : Step (World κ Bench.Stage fixed) → Step (World κ Bench.Stage fixed) → Prop)

structure PausedAlike (p q : Paused (World κ Bench.Stage fixed)) : Prop where
  phase : p.phase = q.phase
  ticket : p.ticket = q.ticket
  resume : ∀ (signal : Signal) (v w : World κ Bench.Stage fixed), World.Alike v w →
    World.Alike (p.resume signal v).1 (q.resume signal w).1 ∧
      (p.resume signal v).2 = (q.resume signal w).2
  rest : List.Forall₂ R p.rest q.rest

inductive RanAlike : World κ Bench.Stage fixed × Status (World κ Bench.Stage fixed) →
    World κ Bench.Stage fixed × Status (World κ Bench.Stage fixed) → Prop
  | paused {v w : World κ Bench.Stage fixed} {p q : Paused (World κ Bench.Stage fixed)} :
      World.Alike v w → PausedAlike R p q → RanAlike (v, .paused p) (w, .paused q)
  | ended {v w : World κ Bench.Stage fixed} (o : Outcome) :
      World.Alike v w → RanAlike (v, .ended o) (w, .ended o)

/-- The same entry but for what aborts leave behind. -/
inductive EntryAlike : Entry (World κ Bench.Stage fixed) → Entry (World κ Bench.Stage fixed) → Prop
  | starts {s s' : Step (World κ Bench.Stage fixed)} {v w : World κ Bench.Stage fixed}
      (phase : Phase) (input : Option Response) :
      R s s' → World.Alike v w → EntryAlike (.starts phase s input v) (.starts phase s' input w)
  | settles {v w : World κ Bench.Stage fixed} (r : StepResult) :
      World.Alike v w → EntryAlike (.settles r v) (.settles r w)

variable {R} (sound : ∀ s s', R s s' → Matches s s')

namespace Activation

variable {v w : World κ Bench.Stage fixed}
  {success success' reject reject' : List (Step (World κ Bench.Stage fixed))}

include sound in
theorem runChain_alike {steps steps' : List (Step (World κ Bench.Stage fixed))}
    (same : List.Forall₂ R steps steps')
    {onReject onReject' : Rejection → World κ Bench.Stage fixed →
      World κ Bench.Stage fixed × Status (World κ Bench.Stage fixed)}
    {enter enter' : Rejection → World κ Bench.Stage fixed →
      List (Entry (World κ Bench.Stage fixed))}
    (handed : ∀ why v w, World.Alike v w → RanAlike R (onReject why v) (onReject' why w) ∧
      List.Forall₂ (EntryAlike R) (enter why v) (enter' why w))
    (phase : Phase) (value : Option Response) (alike : World.Alike v w) :
    RanAlike R (runChain phase onReject steps value v) (runChain phase onReject' steps' value w) ∧
      List.Forall₂ (EntryAlike R) (chainEntries phase enter steps value v)
        (chainEntries phase enter' steps' value w) := by
  induction same generalizing value v w with
  | nil => exact ⟨.ended _ alike, .nil⟩
  | cons related rest ih =>
    rename_i s s' steps steps'
    have did := sound s s' related value v w alike
    have first := EntryAlike.starts phase value related alike
    simp only [runChain, chainEntries]
    generalize s value v = x at did ⊢
    generalize s' value w = y at did ⊢
    cases did with
    | settled r alike =>
      have second := EntryAlike.settles (R := R) r alike
      rcases r with (why | _) | value
      · obtain ⟨ran, entered⟩ := handed why _ _ alike
        exact ⟨ran, .cons first (.cons second entered)⟩
      · exact ⟨.ended _ alike, .cons first (.cons second .nil)⟩
      · obtain ⟨ran, entered⟩ := ih value alike
        exact ⟨ran, .cons first (.cons second entered)⟩
    | waits ticket alike resumes =>
      exact ⟨.paused alike ⟨rfl, rfl, resumes, rest⟩, .cons first .nil⟩

include sound in
theorem rejected_alike (same : List.Forall₂ R reject reject') (phase : Phase) (why : Rejection)
    (alike : World.Alike v w) :
    RanAlike R (rejected reject phase why v) (rejected reject' phase why w) ∧
      List.Forall₂ (EntryAlike R) (rejectedEntries reject phase why v)
        (rejectedEntries reject' phase why w) := by
  cases phase with
  | reject => exact ⟨.ended _ alike, .nil⟩
  | success =>
    have empty : reject.isEmpty = reject'.isEmpty := by
      cases same <;> rfl
    have ran := runChain_alike sound same
      (fun why v w alike => ⟨.ended (.rejected why) alike, .nil⟩) .reject why.input alike
    refine ⟨?_, ran.2⟩
    rw [rejected, rejected, empty]
    split
    · exact .ended _ alike
    · exact ran.1

include sound in
theorem start_alike (successes : List.Forall₂ R success success')
    (rejects : List.Forall₂ R reject reject') (alike : World.Alike v w) :
    RanAlike R (start success reject v) (start success' reject' w) ∧
      List.Forall₂ (EntryAlike R) (startEntries success reject v)
        (startEntries success' reject' w) :=
  runChain_alike sound successes
    (fun why _ _ alike => rejected_alike sound rejects .success why alike) .success none alike

include sound in
theorem afterStep_alike (rejects : List.Forall₂ R reject reject')
    {rest rest' : List (Step (World κ Bench.Stage fixed))} (same : List.Forall₂ R rest rest')
    (phase : Phase) (r : StepResult) (alike : World.Alike v w) :
    RanAlike R (afterStep reject phase rest r v) (afterStep reject' phase rest' r w) ∧
      List.Forall₂ (EntryAlike R) (laterEntries reject phase rest r v)
        (laterEntries reject' phase rest' r w) := by
  rcases r with (why | _) | value
  · exact rejected_alike sound rejects phase why alike
  · exact ⟨.ended _ alike, .nil⟩
  · exact runChain_alike sound same
      (fun why _ _ alike => rejected_alike sound rejects phase why alike) phase value alike

include sound in
theorem resume_alike (rejects : List.Forall₂ R reject reject')
    {p q : Paused (World κ Bench.Stage fixed)} (paused : PausedAlike R p q) (signal : Signal)
    (alike : World.Alike v w) :
    RanAlike R (resume reject p signal v) (resume reject' q signal w) ∧
      List.Forall₂ (EntryAlike R) (resumeEntries reject p signal v)
        (resumeEntries reject' q signal w) := by
  obtain ⟨after, same⟩ := paused.resume signal v w alike
  rcases did : p.resume signal v with ⟨t, r⟩
  rcases did' : q.resume signal w with ⟨u, r'⟩
  rw [did, did'] at after same
  obtain rfl : r = r' := same
  rw [resume_eq reject p signal did, resume_eq reject' q signal did',
    resumeEntries_eq reject p signal did, resumeEntries_eq reject' q signal did', paused.phase]
  obtain ⟨ran, entered⟩ := afterStep_alike sound rejects paused.rest q.phase r after
  exact ⟨ran, .cons (.settles r after) entered⟩

end Activation

end Activations

section Lists

variable {α β : Type} {T : α → β → Prop} {xs : List α} {ys : List β}

theorem forall₂_find? (all : List.Forall₂ T xs ys) {p : α → Bool} {q : β → Bool}
    (agree : ∀ x y, T x y → p x = q y) :
    xs.find? p = none ∧ ys.find? q = none ∨
      ∃ x y, xs.find? p = some x ∧ ys.find? q = some y ∧ T x y := by
  induction all with
  | nil => exact .inl ⟨rfl, rfl⟩
  | cons related rest ih =>
    rename_i x y xs ys
    have same := agree x y related
    cases found : p x with
    | true => exact .inr ⟨x, y, by simp [found], by simp [← same, found], related⟩
    | false => simpa [List.find?_cons, found, ← same] using ih

end Lists

namespace Button

/-- What is put aside for the same activation. -/
def RunningAlike (R : Step (World κ Bench.Stage fixed) → Step (World κ Bench.Stage fixed) → Prop)
    (r r' : Running (World κ Bench.Stage fixed)) : Prop :=
  r.number = r'.number ∧ PausedAlike R r.paused r'.paused

/-- Two buttons that differ only in what aborts with nothing to abort leave behind. -/
structure Alike (R : Step (World κ Bench.Stage fixed) → Step (World κ Bench.Stage fixed) → Prop)
    (b c : Button κ Bench.Stage fixed) : Prop where
  success : List.Forall₂ R b.success c.success
  reject : List.Forall₂ R b.reject c.reject
  world : World.Alike b.world c.world
  inFlight : b.inFlight = c.inFlight
  started : b.started = c.started
  running : List.Forall₂ (RunningAlike R) b.running c.running
  endings : b.endings = c.endings

/-- An entry for the same activation. -/
def TaggedAlike (R : Step (World κ Bench.Stage fixed) → Step (World κ Bench.Stage fixed) → Prop)
    (e e' : Nat × Entry (World κ Bench.Stage fixed)) : Prop :=
  e.1 = e'.1 ∧ EntryAlike R e.2 e'.2

variable {R : Step (World κ Bench.Stage fixed) → Step (World κ Bench.Stage fixed) → Prop}
  {b c : Button κ Bench.Stage fixed}

theorem tagged_alike (n : Nat) {es es' : List (Entry (World κ Bench.Stage fixed))}
    (same : List.Forall₂ (EntryAlike R) es es') :
    List.Forall₂ (TaggedAlike R) (es.map (n, ·)) (es'.map (n, ·)) :=
  List.rel_map (fun _ _ related => ⟨rfl, related⟩) same

namespace Alike

theorem change (alike : Alike R b c) {f g : World κ Bench.Stage fixed → World κ Bench.Stage fixed}
    (same : World.Same f g) : Alike R (b.change f) (c.change g) :=
  ⟨alike.success, alike.reject, same _ _ alike.world, alike.inFlight, alike.started, alike.running,
    alike.endings⟩

theorem takeUp (alike : Alike R b c) (n : Nat) : Alike R (b.takeUp n) (c.takeUp n) :=
  ⟨alike.success, alike.reject, alike.world, alike.inFlight, alike.started,
    List.rel_filter (fun r r' same => by simp [same.1]) alike.running, alike.endings⟩

theorem finish (alike : Alike R b c) (n : Nat) (e : Ending) :
    Alike R (b.finish n e) (c.finish n e) :=
  ⟨alike.success, alike.reject, alike.world.restore, congrArg (· - 1) alike.inFlight, alike.started,
    alike.running, congrArg (· ++ [(n, e)]) alike.endings⟩

theorem place (alike : Alike R b c) (n : Nat)
    {r r' : World κ Bench.Stage fixed × Status (World κ Bench.Stage fixed)}
    (ran : RanAlike R r r') :
    Alike R (b.place n r) (c.place n r') := by
  cases ran with
  | paused world paused =>
    exact ⟨alike.success, alike.reject, world, alike.inFlight, alike.started,
      List.rel_append alike.running (.cons ⟨rfl, paused⟩ .nil), alike.endings⟩
  | ended o world =>
    exact (alike.change fun _ _ _ => world).finish n (.outcome o)

theorem isBusy (alike : Alike R b c) : b.isBusy = c.isBusy := by
  rw [Button.isBusy, Button.isBusy, isRunning, isRunning, alike.inFlight]

variable (sound : ∀ s s', R s s' → Matches s s')

include sound in
theorem activate (alike : Alike R b c) :
    Alike R b.activate c.activate ∧
      List.Forall₂ (TaggedAlike R) (b.entries .activate) (c.entries .activate) := by
  rw [Button.activate, Button.activate, entries, entries, ← alike.isBusy, ← alike.started]
  split
  · refine ⟨⟨alike.success, alike.reject, alike.world, alike.inFlight,
      congrArg (· + 1) alike.started, alike.running, ?_⟩, .nil⟩
    rw [skip, skip, alike.endings, alike.started]
  · obtain ⟨ran, entered⟩ :=
      Activation.start_alike sound alike.success alike.reject alike.world
    have within : Alike R b.enter c.enter :=
      ⟨alike.success, alike.reject, alike.world, congrArg (· + 1) alike.inFlight,
        congrArg (· + 1) alike.started, alike.running, alike.endings⟩
    exact ⟨within.place b.started ran, tagged_alike b.started entered⟩

include sound in
theorem resume (alike : Alike R b c) (ticket : Ticket) (signal : Signal) :
    Alike R (b.resume ticket signal) (c.resume ticket signal) ∧
      List.Forall₂ (TaggedAlike R) (b.entries (.resume ticket signal))
        (c.entries (.resume ticket signal)) := by
  rw [Button.resume, Button.resume, entries, entries]
  rcases forall₂_find? alike.running (p := (·.paused.ticket = ticket))
      (q := (·.paused.ticket = ticket)) (fun r r' same => by rw [same.2.ticket]) with
    ⟨none, none'⟩ | ⟨r, r', found, found', number, paused⟩
  · rw [none, none']
    exact ⟨alike, .nil⟩
  · rw [found, found']
    obtain ⟨ran, entered⟩ := Activation.resume_alike sound alike.reject paused signal alike.world
    dsimp only
    rw [← number]
    exact ⟨(alike.takeUp r.number).place r.number ran, tagged_alike r.number entered⟩

theorem drop (alike : Alike R b c) (n : Nat) : Alike R (b.drop n).1 (c.drop n).1 := by
  unfold Button.drop
  rcases forall₂_find? alike.running (p := (·.number = n)) (q := (·.number = n))
      (fun r r' same => by rw [same.1]) with
    ⟨none, none'⟩ | ⟨r, r', found, found', number, paused⟩
  · rw [none, none']
    exact alike
  · rw [found, found']
    dsimp only
    rw [← paused.ticket]
    exact ((alike.takeUp n).change fun v w alike => alike.forget r.paused.ticket).finish n .dropped

theorem waitsLeft (alike : Alike R b c) : b.waitsLeft = c.waitsLeft := by
  have left : b.running.map (fun r => Activation.stepsLeft b.reject r.paused) =
      c.running.map fun r => Activation.stepsLeft c.reject r.paused := by
    refine List.forall₂_eq_eq_eq ▸ List.rel_map (fun r r' same => ?_) alike.running
    rw [Activation.stepsLeft, Activation.stepsLeft, same.2.phase, same.2.rest.length_eq,
      alike.reject.length_eq]
  rw [Button.waitsLeft, Button.waitsLeft, left, alike.running.length_eq]

end Alike

end Button

section Moves

/-- The same move in two runs. What else becomes of the world is the same in worlds alike. -/
inductive MoveAlike : Move κ Bench.Stage fixed → Move κ Bench.Stage fixed → Prop
  | activate : MoveAlike .activate .activate
  | resume (ticket : Ticket) (signal : Signal) :
      MoveAlike (.resume ticket signal) (.resume ticket signal)
  | drop (number : Nat) : MoveAlike (.drop number) (.drop number)
  | expire (time : Nat) : MoveAlike (.expire time) (.expire time)
  | abort : MoveAlike .abort .abort
  | outside {f g : World κ Bench.Stage fixed → World κ Bench.Stage fixed} :
      World.Same f g → MoveAlike (.outside f) (.outside g)

theorem World.setClock_same (time : Nat) :
    World.Same (fun w : World κ Bench.Stage fixed => { w with clock := time })
      fun w => { w with clock := time } :=
  fun _ _ alike => ⟨alike.element, alike.page, rfl, alike.nextTicket, alike.pending, alike.woken,
    alike.cancellable, alike.dated⟩

theorem World.setWoken_same (woken : List (Ticket × Signal)) :
    World.Same (fun w : World κ Bench.Stage fixed => { w with woken }) fun w => { w with woken } :=
  fun _ _ alike => alike.slotKept (fun _ mem => mem) alike.pending rfl

namespace Button

variable {R : Step (World κ Bench.Stage fixed) → Step (World κ Bench.Stage fixed) → Prop}
  {b c : Button κ Bench.Stage fixed} (sound : ∀ s s', R s s' → Matches s s')

include sound in
theorem Alike.move (alike : Alike R b c) {m m' : Move κ Bench.Stage fixed} (same : MoveAlike m m') :
    Alike R (b.move m) (c.move m') ∧
      List.Forall₂ (TaggedAlike R) (b.entries m) (c.entries m') := by
  cases same with
  | activate => exact alike.activate sound
  | resume ticket signal => exact alike.resume sound ticket signal
  | drop number => exact ⟨alike.drop number, .nil⟩
  | expire time =>
    exact ⟨alike.change fun _ _ alike => (World.setClock_same time _ _ alike).expire, .nil⟩
  | abort => exact ⟨alike.change fun _ _ alike => alike.abort, .nil⟩
  | outside same => exact ⟨alike.change same, .nil⟩

include sound in
theorem Alike.run (alike : Alike R b c) {ms ms' : List (Move κ Bench.Stage fixed)}
    (same : List.Forall₂ MoveAlike ms ms') :
    Alike R (b.run ms) (c.run ms') ∧
      List.Forall₂ (TaggedAlike R) (b.ledger ms) (c.ledger ms') := by
  induction same generalizing b c with
  | nil => exact ⟨alike, .nil⟩
  | cons same rest ih =>
    obtain ⟨moved, entered⟩ := alike.move sound same
    obtain ⟨ran, more⟩ := ih moved
    exact ⟨ran, List.rel_append entered more⟩

include sound in
theorem Alike.wokenMoves (alike : Alike R b c) (fuel : Nat) :
    List.Forall₂ MoveAlike (b.wokenMoves fuel) (c.wokenMoves fuel) := by
  induction fuel generalizing b c with
  | zero => exact .nil
  | succ fuel ih =>
    rw [Button.wokenMoves, Button.wokenMoves, alike.world.woken]
    split
    · exact .nil
    · rename_i ticket signal rest woken
      have taken : World.Same (fun w : World κ Bench.Stage fixed => { w with woken := rest }) _ :=
        World.setWoken_same rest
      exact .cons (.outside taken) (.cons (.resume ticket signal)
        (ih ((alike.change taken).resume sound ticket signal).1))

include sound in
theorem Alike.settleMoves (alike : Alike R b c) :
    List.Forall₂ MoveAlike b.settleMoves c.settleMoves := by
  rw [Button.settleMoves, Button.settleMoves, alike.world.woken, alike.waitsLeft]
  exact alike.wokenMoves sound _

include sound in
theorem Alike.passMoves (alike : Alike R b c) (time fuel : Nat) :
    List.Forall₂ MoveAlike (b.passMoves time fuel) (c.passMoves time fuel) := by
  have later : MoveAlike (.outside fun w : World κ Bench.Stage fixed => { w with clock := time })
      (.outside fun w => { w with clock := time }) := .outside (World.setClock_same time)
  induction fuel generalizing b c with
  | zero => exact .cons later .nil
  | succ fuel ih =>
    have due : b.world.nextDue? time = c.world.nextDue? time := by
      rw [World.nextDue?, World.nextDue?, alike.world.pending]
    rw [Button.passMoves, Button.passMoves, due]
    split
    · exact .cons later .nil
    · rename_i t due
      have expired := (alike.move sound (.expire t)).1
      have settled := (expired.run sound (expired.settleMoves sound)).1
      rw [run_settleMoves, run_settleMoves] at settled
      exact .cons (.expire t) (List.rel_append (expired.settleMoves sound) (ih settled))

end Button

end Moves

/-- What happens to a button: a move, or whatever can run runs, or time passes. -/
inductive Occurrence (κ η : Type) (fixed : Fixed)
  | move (m : Move κ η fixed)
  | settle
  | advance (milliseconds : Nat)

inductive OccurrenceAlike : Occurrence κ Bench.Stage fixed → Occurrence κ Bench.Stage fixed → Prop
  | move {m m' : Move κ Bench.Stage fixed} : MoveAlike m m' → OccurrenceAlike (.move m) (.move m')
  | settle : OccurrenceAlike .settle .settle
  | advance (milliseconds : Nat) : OccurrenceAlike (.advance milliseconds) (.advance milliseconds)

namespace Button

section Occurrences

variable {η : Type} [Form η]

def occur (b : Button κ η fixed) : Occurrence κ η fixed → Button κ η fixed
  | .move m => b.move m
  | .settle => b.settle
  | .advance milliseconds => b.advance milliseconds

def occurMoves (b : Button κ η fixed) : Occurrence κ η fixed → List (Move κ η fixed)
  | .move m => [m]
  | .settle => b.settleMoves
  | .advance milliseconds => b.passMoves (b.world.clock + milliseconds) (b.waitsLeft + 1)

theorem run_occurMoves (b : Button κ η fixed) (o : Occurrence κ η fixed) :
    b.run (b.occurMoves o) = b.occur o := by
  cases o with
  | move m => rfl
  | settle => exact run_settleMoves b
  | advance => exact run_passMoves _ _ b

def occurAll (b : Button κ η fixed) (all : List (Occurrence κ η fixed)) : Button κ η fixed :=
  all.foldl occur b

/-- The steps that are run in all that happens. -/
def journal (b : Button κ η fixed) :
    List (Occurrence κ η fixed) → List (Nat × Entry (World κ η fixed))
  | [] => []
  | o :: rest => b.ledger (b.occurMoves o) ++ (b.occur o).journal rest

end Occurrences

/-- The second list is the first with aborts put in, each at a moment when nothing waits. -/
inductive AbortsInserted : Button κ Bench.Stage fixed → List (Occurrence κ Bench.Stage fixed) →
    List (Occurrence κ Bench.Stage fixed) → Prop
  | done (c : Button κ Bench.Stage fixed) : AbortsInserted c [] []
  | same {c : Button κ Bench.Stage fixed} {o o' : Occurrence κ Bench.Stage fixed}
      {all all' : List (Occurrence κ Bench.Stage fixed)} :
      OccurrenceAlike o o' → AbortsInserted (c.occur o') all all' →
      AbortsInserted c (o :: all) (o' :: all')
  | abort {c : Button κ Bench.Stage fixed} {all all' : List (Occurrence κ Bench.Stage fixed)} :
      c.world.pending = [] → AbortsInserted (c.change World.abort) all all' →
      AbortsInserted c all (.move .abort :: all')

variable {R : Step (World κ Bench.Stage fixed) → Step (World κ Bench.Stage fixed) → Prop}
  {b c : Button κ Bench.Stage fixed} (sound : ∀ s s', R s s' → Matches s s')

include sound in
theorem Alike.occur (alike : Alike R b c) {o o' : Occurrence κ Bench.Stage fixed}
    (same : OccurrenceAlike o o') :
    Alike R (b.occur o) (c.occur o') ∧
      List.Forall₂ (TaggedAlike R) (b.ledger (b.occurMoves o)) (c.ledger (c.occurMoves o')) := by
  have moves : List.Forall₂ MoveAlike (b.occurMoves o) (c.occurMoves o') := by
    cases same with
    | move same => exact .cons same .nil
    | settle => exact alike.settleMoves sound
    | advance milliseconds =>
      rw [occurMoves, occurMoves, alike.world.clock, alike.waitsLeft]
      exact alike.passMoves sound _ _
  rw [← run_occurMoves, ← run_occurMoves]
  exact alike.run sound moves

include sound in
/-- By induction on the second run, in which an abort that is put in is no turn of the first. -/
theorem Alike.inserted (alike : Alike R b c) {all all' : List (Occurrence κ Bench.Stage fixed)}
    (inserted : AbortsInserted c all all') :
    Alike R (b.occurAll all) (c.occurAll all') ∧
      List.Forall₂ (TaggedAlike R) (b.journal all) (c.journal all') := by
  induction inserted generalizing b with
  | done c => exact ⟨alike, .nil⟩
  | same same rest ih =>
    obtain ⟨occurred, entered⟩ := alike.occur sound same
    obtain ⟨alike, more⟩ := ih occurred
    exact ⟨alike, List.rel_append entered more⟩
  | abort quiet rest ih =>
    exact ih ⟨alike.success, alike.reject, alike.world.aborted quiet, alike.inFlight, alike.started,
      alike.running, alike.endings⟩

end Button

/-- Aborts or lets be, and aborts only when nothing waits. -/
def AbortsQuietly (q : World κ Bench.Stage fixed → World κ Bench.Stage fixed) : Prop :=
  ∀ w, q w = w ∨ w.pending = [] ∧ q w = w.abort

namespace AbortsQuietly

variable {q f g : World κ Bench.Stage fixed → World κ Bench.Stage fixed} (quiet : AbortsQuietly q)
include quiet

theorem alike {v w : World κ Bench.Stage fixed} (alike : World.Alike v w) :
    World.Alike v (q w) := by
  rcases quiet w with none | ⟨free, aborts⟩
  · rwa [none]
  · rw [aborts]
    exact alike.aborted free

theorem before (same : World.Same f g) : World.Same f fun w => g (q w) :=
  fun v w alike => same v (q w) (quiet.alike alike)

theorem after (same : World.Same f g) : World.Same f fun w => q (g w) :=
  fun v w alike => quiet.alike (same v w alike)

theorem step {s s' : Step (World κ Bench.Stage fixed)} (same : Matches s s') :
    Matches s fun input w => s' input (q w) :=
  fun input v w alike => same input v (q w) (quiet.alike alike)

end AbortsQuietly

/-- Steps that do the same thing in two runs, of all the things that the steps of a button do. -/
def SameDeed {τ : Type} (run run' : τ → Step (World κ Bench.Stage fixed))
    (s s' : Step (World κ Bench.Stage fixed)) : Prop :=
  ∃ t, s = run t ∧ s' = run' t

namespace Button

theorem steps_alike {τ : Type} (run run' : τ → Step (World κ Bench.Stage fixed))
    (chain : List (Resolved τ)) :
    List.Forall₂ (SameDeed run run') ((chain.map (Resolved.map run)).map (·.step))
      ((chain.map (Resolved.map run')).map (·.step)) := by
  rw [List.map_map, List.map_map, List.forall₂_map_left_iff, List.forall₂_map_right_iff,
    List.forall₂_same]
  exact fun r _ => ⟨r.step, rfl, rfl⟩

/-- Aborts leave nothing behind when nothing waits. The chains are made of actions and of whatever
steps the page has of its own that do not look at the record of aborts; what else the page does,
also from within its listeners, does not look at it either. Then such aborts can be put in between
any two things that happen, and also into what the page and its listeners do: the same steps run on
the same inputs and settle with the same results, every activation ends as it did, and the element,
the page and all that waits are the same, but for the record of aborts of a form that keeps one. -/
theorem aborts_without_residue {τ : Type} (settings : ButtonSettings) (element : Element κ)
    (page : Bench.Stage) {react react' : React κ Bench.Stage ⟨settings, element.classes.text⟩}
    (listeners : ∀ k e, World.Same (react k e) (react' k e))
    {own own' : τ → Step (World κ Bench.Stage ⟨settings, element.classes.text⟩)}
    (heedless : ∀ t, Matches (own t) (own' t)) (plan : Chains (Action ⊕ τ))
    {all all' : List (Occurrence κ Bench.Stage ⟨settings, element.classes.text⟩)} :
    let run := Sum.elim (Action.run react) own
    let run' := Sum.elim (Action.run react') own'
    let first := ofChains settings element page (plan.map run)
    let second := ofChains settings element page (plan.map run')
    let b := first.occurAll all
    let c := second.occurAll all'
    (AbortsInserted second all all' →
      List.Forall₂ (TaggedAlike (SameDeed run run')) (first.journal all) (second.journal all') ∧
      c.endings = b.endings ∧ c.started = b.started ∧ c.inFlight = b.inFlight ∧
      c.world.element = b.world.element ∧ c.world.page.unaborted = b.world.page.unaborted ∧
      c.world.clock = b.world.clock ∧ c.world.pending = b.world.pending ∧
      c.world.woken = b.world.woken) ∧
    ∀ q : World κ Bench.Stage ⟨settings, element.classes.text⟩ → World κ Bench.Stage _,
      AbortsQuietly q → (∀ f g, World.Same f g →
        World.Same f (fun w => g (q w)) ∧ World.Same f fun w => q (g w)) ∧
      ∀ s s', Matches s s' → Matches s fun input w => s' input (q w) := by
  intro run run' first second b c
  refine ⟨fun inserted => ?_, fun q quiet =>
    ⟨fun f g same => ⟨quiet.before same, quiet.after same⟩, fun s s' same => quiet.step same⟩⟩
  have sound : ∀ s s', SameDeed run run' s s' → Matches s s' := by
    rintro s s' ⟨a | t, rfl, rfl⟩
    · exact Action.run_matches listeners a
    · exact heedless t
  have begun : Alike (SameDeed run run') first second :=
    ⟨steps_alike run run' plan.success, steps_alike run run' plan.reject,
      ⟨rfl, rfl, rfl, rfl, rfl, rfl, rfl, by rintro t (taken | taken) <;> cases taken⟩, rfl, rfl,
      .nil, rfl⟩
  obtain ⟨alike, entered⟩ := begun.inserted sound inserted
  exact ⟨entered, alike.endings.symm, alike.started.symm, alike.inFlight.symm,
    alike.world.element.symm, alike.world.page.symm, alike.world.clock.symm,
    alike.world.pending.symm, alike.world.woken.symm⟩

def quietElement : Element Callback := { id := "save" }

abbrev quietFixed : Fixed := ⟨{ okayDelay := 5 }, quietElement.classes.text⟩

/-- The steps of this page: one leaves a label, one the look of the element. -/
def quietOwn : Option String → Step (BenchWorld quietFixed)
  | some text => fun input w => (mark (.label text) w, .settled (.ok input))
  | none => lookStep

def quietStep : Action ⊕ Option String → Step (BenchWorld quietFixed) :=
  Sum.elim (Action.run (react 1)) quietOwn

def quietPlan : Chains (Action ⊕ Option String) where
  success :=
    [⟨⟨"okay", []⟩, [], .inl (.okay none)⟩,
      ⟨⟨"mark", [.string "sent"]⟩, [.literal (.string "sent")], .inr (some "sent")⟩,
      ⟨⟨"submit", []⟩, [], .inl (.submit none)⟩, ⟨⟨"probe", []⟩, [], .inr none⟩]
  reject := []

def quietStage : Bench.Stage := ⟨.scripted {}, [], [], []⟩

def quietButton : Button Callback Bench.Stage quietFixed :=
  ofChains quietFixed.settings quietElement quietStage (quietPlan.map quietStep)

/-- The second abort finds the slot still taken by the pause of an activation that was dropped. -/
theorem aborts_without_residue_dropped :
    let all : List (Occurrence Callback Bench.Stage quietFixed) :=
      [.move .activate, .move (.drop 0), .move .activate, .advance 5]
    let all' : List (Occurrence Callback Bench.Stage quietFixed) :=
      [.move .abort, .move .activate, .move (.drop 0), .move .abort, .move .activate, .advance 5]
    AbortsInserted quietButton all all' ∧
      (quietButton.occurAll all').endings = (quietButton.occurAll all).endings ∧
      (quietButton.occurAll all').endings =
        [(0, .dropped), (1, .outcome (.fulfilled (some ⟨200, .emptyObject⟩)))] ∧
      List.Forall₂ (TaggedAlike (SameDeed quietStep quietStep)) (quietButton.journal all)
        (quietButton.journal all') := by
  intro all all'
  have inserted : AbortsInserted quietButton all all' :=
    .abort rfl (.same (.move .activate) (.same (.move (.drop 0))
      (.abort rfl (.same (.move .activate) (.same (.advance 5) (.done _))))))
  have heedless : ∀ t, Matches (quietOwn t) (quietOwn t) := by
    rintro (_ | text)
    · exact look_matches
    · exact label_matches text fun _ input => .ok input
  obtain ⟨entered, endings, -⟩ :=
    (aborts_without_residue quietFixed.settings quietElement quietStage (react_same 1) heedless
      quietPlan).1 inserted
  refine ⟨inserted, endings, ?_, entered⟩
  rfl

end Button

end ActionChain
