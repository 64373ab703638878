import ActionChain.Proofs.Actions
import ActionChain.Proofs.Binding
import ActionChain.Proofs.ClassLists
import ActionChain.Proofs.Milliseconds

/-!
The signatures of the actions. `signature?` lists them by name, and `Action.held` is what an action
has of its arguments. Main statement `ofCall_signatures`: a name and arguments make the action of
that name which holds what its signature takes them for, or nothing if the signature does not take
them.
-/
namespace ActionChain

open ClassList (IsName)

/-- What is asked of one argument. -/
inductive Parameter
  | className
  | eventName
  | url
  | milliseconds
  | any
  deriving DecidableEq, Repr

/-- An argument as it is kept by an action. -/
inductive Held
  | text (s : String)
  | pause (p : Micros)
  | bound (b : Bound)

/-- Whether an argument is what a parameter asks for, and as what it is kept. Only literals are
looked into; what is deferred can be any value when the time comes. -/
inductive Parameter.Takes : Parameter → Bound → Held → Prop
  | className {c : String} : IsName c → Takes .className (.literal (.string c)) (.text c)
  | eventName {s : String} : s ≠ "" → Takes .eventName (.literal (.string s)) (.text s)
  | url (s : String) : Takes .url (.literal (.string s)) (.text s)
  | milliseconds {v : Json} {x : Binary64} : v.number? = some x → x.isFinite = true →
    x.nonnegative = true → Takes .milliseconds (.literal v) (.pause (Action.micros x))
  | any (b : Bound) : Takes .any b (.bound b)

/-- One argument for each parameter, in order. -/
inductive TakesAll : List Parameter → List Bound → List Held → Prop
  | nil : TakesAll [] [] []
  | cons {p : Parameter} {b : Bound} {h : Held} {ps : List Parameter} {bs : List Bound}
    {hs : List Held} : p.Takes b h → TakesAll ps bs hs → TakesAll (p :: ps) (b :: bs) (h :: hs)

/-- What may follow the arguments that are needed. -/
inductive Further
  | nothing
  | optional (p : Parameter)
  | anything

def Further.Admits : Further → List Parameter → Prop
  | .nothing, ps => ps = []
  | .optional p, ps => ps = [] ∨ ps = [p]
  | .anything, ps => ∀ p ∈ ps, p = .any

structure Signature where
  needed : List Parameter := []
  further : Further := .nothing

namespace Signature

/-- The parameters are those of a call with the right number of arguments. -/
def Admits (sig : Signature) (ps : List Parameter) : Prop :=
  ∃ more, sig.further.Admits more ∧ ps = sig.needed ++ more

def Takes (sig : Signature) (args : List Bound) (kept : List Held) : Prop :=
  ∃ ps, sig.Admits ps ∧ TakesAll ps args kept

end Signature

/-- An argument is what a parameter asks for. -/
def Parameter.Fits (p : Parameter) (b : Bound) : Prop := ∃ h, p.Takes b h

def Action.signature? : String → Option Signature
  | "addClass" | "removeClass" | "toggleClass" => some { needed := [.className] }
  | "submit" => some { further := .optional .any }
  | "proceed" => some { further := .optional .url }
  | "emit" => some { needed := [.eventName], further := .optional .any }
  | "activate" => some { further := .anything }
  | "delay" => some { needed := [.milliseconds] }
  | "okay" | "bummer" => some { further := .optional .milliseconds }
  | name => if name ∈ Action.names then some {} else none

/-- What an action has of its arguments, in their order. -/
def Action.held : Action → List Held
  | .addClass c | .removeClass c | .toggleClass c => [.text c]
  | .submit data => (data.map .bound).toList
  | .proceed fallback => (fallback.map .text).toList
  | .emit event detail => .text event :: (detail.map .bound).toList
  | .activate args => args.map .bound
  | .delay pause => [.pause pause]
  | .okay pause | .bummer pause => (pause.map .pause).toList
  | _ => []

section Taking

variable {p : Parameter} {sig : Signature} {b : Bound} {args : List Bound} {kept : List Held}

theorem takesAll_nil : TakesAll [] args kept ↔ args = [] ∧ kept = [] := by
  constructor
  · rintro ⟨⟩
    exact ⟨rfl, rfl⟩
  · rintro ⟨rfl, rfl⟩
    exact .nil

theorem takesAll_cons {ps : List Parameter} : TakesAll (p :: ps) args kept ↔
    ∃ b bs h hs, args = b :: bs ∧ kept = h :: hs ∧ p.Takes b h ∧ TakesAll ps bs hs := by
  constructor
  · rintro ⟨⟩
    exact ⟨_, _, _, _, rfl, rfl, ‹_›, ‹_›⟩
  · rintro ⟨b, bs, h, hs, rfl, rfl, first, rest⟩
    exact .cons first rest

theorem takesAll_any {ps : List Parameter} (any : ∀ p ∈ ps, p = .any)
    (takes : TakesAll ps args kept) : kept = args.map .bound := by
  induction takes with
  | nil => rfl
  | cons first _ ih =>
    obtain ⟨rfl, others⟩ := List.forall_mem_cons.mp any
    cases first
    rw [ih others, List.map_cons]

theorem takesAll_bounds (args : List Bound) :
    TakesAll (List.replicate args.length .any) args (args.map .bound) := by
  induction args with
  | nil => exact .nil
  | cons b rest ih => exact .cons (.any b) ih

theorem exists_takesAll {ps : List Parameter} :
    (∃ kept, TakesAll ps args kept) ↔ List.Forall₂ Parameter.Fits ps args := by
  constructor
  · rintro ⟨kept, takes⟩
    induction takes with
    | nil => exact .nil
    | cons first _ ih => exact .cons ⟨_, first⟩ ih
  · intro fits
    induction fits with
    | nil => exact ⟨[], .nil⟩
    | cons first _ ih =>
      obtain ⟨h, takes⟩ := first
      obtain ⟨hs, rest⟩ := ih
      exact ⟨h :: hs, .cons takes rest⟩

theorem takes_nothing : Signature.Takes {} args kept ↔ args = [] ∧ kept = [] := by
  rw [← takesAll_nil]
  constructor
  · rintro ⟨_, ⟨_, rfl, rfl⟩, takes⟩
    exact takes
  · exact fun takes => ⟨[], ⟨[], rfl, rfl⟩, takes⟩

theorem takes_cons {ps : List Parameter} {further : Further} :
    Signature.Takes ⟨p :: ps, further⟩ args kept ↔ ∃ b bs h hs, args = b :: bs ∧ kept = h :: hs ∧
      p.Takes b h ∧ Signature.Takes ⟨ps, further⟩ bs hs := by
  constructor
  · rintro ⟨_, ⟨more, admits, rfl⟩, takes⟩
    obtain ⟨b, bs, h, hs, rfl, rfl, first, rest⟩ := takesAll_cons.mp takes
    exact ⟨b, bs, h, hs, rfl, rfl, first, _, ⟨more, admits, rfl⟩, rest⟩
  · rintro ⟨b, bs, h, hs, rfl, rfl, first, _, ⟨more, admits, rfl⟩, rest⟩
    exact ⟨_, ⟨more, admits, rfl⟩, .cons first rest⟩

theorem takes_one : Signature.Takes { needed := [p] } args kept ↔
    ∃ b h, args = [b] ∧ kept = [h] ∧ p.Takes b h := by
  rw [takes_cons]
  constructor
  · rintro ⟨b, bs, h, hs, rfl, rfl, takes, none⟩
    obtain ⟨rfl, rfl⟩ := takes_nothing.mp none
    exact ⟨b, h, rfl, rfl, takes⟩
  · rintro ⟨b, h, rfl, rfl, takes⟩
    exact ⟨b, [], h, [], rfl, rfl, takes, takes_nothing.mpr ⟨rfl, rfl⟩⟩

theorem takes_optional : Signature.Takes { further := .optional p } args kept ↔
    Signature.Takes {} args kept ∨ Signature.Takes { needed := [p] } args kept := by
  constructor
  · rintro ⟨_, ⟨_, rfl | rfl, rfl⟩, takes⟩
    · exact .inl ⟨[], ⟨[], rfl, rfl⟩, takes⟩
    · exact .inr ⟨[p], ⟨[], rfl, rfl⟩, takes⟩
  · rintro (⟨_, ⟨_, rfl, rfl⟩, takes⟩ | ⟨_, ⟨_, rfl, rfl⟩, takes⟩)
    · exact ⟨[], ⟨[], .inl rfl, rfl⟩, takes⟩
    · exact ⟨[p], ⟨[p], .inr rfl, rfl⟩, takes⟩

theorem kept_any {h : Held} (takes : Parameter.Takes .any b h) : ∃ c, h = .bound c := by
  cases takes
  exact ⟨b, rfl⟩

theorem kept_url {h : Held} (takes : Parameter.Takes .url b h) : ∃ s, h = .text s := by
  cases takes with
  | url s => exact ⟨s, rfl⟩

theorem kept_milliseconds {h : Held} (takes : Parameter.Takes .milliseconds b h) :
    ∃ pause, h = .pause pause := by
  cases takes with
  | milliseconds => exact ⟨_, rfl⟩

theorem kept_of_optional {α : Type} {keep : α → Held}
    (keeps : ∀ b h, p.Takes b h → ∃ a, h = keep a)
    (takes : Signature.Takes { further := .optional p } args kept) :
    ∃ o : Option α, kept = (o.map keep).toList := by
  rcases takes_optional.mp takes with none | one
  · exact ⟨.none, (takes_nothing.mp none).2⟩
  · obtain ⟨b, h, -, rfl, first⟩ := takes_one.mp one
    obtain ⟨a, rfl⟩ := keeps b h first
    exact ⟨some a, rfl⟩

theorem takes_anything :
    Signature.Takes { further := .anything } args kept ↔ kept = args.map .bound := by
  constructor
  · rintro ⟨_, ⟨ps, any, rfl⟩, takes⟩
    exact takesAll_any any takes
  · rintro rfl
    exact ⟨_, ⟨_, fun p mem => List.eq_of_mem_replicate mem, rfl⟩, takesAll_bounds args⟩

end Taking

/-- A check of arguments: its results are those that `P` describes, and its faults are about the
arguments of the action. -/
structure Settles {α : Type} (action : String) (x : Except Fault α) (P : α → Prop) : Prop where
  gives (a : α) : x = .ok a ↔ P a
  refuses {f : Fault} : x = .error f → ∃ why, f = .badArguments action why

namespace Settles

variable {α β : Type} {action : String} {x : Except Fault α} {P : α → Prop}

theorem ok {a : α} (only : ∀ b, P b ↔ b = a) : Settles action (.ok a) P where
  gives b := by rw [only, Except.ok.injEq, eq_comm]
  refuses := nofun

theorem refuse {why : ArgumentFault} (none : ∀ a, ¬P a) :
    Settles action (Action.refuse action why) P where
  gives a := iff_of_false nofun (none a)
  refuses refused := ⟨why, (Except.error.inj refused).symm⟩

theorem map_refuses {g : α → β} {f : Fault} (settles : Settles action x P)
    (refused : g <$> x = .error f) : ∃ why, f = .badArguments action why :=
  settles.refuses (map_error_iff.mp refused)

end Settles

namespace Bound

variable {b : Bound}

theorem string?_eq_some {s : String} : b.string? = some s ↔ b = .literal (.string s) := by
  constructor
  · intro read
    obtain ⟨v, known, read⟩ := Option.bind_eq_some_iff.mp read
    cases b <;> cases known
    cases v <;> cases read
    rfl
  · rintro rfl
    rfl

theorem number?_eq_some {x : Binary64} :
    b.number? = some x ↔ ∃ v, b = .literal v ∧ v.number? = some x := by
  constructor
  · intro read
    obtain ⟨v, known, read⟩ := Option.bind_eq_some_iff.mp read
    cases b <;> cases known
    exact ⟨v, rfl, read⟩
  · rintro ⟨v, rfl, read⟩
    exact read

end Bound

namespace Action

variable {name : String} {b : Bound} {args : List Bound} {a : Action}

theorem noArguments_settles (name : String) (args : List Bound) (a : Action) :
    Settles name (noArguments name args a) fun b => b = a ∧ Signature.Takes {} args [] := by
  simp only [takes_nothing, and_true]
  fun_cases noArguments name args a with
  | case1 none => exact .ok fun b => by simp [List.isEmpty_iff.mp none]
  | case2 some => exact .refuse fun b kept => some (List.isEmpty_iff.mpr kept.2)

theorem isClassName_iff {c : String} : isClassName c = true ↔ IsName c := by
  have empty : c.isEmpty = true ↔ c.toList = [] := by
    rw [String.isEmpty_iff, String.toList_eq_nil_iff]
  constructor
  · intro fine
    simp only [isClassName, Bool.and_eq_true, Bool.not_eq_true', List.any_eq_false] at fine
    refine ⟨fun none => ?_, fun x mem => by simpa using fine.2 x mem⟩
    rw [empty.mpr none] at fine
    cases fine.1
  · rintro ⟨some, solid⟩
    simp only [isClassName, Bool.and_eq_true, Bool.not_eq_true', List.any_eq_false]
    refine ⟨Bool.eq_false_iff.mpr (mt empty.mp some), fun x mem => by simpa using solid x mem⟩

theorem takes_className {c : String} :
    Parameter.Takes .className b (.text c) ↔ b.string? = some c ∧ isClassName c = true := by
  rw [Bound.string?_eq_some, isClassName_iff]
  constructor
  · rintro ⟨⟩
    exact ⟨rfl, ‹_›⟩
  · rintro ⟨rfl, word⟩
    exact .className word

theorem takes_eventName {s : String} :
    Parameter.Takes .eventName b (.text s) ↔ b.string? = some s ∧ s.isEmpty = false := by
  rw [Bound.string?_eq_some, ← Bool.not_eq_true, String.isEmpty_iff]
  constructor
  · rintro ⟨⟩
    exact ⟨rfl, ‹_›⟩
  · rintro ⟨rfl, some⟩
    exact .eventName some

theorem takes_url {s : String} : Parameter.Takes .url b (.text s) ↔ b.string? = some s := by
  rw [Bound.string?_eq_some]
  constructor
  · rintro ⟨⟩
    rfl
  · rintro rfl
    exact .url s

theorem takes_milliseconds {p : Micros} : Parameter.Takes .milliseconds b (.pause p) ↔
    ∃ x, b.number? = some x ∧ (x.isFinite && x.nonnegative) = true ∧ p = micros x := by
  simp only [Bound.number?_eq_some, Bool.and_eq_true]
  constructor
  · intro takes
    generalize kept : Held.pause p = h at takes
    cases takes with
    | milliseconds number finite nonnegative =>
      exact ⟨_, ⟨_, rfl, number⟩, ⟨finite, nonnegative⟩, Held.pause.inj kept⟩
  · rintro ⟨x, ⟨v, rfl, number⟩, ⟨finite, nonnegative⟩, same⟩
    exact same ▸ .milliseconds number finite nonnegative

theorem className_settles (name : String) (args : List Bound) : Settles name (className name args)
    fun c => Signature.Takes { needed := [.className] } args [.text c] := by
  have meaning (c : String) : Signature.Takes { needed := [.className] } args [.text c] ↔
      ∃ b, args = [b] ∧ b.string? = some c ∧ isClassName c = true := by
    simp [takes_one, ← takes_className]
  simp only [meaning]
  fun_cases className name args with
  | case1 b s read fine =>
    refine .ok fun c => ⟨?_, ?_⟩
    · rintro ⟨_, ⟨⟩, same, -⟩
      exact Option.some.inj (same.symm.trans read)
    · rintro rfl
      exact ⟨b, rfl, read, fine⟩
  | case2 b s read bad =>
    refine .refuse fun c => ?_
    rintro ⟨_, ⟨⟩, same, fine⟩
    cases read.symm.trans same
    exact bad fine
  | case3 b read => exact .refuse fun c => by simp [read]
  | case4 args other => exact .refuse fun c ⟨b, one, _⟩ => other b one

theorem duration_settles (name : String) (b : Bound) : Settles name (duration name b)
    fun p => Parameter.Takes .milliseconds b (.pause p) := by
  simp only [takes_milliseconds]
  fun_cases duration name b with
  | case1 x read fine => exact .ok fun p => by simp [read, Bool.and_eq_true_iff.mp fine]
  | case2 x read bad => exact .refuse fun p => by simp_all
  | case3 read => exact .refuse fun p => by simp [read]

theorem eventName_settles (name : String) (b : Bound) : Settles name (eventName name b)
    fun s => Parameter.Takes .eventName b (.text s) := by
  simp only [takes_eventName]
  fun_cases eventName name b with
  | case1 s read empty =>
    refine .refuse fun t => ?_
    rintro ⟨same, some⟩
    cases read.symm.trans same
    exact Bool.false_ne_true (some.symm.trans empty)
  | case2 s read some =>
    refine .ok fun t => ⟨?_, ?_⟩
    · rintro ⟨same, -⟩
      exact Option.some.inj (same.symm.trans read)
    · rintro rfl
      exact ⟨read, Bool.eq_false_iff.mpr some⟩
  | case3 read => exact .refuse fun t => by simp [read]

/-- At most one argument, with a check of its own. -/
def optionally {α : Type} (action : String) (check : Bound → Except Fault α) :
    List Bound → Except Fault (Option α)
  | [] => .ok none
  | [b] => some <$> check b
  | args => refuse action (.count .atMostOne args.length)

theorem optionally_settles {α : Type} {p : Parameter} {check : Bound → Except Fault α}
    {keep : α → Held} (each : ∀ b, Settles name (check b) fun a => p.Takes b (keep a))
    (args : List Bound) : Settles name (optionally name check args)
      fun o => Signature.Takes { further := .optional p } args (o.map keep).toList := by
  simp only [takes_optional, takes_nothing, takes_one]
  match args with
  | [] =>
    refine .ok fun o => ?_
    cases o <;> simp
  | [b] =>
    refine ⟨fun o => ?_, (each b).map_refuses⟩
    rw [optionally, map_ok_iff]
    cases o with
    | none => simp
    | some a => simp [(each b).gives]
  | _ :: _ :: _ =>
    refine .refuse fun o => ?_
    simp

theorem optional_eq (name : String) (args : List Bound) :
    optional name args = optionally name .ok args := by
  match args with
  | [] | [_] | _ :: _ :: _ => rfl

theorem optionalDuration_eq (name : String) (args : List Bound) :
    optionalDuration name args = optionally name (duration name) args := by
  match args with
  | [] | _ :: _ :: _ => rfl
  | [b] =>
    show (do return some (← duration name b)) = some <$> duration name b
    cases duration name b <;> rfl

/-- The check of a fallback URL. -/
def url (action : String) (b : Bound) : Except Fault String :=
  match b.string? with
  | some url => .ok url
  | none => refuse action .url

theorem fallbackUrl_eq (name : String) (args : List Bound) :
    fallbackUrl name args = optionally name (url name) args := by
  match args with
  | [] | _ :: _ :: _ => rfl
  | [b] =>
    show (match b.string? with
      | some url => pure (some url)
      | none => refuse name .url) = some <$> url name b
    rw [url]
    cases b.string? <;> rfl

theorem any_settles (name : String) (b : Bound) :
    Settles name (.ok b) fun a => Parameter.Takes .any b (.bound a) := by
  refine .ok fun a => ⟨?_, ?_⟩
  · rintro ⟨⟩
    rfl
  · rintro rfl
    exact .any a

theorem url_settles (name : String) (b : Bound) :
    Settles name (url name b) fun s => Parameter.Takes .url b (.text s) := by
  simp only [takes_url]
  fun_cases url name b with
  | case1 s read => exact .ok fun t => by simp [read, eq_comm]
  | case2 read => exact .refuse fun t => by simp [read]

theorem optional_settles (name : String) (args : List Bound) : Settles name (optional name args)
    fun data => Signature.Takes { further := .optional .any } args (data.map .bound).toList :=
  optional_eq name args ▸ optionally_settles (any_settles name) args

theorem optionalDuration_settles (name : String) (args : List Bound) :
    Settles name (optionalDuration name args) fun pause =>
      Signature.Takes { further := .optional .milliseconds } args (pause.map .pause).toList :=
  optionalDuration_eq name args ▸ optionally_settles (duration_settles name) args

theorem fallbackUrl_settles (name : String) (args : List Bound) :
    Settles name (fallbackUrl name args) fun fallback =>
      Signature.Takes { further := .optional .url } args (fallback.map .text).toList :=
  fallbackUrl_eq name args ▸ optionally_settles (url_settles name) args

/-- The names that have a signature are those of the actions. -/
theorem signature?_isSome : (signature? name).isSome ↔ name ∈ names := by
  fun_cases signature? name with
  | case11 =>
    rename_i known
    exact iff_of_true rfl known
  | case12 =>
    rename_i unknown
    exact iff_of_false nofun unknown
  | _ => exact iff_of_true rfl (by decide)

theorem takes_data {data : Option Bound} :
    Signature.Takes { further := .optional .any } args (data.map .bound).toList ↔
      args = data.toList := by
  rw [← (optional_settles "" args).gives data]
  match args with
  | [] | [_] | _ :: _ :: _ => cases data <;> simp [optional, refuse]

theorem takes_emit {event : String} {detail : Option Bound} :
    Signature.Takes { needed := [.eventName], further := .optional .any } args
      (Action.emit event detail).held ↔
        ∃ b, Parameter.Takes .eventName b (.text event) ∧ args = b :: detail.toList := by
  rw [takes_cons, held]
  constructor
  · rintro ⟨b, bs, _, _, rfl, ⟨rfl, rfl⟩, first, more⟩
    exact ⟨b, first, by rw [takes_data.mp more]⟩
  · rintro ⟨b, first, rfl⟩
    exact ⟨b, _, _, _, rfl, rfl, first, takes_data.mpr rfl⟩

theorem takes_of_ofCall (made : ofCall name args = .ok a) :
    ∃ sig, signature? name = some sig ∧ sig.Takes args a.held := by
  revert made
  fun_cases ofCall name args with
  | case1 | case2 | case7 | case8 | case10 | case17 | case20 | case21 =>
    intro made
    obtain ⟨rfl, none⟩ := ((noArguments_settles ..).gives a).mp made
    exact ⟨_, rfl, none⟩
  | case3 | case4 | case5 =>
    intro made
    obtain ⟨c, read, rfl⟩ := map_ok_iff.mp made
    exact ⟨_, rfl, ((className_settles ..).gives c).mp read⟩
  | case6 =>
    intro made
    obtain ⟨data, read, rfl⟩ := map_ok_iff.mp made
    exact ⟨_, rfl, ((optional_settles ..).gives data).mp read⟩
  | case9 =>
    intro made
    obtain ⟨fallback, read, rfl⟩ := map_ok_iff.mp made
    exact ⟨_, rfl, ((fallbackUrl_settles ..).gives fallback).mp read⟩
  | case11 b =>
    intro made
    obtain ⟨event, read, rfl⟩ := map_ok_iff.mp made
    exact ⟨_, rfl, takes_emit.mpr ⟨b, ((eventName_settles ..).gives event).mp read, rfl⟩⟩
  | case12 b detail =>
    intro made
    obtain ⟨event, read, rfl⟩ := map_ok_iff.mp made
    exact ⟨_, rfl, takes_emit.mpr ⟨b, ((eventName_settles ..).gives event).mp read, rfl⟩⟩
  | case14 =>
    intro made
    cases made
    exact ⟨_, rfl, takes_anything.mpr rfl⟩
  | case15 b =>
    intro made
    obtain ⟨pause, read, rfl⟩ := map_ok_iff.mp made
    exact ⟨_, rfl, takes_one.mpr ⟨b, _, rfl, rfl, ((duration_settles ..).gives pause).mp read⟩⟩
  | case18 | case19 =>
    intro made
    obtain ⟨pause, read, rfl⟩ := map_ok_iff.mp made
    exact ⟨_, rfl, ((optionalDuration_settles ..).gives pause).mp read⟩
  | case13 | case16 | case22 =>
    intro made
    cases made

theorem ofCall_of_takes {sig : Signature} (known : signature? a.name = some sig)
    (takes : sig.Takes args a.held) : ofCall a.name args = .ok a := by
  cases a with
  | disable | enable | reset | clearErrors | reload | spinner | intercept | noop =>
    cases Option.some.inj known
    exact ((noArguments_settles ..).gives _).mpr ⟨rfl, takes⟩
  | addClass c | removeClass c | toggleClass c =>
    cases Option.some.inj known
    exact map_ok_iff.mpr ⟨c, ((className_settles ..).gives c).mpr takes, rfl⟩
  | submit data =>
    cases Option.some.inj known
    exact map_ok_iff.mpr ⟨data, ((optional_settles ..).gives data).mpr takes, rfl⟩
  | proceed fallback =>
    cases Option.some.inj known
    exact map_ok_iff.mpr ⟨fallback, ((fallbackUrl_settles ..).gives fallback).mpr takes, rfl⟩
  | emit event detail =>
    cases Option.some.inj known
    obtain ⟨b, first, rfl⟩ := takes_emit.mp takes
    have read := ((eventName_settles "emit" b).gives event).mpr first
    cases detail with
    | none => exact map_ok_iff.mpr ⟨event, read, rfl⟩
    | some d => exact map_ok_iff.mpr ⟨event, read, rfl⟩
  | activate bs =>
    cases Option.some.inj known
    have same : bs = args :=
      List.map_injective_iff.mpr (fun _ _ => Held.bound.inj) (takes_anything.mp takes)
    rw [same]
    rfl
  | delay pause =>
    cases Option.some.inj known
    obtain ⟨b, h, rfl, kept, first⟩ := takes_one.mp takes
    cases kept
    exact map_ok_iff.mpr ⟨pause, ((duration_settles "delay" b).gives pause).mpr first, rfl⟩
  | okay pause | bummer pause =>
    cases Option.some.inj known
    exact map_ok_iff.mpr ⟨pause, ((optionalDuration_settles ..).gives pause).mpr takes, rfl⟩

theorem ofCall_refuses {f : Fault} (known : name ∈ names) (refused : ofCall name args = .error f) :
    ∃ why, f = .badArguments name why := by
  revert refused
  fun_cases ofCall name args with
  | case1 | case2 | case7 | case8 | case10 | case17 | case20 | case21 =>
    exact (noArguments_settles ..).refuses
  | case3 | case4 | case5 => exact (className_settles ..).map_refuses
  | case6 => exact (optional_settles ..).map_refuses
  | case9 => exact (fallbackUrl_settles ..).map_refuses
  | case11 b | case12 b => exact (eventName_settles "emit" b).map_refuses
  | case13 => exact fun refused => ⟨_, (Except.error.inj refused).symm⟩
  | case14 =>
    intro refused
    cases refused
  | case15 b => exact (duration_settles "delay" b).map_refuses
  | case16 => exact fun refused => ⟨_, (Except.error.inj refused).symm⟩
  | case18 | case19 => exact (optionalDuration_settles ..).map_refuses
  | case22 => simp_all [names]

theorem ofCall_unknown (unknown : name ∉ names) :
    ofCall name args = .error (.unknownAction name) := by
  fun_cases ofCall name args with
  | case22 => rfl
  | _ => exact absurd (by decide) unknown

theorem ofCall_ok_iff : ofCall name args = .ok a ↔
    a.name = name ∧ ∃ sig, signature? name = some sig ∧ sig.Takes args a.held := by
  constructor
  · exact fun made => ⟨ofCall_name made, takes_of_ofCall made⟩
  · rintro ⟨rfl, sig, known, takes⟩
    exact ofCall_of_takes known takes

theorem ofCall_unknownAction_iff {other : String} :
    ofCall name args = .error (.unknownAction other) ↔ name ∉ names ∧ other = name := by
  constructor
  · intro refused
    by_cases known : name ∈ names
    · obtain ⟨why, same⟩ := ofCall_refuses known refused
      cases same
    · rw [ofCall_unknown known] at refused
      cases refused
      exact ⟨known, rfl⟩
  · rintro ⟨unknown, rfl⟩
    exact ofCall_unknown unknown

/-- For whatever a signature takes there is an action that holds it. -/
theorem exists_held {sig : Signature} {kept : List Held} (known : signature? name = some sig)
    (takes : sig.Takes args kept) : ∃ a : Action, a.name = name ∧ a.held = kept := by
  revert known
  fun_cases signature? name with
  | case1 =>
    rintro ⟨⟩
    obtain ⟨b, _, rfl, rfl, ⟨-⟩⟩ := takes_one.mp takes
    exact ⟨.addClass _, rfl, rfl⟩
  | case2 =>
    rintro ⟨⟩
    obtain ⟨b, _, rfl, rfl, ⟨-⟩⟩ := takes_one.mp takes
    exact ⟨.removeClass _, rfl, rfl⟩
  | case3 =>
    rintro ⟨⟩
    obtain ⟨b, _, rfl, rfl, ⟨-⟩⟩ := takes_one.mp takes
    exact ⟨.toggleClass _, rfl, rfl⟩
  | case4 =>
    rintro ⟨⟩
    obtain ⟨data, rfl⟩ := kept_of_optional (fun _ _ => kept_any) takes
    exact ⟨.submit data, rfl, rfl⟩
  | case5 =>
    rintro ⟨⟩
    obtain ⟨fallback, rfl⟩ := kept_of_optional (fun _ _ => kept_url) takes
    exact ⟨.proceed fallback, rfl, rfl⟩
  | case6 =>
    rintro ⟨⟩
    obtain ⟨b, bs, _, hs, rfl, rfl, ⟨-⟩, more⟩ := takes_cons.mp takes
    obtain ⟨detail, rfl⟩ := kept_of_optional (fun _ _ => kept_any) more
    exact ⟨.emit _ detail, rfl, rfl⟩
  | case7 =>
    rintro ⟨⟩
    exact ⟨.activate args, rfl, (takes_anything.mp takes).symm⟩
  | case8 =>
    rintro ⟨⟩
    obtain ⟨b, _, rfl, rfl, ⟨-⟩⟩ := takes_one.mp takes
    exact ⟨.delay _, rfl, rfl⟩
  | case9 =>
    rintro ⟨⟩
    obtain ⟨pause, rfl⟩ := kept_of_optional (fun _ _ => kept_milliseconds) takes
    exact ⟨.okay pause, rfl, rfl⟩
  | case10 =>
    rintro ⟨⟩
    obtain ⟨pause, rfl⟩ := kept_of_optional (fun _ _ => kept_milliseconds) takes
    exact ⟨.bummer pause, rfl, rfl⟩
  | case11 =>
    rename_i listed
    rintro ⟨⟩
    obtain ⟨rfl, rfl⟩ := takes_nothing.mp takes
    have others : name ∈ ["disable", "enable", "reset", "clearErrors", "reload", "spinner",
      "intercept", "noop"] := by simp_all [names]
    simp only [List.mem_cons, List.not_mem_nil, or_false] at others
    rcases others with rfl | rfl | rfl | rfl | rfl | rfl | rfl | rfl
    · exact ⟨.disable, rfl, rfl⟩
    · exact ⟨.enable, rfl, rfl⟩
    · exact ⟨.reset, rfl, rfl⟩
    · exact ⟨.clearErrors, rfl, rfl⟩
    · exact ⟨.reload, rfl, rfl⟩
    · exact ⟨.spinner, rfl, rfl⟩
    · exact ⟨.intercept, rfl, rfl⟩
    · exact ⟨.noop, rfl, rfl⟩
  | case12 => exact nofun

/-- Whether there is an action for arguments only depends on the arguments, one at a time. -/
theorem exists_ofCall_iff : (∃ a, ofCall name args = .ok a) ↔
    ∃ sig ps, signature? name = some sig ∧ sig.Admits ps ∧ List.Forall₂ Parameter.Fits ps args := by
  simp only [ofCall_ok_iff, ← exists_takesAll]
  constructor
  · rintro ⟨a, -, sig, known, ps, admits, takes⟩
    exact ⟨sig, ps, known, admits, a.held, takes⟩
  · rintro ⟨sig, ps, known, admits, kept, takes⟩
    obtain ⟨a, named, rfl⟩ := exists_held known ⟨ps, admits, takes⟩
    exact ⟨a, named, sig, known, ps, admits, takes⟩

end Action

namespace Catalogue

variable {τ : Type}

/-- The catalogue of all actions has their names, and makes what name and arguments call for. -/
theorem contains_ofActions (embed : Action → τ) (name : String) :
    (ofActions embed).contains name = true ↔ name ∈ Action.names := by
  rw [contains, find?_ofActions]
  split_ifs with known
  · exact iff_of_true rfl known
  · exact iff_of_false Bool.false_ne_true known

theorem create_ofActions (embed : Action → τ) (name : String) (args : List Bound) :
    (ofActions embed).create name args = embed <$> Action.ofCall name args := by
  rw [create, find?_ofActions]
  split_ifs with known
  · rfl
  · rw [Action.ofCall_unknown known]
    rfl

end Catalogue

section Calls

variable {action : String} {a : Argument} {b : Bound} {p : Parameter}

/-- What is bound to an argument with a value function in it is not a literal. -/
theorem Bound.literal?_bind (calls : a.containsCall = true) (bound : bind action a = .ok b) :
    b.literal? = none := by
  cases a with
  | null | bool | number | string => cases calls
  | array items =>
    rw [bind, if_pos calls] at bound
    obtain ⟨bs, -, rfl⟩ := map_ok_iff.mp bound
    rfl
  | object ms =>
    rw [bind, if_pos calls] at bound
    obtain ⟨bs, -, rfl⟩ := map_ok_iff.mp bound
    rfl
  | call name args =>
    cases head : (Argument.headProblems name args.length).head? with
    | some f =>
      rw [bind_refused head] at bound
      cases bound
    | none =>
      obtain ⟨known, one⟩ := Argument.headProblems_nil_iff.mp (List.head?_eq_none_iff.mp head)
      obtain ⟨arg, rfl⟩ := List.length_eq_one_iff.mp one
      rcases known with rfl | rfl
      · rw [bind_getDataValue] at bound
        obtain ⟨path, -, rfl⟩ := map_ok_iff.mp bound
        rfl
      · rw [bind_prefill] at bound
        obtain ⟨inner, -, rfl⟩ := map_ok_iff.mp bound
        rfl

theorem Parameter.Fits.any_of_deferred (fits : p.Fits b) (deferred : b.literal? = none) :
    p = .any := by
  obtain ⟨h, takes⟩ := fits
  cases takes with
  | any => rfl
  | className | eventName | url | milliseconds => cases deferred

theorem Parameter.any_of_calls {ps : List Parameter} {given : List Argument} {args : List Bound}
    (bound : List.Forall₂ (fun g b => Bound.bind action g = .ok b) given args)
    (fits : List.Forall₂ Fits ps args) :
    List.Forall₂ (fun p g => g.containsCall = true → p = .any) ps given := by
  induction bound generalizing ps with
  | nil =>
    cases fits
    exact .nil
  | cons first _ ih =>
    cases fits with
    | cons fit rest =>
      exact .cons (fun calls => fit.any_of_deferred (Bound.literal?_bind calls first)) (ih rest)

/-- A whole number of milliseconds is kept as that many thousand microseconds. -/
theorem Parameter.takes_whole {n : Nat} (small : n * 1000 < 2 ^ 53) :
    Parameter.Takes .milliseconds (.literal (.int n)) (.pause (n * 1000)) := by
  have finite := Binary64.isFinite_ofNat (show n < 2 ^ 53 by omega)
  rw [← Action.micros_whole small]
  exact .milliseconds rfl finite (Binary64.nonnegative_ofNat n)

end Calls

namespace Action

/-- A name and arguments make an action if and only if the name has a signature that takes the
arguments, and the action is the one of this name that holds them as they are taken. Whether they
are taken depends on their number and on each of them alone. No name of an action is unknown, nor is
it to the catalogue of all actions: other arguments end in a fault that names the action. Where a
value function is taken, anything is; and whole milliseconds are kept exactly. -/
theorem ofCall_signatures (name : String) (args : List Bound) :
    (∀ a, ofCall name args = .ok a ↔
      a.name = name ∧ ∃ sig, signature? name = some sig ∧ sig.Takes args a.held) ∧
    ((∃ a, ofCall name args = .ok a) ↔ ∃ sig ps, signature? name = some sig ∧ sig.Admits ps ∧
      List.Forall₂ Parameter.Fits ps args) ∧
    (∀ other, ofCall name args = .error (.unknownAction other) ↔ name ∉ names ∧ other = name) ∧
    (∀ f, ofCall name args = .error f → name ∈ names → ∃ why, f = .badArguments name why) ∧
    ((signature? name).isSome ↔ name ∈ names) ∧
    (∀ (τ : Type) (embed : Action → τ), ((Catalogue.ofActions embed).contains name ↔ name ∈ names) ∧
      (Catalogue.ofActions embed).create name args = embed <$> ofCall name args) ∧
    (∀ given, List.Forall₂ (fun g b => Bound.bind name g = .ok b) given args →
      ∀ ps, List.Forall₂ Parameter.Fits ps args →
        List.Forall₂ (fun p g => g.containsCall = true → p = .any) ps given) ∧
    ∀ n : Nat, n * 1000 < 2 ^ 53 →
      Parameter.Takes .milliseconds (.literal (.int n)) (.pause (n * 1000)) := by
  refine ⟨fun _ => ofCall_ok_iff, exists_ofCall_iff, fun _ => ofCall_unknownAction_iff,
    ?_, signature?_isSome, ?_, ?_, ?_⟩
  · exact fun f refused known => ofCall_refuses known refused
  · intro τ embed
    exact ⟨Catalogue.contains_ofActions embed name, Catalogue.create_ofActions embed name args⟩
  · exact fun given bound ps fits => Parameter.any_of_calls bound fits
  · exact fun n => Parameter.takes_whole

/-- A value function may stand for the detail of an event, but not for a class. -/
theorem ofCall_signatures_person :
    let person : Argument := .call Argument.getDataValue [.string "person"]
    let deferred : Bound := .dataValue "person"
    let saved : Bound := .literal (.string "saved")
    ofCall "emit" [saved, deferred] = .ok (.emit "saved" (some deferred)) ∧
      Bound.bind "addClass" person = .ok deferred ∧ person.containsCall = true ∧
      ¬∃ a, ofCall "addClass" [deferred] = .ok a := by
  intro person deferred saved
  have takes : Signature.Takes { needed := [.eventName], further := .optional .any }
      [saved, deferred] [.text "saved", .bound deferred] :=
    ⟨_, ⟨[.any], .inr rfl, rfl⟩, .cons (.eventName (by decide)) (.cons (.any deferred) .nil)⟩
  have bound : Bound.bind "addClass" person = .ok deferred := rfl
  have made : ofCall "emit" [saved, deferred] = .ok (.emit "saved" (some deferred)) :=
    ((ofCall_signatures "emit" [saved, deferred]).1 _).mpr ⟨rfl, _, rfl, takes⟩
  refine ⟨made, bound, rfl, ?_⟩
  intro made
  obtain ⟨-, accepts, -, -, -, -, called, -⟩ := ofCall_signatures "addClass" [deferred]
  obtain ⟨sig, ps, known, ⟨_, none, rfl⟩, fits⟩ := accepts.mp made
  cases Option.some.inj known
  obtain rfl : _ = [] := none
  cases called [person] (.cons bound .nil) _ fits with
  | cons any _ => cases any rfl

end Action

end ActionChain
