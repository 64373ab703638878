import ActionChain.Proofs.Casing
import ActionChain.Proofs.Faults
import ActionChain.Proofs.Ordering
import ActionChain.Proofs.Words

/-!
Settings in layers. A file whose table can be used changes the members it names, one by one, and a
variable that is set has the last word on its member; a member of a wrong kind makes the whole file
unusable, whatever the variables say: `Settings.load_layered`.
-/
namespace ActionChain

-- Powers are those of core, whatever others are in scope; so literal exponents show their type.
attribute [local instance (high)] instPowNat

namespace Json

section Overlay

variable {ms layer : Members Json}

theorem ordered_object :
    (Json.object ms).Ordered ↔ ms.Sorted ∧ ∀ m ∈ ms, Ordered m.2 :=
  ⟨fun | .object sorted each => ⟨sorted, each⟩, fun ⟨sorted, each⟩ => .object sorted each⟩

/-- What a layer makes of a value below it, if there is one. -/
def laid (below : Option Json) (v : Json) : Json :=
  match below with
  | some below => overlay below v
  | none => v

theorem overlayMembers_cons (ms : Members Json) (k : String) (v : Json) (rest : Members Json) :
    overlayMembers ms ((k, v) :: rest) = overlayMembers (ms.put k (laid (ms.find? k) v)) rest := by
  rw [overlayMembers]
  rfl

theorem find?_overlayMembers (sorted : layer.Sorted) (key : String) :
    (overlayMembers ms layer).find? key =
      ((layer.find? key).map (laid (ms.find? key))).or (ms.find? key) := by
  induction layer generalizing ms with
  | nil => simp [overlayMembers]
  | cons m rest ih =>
    obtain ⟨k, v⟩ := m
    rw [overlayMembers_cons, ih (List.pairwise_cons.mp sorted).2, Members.find?_put,
      Members.find?_cons]
    by_cases same : key = k
    · subst same
      simp [Members.find?_of_least sorted (.inr rfl)]
    · simp [same]

theorem sorted_overlayMembers (sorted : ms.Sorted) : (overlayMembers ms layer).Sorted := by
  induction layer generalizing ms with
  | nil => rwa [overlayMembers]
  | cons m rest ih =>
    rw [overlayMembers_cons]
    exact ih (sorted.put _ _)

theorem overlayMembers_nothing (sorted : layer.Sorted) : overlayMembers [] layer = layer :=
  (sorted_overlayMembers .nil).ext sorted fun key => by
    rw [find?_overlayMembers sorted, Members.find?_nil, Option.or_none]
    exact Option.map_id'

end Overlay

end Json

namespace Record

variable {ρ α : Type} {r : Record ρ} {name : String} {decode : Json → Except DecodeFault α}
  {get : ρ → α} {ms : Members Json}

/-- The member of this name decides what `get` reads from the record, and no other member does. -/
structure Holds (r : Record ρ) (name : String) (decode : Json → Except DecodeFault α)
    (get : ρ → α) : Prop where
  known : ∃ f ∈ r.fields, f.name = name
  own : ∀ f ∈ r.fields, f.name = name → ∀ v s, (f.set v s).map get = decode v
  others : ∀ f ∈ r.fields, f.name ≠ name → ∀ v s, (f.set v s).map get = (f.set v s).map fun _ => get s

theorem setMember_known {s : ρ} {m : String × Json} :
    (∃ f ∈ r.fields, f.name = m.1 ∧ r.setMember s m = f.set m.2 s) ∨
      (∀ f ∈ r.fields, f.name ≠ m.1) ∧ r.setMember s m = .ok s := by
  unfold setMember
  split
  · rename_i f found
    exact .inl ⟨f, List.mem_of_find?_eq_some found, by simpa using List.find?_some found, rfl⟩
  · rename_i absent
    exact .inr ⟨by simpa using absent, rfl⟩

theorem Holds.setMember_own (holds : r.Holds name decode get) (s : ρ) (v : Json) :
    (r.setMember s (name, v)).map get = decode v := by
  obtain ⟨g, mem, named⟩ := holds.known
  rcases setMember_known (r := r) (s := s) (m := (name, v)) with ⟨f, here, same, set⟩ | ⟨absent, -⟩
  · rw [set, holds.own f here same]
  · exact absurd named (absent g mem)

theorem Holds.setMember_other (holds : r.Holds name decode get) {s s' : ρ} {m : String × Json}
    (other : m.1 ≠ name) (done : r.setMember s m = .ok s') : get s' = get s := by
  rcases setMember_known (r := r) (s := s) (m := m) with ⟨f, here, same, set⟩ | ⟨-, kept⟩
  · have kept := holds.others f here (same ▸ other) m.2 s
    rw [← set, done] at kept
    exact Except.ok.inj kept
  · exact congrArg get (Except.ok.inj (kept.symm.trans done)).symm

theorem Holds.sets (holds : r.Holds name decode get) {f : Field ρ} (mem : f ∈ r.fields)
    (named : f.name = name) {v : Json} {a : α} (decoded : decode v = .ok a) (s : ρ) :
    ∃ s', f.set v s = .ok s' := by
  rw [← holds.own f mem named v s] at decoded
  cases done : f.set v s with
  | error => rw [done] at decoded; cases decoded
  | ok s' => exact ⟨s', rfl⟩

/-- After all members the record holds what the one of this name says, if there is one. -/
theorem Holds.fold (holds : r.Holds name decode get) (sorted : ms.Sorted) {s s' : ρ}
    (done : ms.foldlM r.setMember s = .ok s') :
    match ms.find? name with
    | some v => decode v = .ok (get s')
    | none => get s' = get s := by
  induction ms generalizing s with
  | nil => exact congrArg get (Except.ok.inj done).symm
  | cons m rest ih =>
    obtain ⟨k, v⟩ := m
    rw [List.foldlM_cons] at done
    obtain ⟨between, first, later⟩ := bind_ok_iff.mp done
    have rest := ih (List.pairwise_cons.mp sorted).2 later
    rw [Members.find?_cons]
    split
    · rename_i same
      split at same
      · rename_i here
        cases same
        subst here
        rw [Members.find?_of_least sorted (.inr rfl)] at rest
        rw [← holds.setMember_own s v, first, rest]
        rfl
      · rwa [same] at rest
    · rename_i same
      split at same
      · cases same
      · rename_i other
        rw [same] at rest
        exact rest.trans (holds.setMember_other (Ne.symm other) first)

theorem Holds.ofMembers (holds : r.Holds name decode get) (sorted : ms.Sorted) {s : ρ}
    (done : r.ofMembers ms = .ok s) : ∃ v, ms.find? name = some v ∧ decode v = .ok (get s) := by
  obtain ⟨filled, folded, complete⟩ := bind_ok_iff.mp done
  split at complete
  · cases complete
  · rename_i present
    obtain rfl := Except.ok.inj complete
    obtain ⟨f, mem, rfl⟩ := holds.known
    have found := holds.fold sorted folded
    have here : (ms.find? f.name).isSome := by
      simpa [Option.isSome_iff_ne_none] using List.find?_eq_none.mp present f mem
    obtain ⟨v, there⟩ := Option.isSome_iff_exists.mp here
    rw [there] at found
    exact ⟨v, there, found⟩

/-- A record is read if each of its fields is present and takes its value. -/
theorem ofMembers_taken (sorted : ms.Sorted)
    (taken : ∀ f ∈ r.fields, ∃ v, ms.find? f.name = some v ∧ ∀ s, ∃ s', f.set v s = .ok s') :
    ∃ s, r.ofMembers ms = .ok s := by
  have each (m : String × Json) (mem : m ∈ ms) (s : ρ) : ∃ s', r.setMember s m = .ok s' := by
    rcases setMember_known (r := r) (s := s) (m := m) with ⟨f, here, same, set⟩ | ⟨-, kept⟩
    · obtain ⟨v, found, takes⟩ := taken f here
      rw [same, sorted.find?_of_mem mem] at found
      obtain rfl := Option.some.inj found
      rw [set]
      exact takes s
    · exact ⟨s, kept⟩
  have fold (pairs : Members Json) (within : ∀ m ∈ pairs, m ∈ ms) (s : ρ) :
      ∃ s', pairs.foldlM r.setMember s = .ok s' := by
    induction pairs generalizing s with
    | nil => exact ⟨s, rfl⟩
    | cons m rest ih =>
      obtain ⟨first, others⟩ := List.forall_mem_cons.mp within
      obtain ⟨between, done⟩ := each m first s
      obtain ⟨s', later⟩ := ih others between
      exact ⟨s', by rw [List.foldlM_cons]; exact bind_ok_iff.mpr ⟨between, done, later⟩⟩
  obtain ⟨s, folded⟩ := fold ms (fun _ mem => mem) r.blank
  have complete : (r.fields.find? fun f => (ms.find? f.name).isNone) = none := by
    refine List.find?_eq_none.mpr fun f mem => ?_
    obtain ⟨v, found, -⟩ := taken f mem
    simp [found]
  exact ⟨s, bind_ok_iff.mpr ⟨s, folded, by rw [complete]; rfl⟩⟩

section Layered

variable {below layer : Members Json} {d : Json} {read? : Json → Option α} {a : α}

/-- A member of the layer, if it is there, is of the kind that can be read. -/
def Fits (read? : Json → Option α) (layer : Members Json) (name : String) : Prop :=
  ∀ v, layer.find? name = some v → ∃ a, read? v = some a

/-- What the layer says of a member, and without a word of it the default. -/
def told (read? : Json → Option α) (layer : Members Json) (name : String) (default : α) : α :=
  ((layer.find? name).bind read?).getD default

/-- The two ways to read a value succeed together, and alike. -/
def Reads (decode : Json → Except DecodeFault α) (read? : Json → Option α) : Prop :=
  ∀ v a, decode v = .ok a ↔ read? v = some a

/-- A member whose default is `d`, which stands for `a` and which a layer replaces as a whole. -/
structure Plain (below : Members Json) (name : String) (d : Json) (read? : Json → Option α) (a : α) :
    Prop where
  present : below.find? name = some d
  whole : ∀ v, v.Ordered → Json.overlay d v = v
  stands : read? d = some a

/-- A plain member of a record, with the two ways to read it. -/
structure Member (r : Record ρ) (below : Members Json) (name : String)
    (decode : Json → Except DecodeFault α) (d : Json) (read? : Json → Option α) (get : ρ → α) (a : α) :
    Prop extends Holds r name decode get, Plain below name d read? a where
  reads : Reads decode read?

theorem Plain.find? (plain : Plain below name d read? a) (ordered : (Json.object layer).Ordered) :
    (Json.overlayMembers below layer).find? name = some ((layer.find? name).getD d) := by
  obtain ⟨sorted, each⟩ := Json.ordered_object.mp ordered
  rw [Json.find?_overlayMembers sorted, plain.present]
  cases found : layer.find? name with
  | none => rfl
  | some v => exact congrArg some (plain.whole v (each _ (Members.mem_of_find? found)))

theorem Plain.read?_iff (plain : Plain below name d read? a) {b : α} :
    read? ((layer.find? name).getD d) = some b ↔
      Fits read? layer name ∧ b = told read? layer name a := by
  unfold Fits told
  cases layer.find? name with
  | none => simp [plain.stands, eq_comm]
  | some v => cases h : read? v <;> simp [h, eq_comm]

variable (member : r.Member below name decode d read? get a) (ordered : (Json.object layer).Ordered)
include member ordered

theorem Member.told (sorted : below.Sorted) {s : ρ}
    (done : r.ofMembers (Json.overlayMembers below layer) = .ok s) :
    Fits read? layer name ∧ get s = told read? layer name a := by
  obtain ⟨v, found, decoded⟩ := member.ofMembers (Json.sorted_overlayMembers sorted) done
  obtain rfl := Option.some.inj ((member.find? ordered).symm.trans found)
  exact member.read?_iff.mp ((member.reads _ _).mp decoded)

theorem Member.taken (fits : Fits read? layer name) {f : Field ρ} (mem : f ∈ r.fields)
    (named : f.name = name) : ∃ v, (Json.overlayMembers below layer).find? f.name = some v ∧
      ∀ s, ∃ s', f.set v s = .ok s' :=
  ⟨_, named ▸ member.find? ordered,
    member.sets mem named ((member.reads _ _).mpr (member.read?_iff.mpr ⟨fits, rfl⟩))⟩

end Layered

end Record

namespace Json

def bool? : Json → Option Bool
  | .bool b => some b
  | _ => none

/-- A whole number of 64 bits without a sign. -/
def word? : Json → Option UInt64
  | .int n => if 0 ≤ n ∧ n < 2 ^ (64 : Nat) then some (UInt64.ofNat n.toNat) else none
  | _ => none

def members? : Json → Option (Members Json)
  | .object ms => some ms
  | _ => none

theorem reads_bool : Record.Reads readBool bool? := by
  intro v b
  cases v <;> simp [readBool, bool?]

theorem reads_string : Record.Reads readString string? := by
  intro v s
  cases v <;> simp [readString, string?]

theorem reads_word : Record.Reads readWord word? := by
  intro v n
  cases v with
  | int i =>
    simp only [readWord, word?]
    split <;> simp
  | _ => simp [readWord, word?]

theorem reads_members : Record.Reads readMembers members? := by
  intro v ms
  cases v <;> simp [readMembers, members?]

theorem overlay_plain {d : Json} (plain : d.members? = none) (v : Json) (_ : v.Ordered) :
    overlay d v = v := by
  rw [overlay]
  rintro ms layer rfl
  cases plain

end Json

namespace Reentrancy

/-- The policy that a word names. -/
def named? : String → Option Reentrancy
  | "allow" => some .allow
  | "ignore" => some .ignore
  | _ => none

/-- A policy as a value: its name, or an object that maps its name to null. -/
def told? : Json → Option Reentrancy
  | .string name => named? name
  | .object [(name, .null)] => named? name
  | _ => none

/-- A text without the white space around it. -/
def inside (text : String) : List Char :=
  (text.toList.dropWhile (Text.WhiteSpace ·)).rdropWhile (Text.WhiteSpace ·)

/-- The policy that a text means, in capital or small letters. -/
def meant? (text : String) : Option Reentrancy :=
  named? (String.ofList ((inside text).map Char.toLower))

theorem ofName?_eq (name : String) : ofName? name = named? name := by
  unfold ofName? named?
  split
  · rfl
  · rfl
  · rename_i notAllow notIgnore
    simp [all, text, Ne.symm notAllow, Ne.symm notIgnore]

theorem named?_eq_some {name : String} {p : Reentrancy} : named? name = some p ↔ name = p.text := by
  unfold named?
  split
  · cases p <;> simp [text]
  · cases p <;> simp [text]
  · rename_i notAllow notIgnore
    cases p with
    | allow => exact iff_of_false nofun notAllow
    | ignore => exact iff_of_false nofun notIgnore

theorem meant?_eq (word : String) :
    meant? word = named? (Text.lower (String.ofList (inside word))) := by
  have plain (p : Reentrancy) : p.text.toList.all (Text.Plain ·) = true := by
    cases p <;> decide
  ext p
  rw [meant?, named?_eq_some, named?_eq_some, Text.lower_eq_iff (plain p), String.toList_ofList,
    ← String.toList_inj, String.toList_ofList]

theorem read_eq (text : String) : read text =
    match meant? text with
    | some policy => .ok policy
    | none => .error (.policy (Text.lower (String.ofList (inside text)))) := by
  rw [meant?_eq, read, Text.trim_eq, inside]
  generalize Text.lower _ = name
  cases found : named? name <;> simp only [ofName?_eq, found]

theorem reads_policy : Record.Reads ofJson told? := by
  intro v p
  have named (name : String) : ofName name = .ok p ↔ named? name = some p := by
    rw [ofName, ofName?_eq]
    cases named? name <;> simp
  cases v with
  | string name => exact named name
  | object ms =>
    match ms with
    | [] => simp [ofJson, told?]
    | [(name, v)] =>
      cases v <;> simp [ofJson, told?, bind_ok_iff, named, pure, Except.pure]
    | _ :: _ :: _ => simp [ofJson, told?]
  | _ => simp [ofJson, told?]

end Reentrancy

/-- The texts that mean true: one of three words, in capital or small letters. -/
def meansTrue (s : String) : Bool :=
  ["true", "1", "yes"].any fun word => s.toList.map Char.toLower = word.toList

theorem isTrueWord_eq : Settings.isTrueWord = meansTrue := by
  have plain : ∀ word ∈ ["true", "1", "yes"], word.toList.all (Text.Plain ·) = true := by decide
  funext s
  rw [Settings.isTrueWord, meansTrue, Bool.eq_iff_iff, List.contains_iff_mem, List.any_eq_true]
  simp only [decide_eq_true_eq]
  constructor
  · exact fun mem => ⟨_, mem, (Text.lower_eq_iff (plain _ mem)).mp rfl⟩
  · rintro ⟨word, mem, same⟩
    exact (Text.lower_eq_iff (plain word mem)).mpr same ▸ mem

section Fields

variable {ε ρ α β : Type} (x : Except ε α)

theorem map_put (put : α → ρ) (get : ρ → β) : (put <$> x).map get = x.map fun a => get (put a) := by
  cases x <;> rfl

theorem map_same : (x.map fun a => a) = x := by
  cases x <;> rfl

end Fields

namespace ButtonSettings

def defaults : Members Json := ((toJson {}).members?).getD []

theorem sorted_defaults : defaults.Sorted := by
  rw [defaults, toJson, Json.members?, Option.getD_some]
  exact Members.sorted_ofList _

/-- What stands for each member without a word of it in the file. -/
theorem members :
    record.Member defaults "auto_disable" Json.readBool (.bool false) Json.bool?
      (·.autoDisable) false ∧
    record.Member defaults "reentrancy" Reentrancy.ofJson (.string "allow") Reentrancy.told?
      (·.reentrancy) .allow ∧
    record.Member defaults "spinner_class" Json.readString (.string "dj-submitting") Json.string?
      (·.spinnerClass) "dj-submitting" ∧
    record.Member defaults "okay_class" Json.readString (.string "dj-okay") Json.string?
      (·.okayClass) "dj-okay" ∧
    record.Member defaults "bummer_class" Json.readString (.string "dj-bummer") Json.string?
      (·.bummerClass) "dj-bummer" ∧
    record.Member defaults "okay_delay_ms" Json.readWord (.int 0) Json.word? (·.okayDelay) 0 ∧
    record.Member defaults "bummer_delay_ms" Json.readWord (.int 0) Json.word? (·.bummerDelay) 0 := by
  refine ⟨⟨?_, ⟨rfl, Json.overlay_plain rfl, rfl⟩, Json.reads_bool⟩,
    ⟨?_, ⟨rfl, Json.overlay_plain rfl, rfl⟩, Reentrancy.reads_policy⟩,
    ⟨?_, ⟨rfl, Json.overlay_plain rfl, rfl⟩, Json.reads_string⟩,
    ⟨?_, ⟨rfl, Json.overlay_plain rfl, rfl⟩, Json.reads_string⟩,
    ⟨?_, ⟨rfl, Json.overlay_plain rfl, rfl⟩, Json.reads_string⟩,
    ⟨?_, ⟨rfl, Json.overlay_plain rfl, rfl⟩, Json.reads_word⟩,
    ⟨?_, ⟨rfl, Json.overlay_plain rfl, rfl⟩, Json.reads_word⟩⟩
  all_goals
    exact ⟨by simp [record], by simp [record, map_put, map_same], by simp [record, map_put]⟩

/-- Each member of the table that is known is of its kind, if it is there. -/
structure Typed (ms : Members Json) : Prop where
  autoDisable : Record.Fits Json.bool? ms "auto_disable"
  reentrancy : Record.Fits Reentrancy.told? ms "reentrancy"
  spinnerClass : Record.Fits Json.string? ms "spinner_class"
  okayClass : Record.Fits Json.string? ms "okay_class"
  bummerClass : Record.Fits Json.string? ms "bummer_class"
  okayDelay : Record.Fits Json.word? ms "okay_delay_ms"
  bummerDelay : Record.Fits Json.word? ms "bummer_delay_ms"

/-- Each member by itself: what its variable says, else what the table says, else the default. -/
def layered (ms : Members Json) (env : Environment) : ButtonSettings where
  autoDisable := ((env "FORMSET_AUTO_DISABLE").map meansTrue).getD
    (Record.told Json.bool? ms "auto_disable" false)
  reentrancy := ((env "FORMSET_REENTRANCY").bind Reentrancy.meant?).getD
    (Record.told Reentrancy.told? ms "reentrancy" .allow)
  spinnerClass := Record.told Json.string? ms "spinner_class" "dj-submitting"
  okayClass := Record.told Json.string? ms "okay_class" "dj-okay"
  bummerClass := Record.told Json.string? ms "bummer_class" "dj-bummer"
  okayDelay := Record.told Json.word? ms "okay_delay_ms" 0
  bummerDelay := Record.told Json.word? ms "bummer_delay_ms" 0

variable {ms : Members Json} (ordered : (Json.object ms).Ordered)
include ordered

theorem ofMembers_layer {s : ButtonSettings} :
    record.ofMembers (Json.overlayMembers defaults ms) = .ok s ↔
      Typed ms ∧ s = layered ms fun _ => none := by
  obtain ⟨autoDisable, reentrancy, spinnerClass, okayClass, bummerClass, okayDelay, bummerDelay⟩ :=
    members
  have told {s : ButtonSettings}
      (done : record.ofMembers (Json.overlayMembers defaults ms) = .ok s) :
      Typed ms ∧ s = layered ms fun _ => none := by
    obtain ⟨f₁, v₁⟩ := autoDisable.told ordered sorted_defaults done
    obtain ⟨f₂, v₂⟩ := reentrancy.told ordered sorted_defaults done
    obtain ⟨f₃, v₃⟩ := spinnerClass.told ordered sorted_defaults done
    obtain ⟨f₄, v₄⟩ := okayClass.told ordered sorted_defaults done
    obtain ⟨f₅, v₅⟩ := bummerClass.told ordered sorted_defaults done
    obtain ⟨f₆, v₆⟩ := okayDelay.told ordered sorted_defaults done
    obtain ⟨f₇, v₇⟩ := bummerDelay.told ordered sorted_defaults done
    refine ⟨⟨f₁, f₂, f₃, f₄, f₅, f₆, f₇⟩, ?_⟩
    cases s
    cases v₁; cases v₂; cases v₃; cases v₄; cases v₅; cases v₆; cases v₇
    rfl
  refine ⟨told, fun ⟨typed, same⟩ => ?_⟩
  have names : ∀ f ∈ record.fields, f.name = "auto_disable" ∨ f.name = "reentrancy" ∨
      f.name = "spinner_class" ∨ f.name = "okay_class" ∨ f.name = "bummer_class" ∨
      f.name = "okay_delay_ms" ∨ f.name = "bummer_delay_ms" := by
    simp [record]
  have sorted : (Json.overlayMembers defaults ms).Sorted :=
    Json.sorted_overlayMembers sorted_defaults
  have taken := Record.ofMembers_taken (r := record) sorted fun f mem => by
      rcases names f mem with named | named | named | named | named | named | named
      · exact autoDisable.taken ordered typed.autoDisable mem named
      · exact reentrancy.taken ordered typed.reentrancy mem named
      · exact spinnerClass.taken ordered typed.spinnerClass mem named
      · exact okayClass.taken ordered typed.okayClass mem named
      · exact bummerClass.taken ordered typed.bummerClass mem named
      · exact okayDelay.taken ordered typed.okayDelay mem named
      · exact bummerDelay.taken ordered typed.bummerDelay mem named
  obtain ⟨s', done⟩ := taken
  rw [done, (told done).2, same]

end ButtonSettings

namespace Settings

def defaults : Members Json := ((toJson {}).members?).getD []

theorem sorted_defaults : defaults.Sorted := Members.sorted_ofList _

/-- The table of the button, with nothing in it if it is not there. -/
def inner (layer : Members Json) : Members Json := Record.told Json.members? layer "button" []

/-- Each member that is known is of its kind, if it is there. -/
structure Typed (layer : Members Json) : Prop where
  debug : Record.Fits Json.bool? layer "debug"
  logLevel : Record.Fits Json.string? layer "log_level"
  button : ButtonSettings.Typed (inner layer)
  extra : Record.Fits Json.members? layer "extra"

/-- Each member by itself: what its variable says, else what the file says, else the default. -/
def layered (layer : Members Json) (env : Environment) : Settings where
  debug := ((env "FORMSET_DEBUG").map meansTrue).getD (Record.told Json.bool? layer "debug" true)
  logLevel := (env "FORMSET_LOG_LEVEL").getD (Record.told Json.string? layer "log_level" "info")
  button := ButtonSettings.layered (inner layer) env
  extra := Record.told Json.members? layer "extra" []

theorem overlay_extra (v : Json) (ordered : v.Ordered) : Json.overlay (.object []) v = v := by
  cases ordered with
  | object sorted => rw [Json.overlay, Json.overlayMembers_nothing sorted]
  | _ => rw [Json.overlay]; nofun

theorem members :
    record.Member defaults "debug" Json.readBool (.bool true) Json.bool? (·.debug) true ∧
    record.Member defaults "log_level" Json.readString (.string "info") Json.string? (·.logLevel)
      "info" ∧
    record.Member defaults "extra" Json.readMembers (.object []) Json.members? (·.extra) [] := by
  refine ⟨⟨?_, ⟨rfl, Json.overlay_plain rfl, rfl⟩, Json.reads_bool⟩,
    ⟨?_, ⟨rfl, Json.overlay_plain rfl, rfl⟩, Json.reads_string⟩,
    ⟨?_, ⟨rfl, overlay_extra, rfl⟩, Json.reads_members⟩⟩
  all_goals
    exact ⟨by simp [record], by simp [record, map_put, map_same], by simp [record, map_put]⟩

theorem button_held : record.Holds "button" ButtonSettings.record.read (·.button) :=
  ⟨by simp [record], by simp [record, map_put, map_same], by simp [record, map_put]⟩

theorem button_below : defaults.find? "button" = some (.object ButtonSettings.defaults) := by
  have table : ButtonSettings.toJson {} = .object ButtonSettings.defaults := by
    rw [ButtonSettings.defaults, ButtonSettings.toJson, Json.members?, Option.getD_some]
  rw [defaults, toJson, Json.members?, Option.getD_some, Members.find?_ofList, ← table]
  rfl

section Files

variable {layer : Members Json} (ordered : (Json.object layer).Ordered)
  (table : ∀ v, layer.find? "button" = some v → ∃ ms, v = .object ms)
include ordered

theorem inner_ordered : (Json.object (inner layer)).Ordered := by
  unfold inner Record.told
  cases found : layer.find? "button" with
  | none => exact .object .nil (List.forall_mem_nil _)
  | some v =>
    have so := (Json.ordered_object.mp ordered).2 _ (Members.mem_of_find? found)
    cases v with
    | object ms => exact so
    | _ => exact .object .nil (List.forall_mem_nil _)

include table

theorem button_laid : (Json.overlayMembers defaults layer).find? "button" =
    some (.object (Json.overlayMembers ButtonSettings.defaults (inner layer))) := by
  unfold inner Record.told
  rw [Json.find?_overlayMembers (Json.ordered_object.mp ordered).1, button_below]
  cases found : layer.find? "button" with
  | none => rfl
  | some v =>
    obtain ⟨ms, rfl⟩ := table v found
    exact congrArg some (by rw [Json.laid, Json.overlay]; rfl)

theorem ofLayer_layer {s : Settings} :
    ofLayer (.object layer) = .ok s ↔ Typed layer ∧ s = layered layer fun _ => none := by
  obtain ⟨debug, logLevel, extra⟩ := members
  have sorted : (Json.overlayMembers defaults layer).Sorted :=
    Json.sorted_overlayMembers sorted_defaults
  have laid := button_laid ordered table
  have button (b : ButtonSettings) := ButtonSettings.ofMembers_layer (inner_ordered ordered) (s := b)
  have told {s : Settings} (done : record.ofMembers (Json.overlayMembers defaults layer) = .ok s) :
      Typed layer ∧ s = layered layer fun _ => none := by
    obtain ⟨f₁, v₁⟩ := debug.told ordered sorted_defaults done
    obtain ⟨f₂, v₂⟩ := logLevel.told ordered sorted_defaults done
    obtain ⟨f₃, v₃⟩ := extra.told ordered sorted_defaults done
    obtain ⟨v, found, decoded⟩ := button_held.ofMembers sorted done
    obtain rfl := Option.some.inj (laid.symm.trans found)
    obtain ⟨f₄, v₄⟩ := (button s.button).mp decoded
    refine ⟨⟨f₁, f₂, f₄, f₃⟩, ?_⟩
    cases s
    cases v₁; cases v₂; cases v₃; cases v₄
    rfl
  have same : ofLayer (.object layer) = record.ofMembers (Json.overlayMembers defaults layer) := by
    rw [ofLayer, show toJson {} = .object defaults from rfl, Json.overlay]
    rfl
  rw [same]
  refine ⟨told, fun ⟨typed, same⟩ => ?_⟩
  have names : ∀ f ∈ record.fields, f.name = "debug" ∨ f.name = "log_level" ∨ f.name = "button" ∨
      f.name = "extra" := by
    simp [record]
  obtain ⟨s', done⟩ := Record.ofMembers_taken sorted fun f mem => by
    rcases names f mem with named | named | named | named
    · exact debug.taken ordered typed.debug mem named
    · exact logLevel.taken ordered typed.logLevel mem named
    · have decoded := (button _).mpr ⟨typed.button, rfl⟩
      exact ⟨_, named ▸ laid, button_held.sets (v := .object _) mem named decoded⟩
    · exact extra.taken ordered typed.extra mem named
  rw [done, (told done).2, same]

end Files

/-- The settings with what the variables say. -/
def overridden (env : Environment) (s : Settings) : Settings :=
  { s with
    debug := ((env "FORMSET_DEBUG").map meansTrue).getD s.debug
    logLevel := (env "FORMSET_LOG_LEVEL").getD s.logLevel
    button :=
      { s.button with
        autoDisable := ((env "FORMSET_AUTO_DISABLE").map meansTrue).getD s.button.autoDisable
        reentrancy :=
          ((env "FORMSET_REENTRANCY").bind Reentrancy.meant?).getD s.button.reentrancy } }

/-- The variables one after the other; only the last of them can be at fault. -/
theorem withEnvironment_eq (env : Environment) (s : Settings) : withEnvironment env s =
    match env "FORMSET_REENTRANCY" with
    | some word => match Reentrancy.meant? word with
      | some _ => .ok (overridden env s)
      | none => .error (.environment "FORMSET_REENTRANCY"
          (.policy (Text.lower (String.ofList (Reentrancy.inside word)))))
    | none => .ok (overridden env s) := by
  unfold withEnvironment overridden debugVariable logLevelVariable autoDisableVariable
    reentrancyVariable
  rw [isTrueWord_eq]
  cases env "FORMSET_REENTRANCY" with
  | none =>
    cases env "FORMSET_DEBUG" <;> cases env "FORMSET_LOG_LEVEL" <;>
      cases env "FORMSET_AUTO_DISABLE" <;> rfl
  | some word =>
    simp only [Reentrancy.read_eq]
    cases meant : Reentrancy.meant? word with
    | none => rfl
    | some p =>
      cases env "FORMSET_DEBUG" <;> cases env "FORMSET_LOG_LEVEL" <;>
        cases env "FORMSET_AUTO_DISABLE" <;>
          simp only [Option.bind_some, meant, Option.map_some, Option.map_none, Option.getD_some,
            Option.getD_none, pure, Except.pure]

theorem layered_eq (layer : Members Json) (env : Environment) :
    layered layer env = overridden env (layered layer fun _ => none) := rfl

theorem load_ofLayer {file : SettingsFile} {format : Format} {text : String} {layer : Json}
    (known : Format.ofPath? file.path = some format) (content : file.content = .ok text)
    (decoded : format.read? text = some layer) (env : Environment) :
    load (some file) env = match ofLayer layer with
      | .ok s => withEnvironment env s
      | .error why => .error (.unusable format why) := by
  rw [load]
  dsimp only
  rw [ofFile, known, content]
  dsimp only
  rw [ofText, decoded]
  dsimp only
  cases ofLayer layer <;> rfl

/-- Whatever is set, a file with a table is either used or not. If it is used, each member is what
its variable says, else what the file says, else the default; only a variable that means no policy
is a fault then. If it is not, no variable matters. Which format the table is written in does not
matter either. -/
theorem load_layered {file : SettingsFile} {format : Format} {text : String} {layer : Members Json}
    (known : Format.ofPath? file.path = some format) (content : file.content = .ok text)
    (decoded : format.read? text = some (.object layer))
    (table : ∀ v, layer.find? "button" = some v → ∃ ms, v = .object ms) :
    (Typed layer → ∀ env,
      ((∀ word, env "FORMSET_REENTRANCY" = some word → (Reentrancy.meant? word).isSome) →
        load (some file) env = .ok (layered layer env)) ∧
      ∀ word, env "FORMSET_REENTRANCY" = some word → Reentrancy.meant? word = none →
        load (some file) env = .error (.environment "FORMSET_REENTRANCY"
          (.policy (Text.lower (String.ofList (Reentrancy.inside word)))))) ∧
    (¬Typed layer → ∃ why, ∀ env, load (some file) env = .error (.unusable format why)) ∧
    ∀ (other : SettingsFile) (format' : Format) (text' : String),
      Format.ofPath? other.path = some format' → other.content = .ok text' →
      format'.read? text' = some (.object layer) → ∀ env,
        load (some other) env = load (some file) env ∨
        ∃ why, load (some file) env = .error (.unusable format why) ∧
          load (some other) env = .error (.unusable format' why) := by
  have ordered := Format.read?_ordered format text _ decoded
  have usable (s : Settings) := ofLayer_layer ordered table (s := s)
  have loads := load_ofLayer known content decoded
  refine ⟨fun typed env => ?_, fun mistyped => ?_,
    fun other format' text' known' content' decoded' env => ?_⟩
  · have used := (usable _).mpr ⟨typed, rfl⟩
    simp only [loads, used, layered_eq layer env, withEnvironment_eq]
    refine ⟨fun policy => ?_, fun word given unknown => by simp only [given, unknown]⟩
    cases given : env "FORMSET_REENTRANCY" with
    | none => rfl
    | some word =>
      obtain ⟨p, meant⟩ := Option.isSome_iff_exists.mp (policy word given)
      simp only [meant]
  · cases read : ofLayer (.object layer) with
    | ok s => exact absurd ((usable s).mp read).1 mistyped
    | error why => exact ⟨why, fun env => by rw [loads, read]⟩
  · rw [loads, load_ofLayer known' content' decoded']
    cases ofLayer (.object layer) with
    | ok s => exact .inl rfl
    | error why => exact .inr ⟨why, rfl, rfl⟩

/-- The file says what decorates the button, and the environment overrides the rest. -/
theorem load_layered_button :
    let file : SettingsFile := ⟨"formset.json",
      .ok "\x7b\"button\":\x7b\"okay_class\":\"done\",\"reentrancy\":\"allow\"\x7d\x7d"⟩
    let env : Environment := fun name => List.lookup name
      [("FORMSET_DEBUG", "no"), ("FORMSET_AUTO_DISABLE", "TRUE"), ("FORMSET_REENTRANCY", " Ignore")]
    load (some file) env = .ok
      { debug := false
        button := { autoDisable := true, reentrancy := .ignore, okayClass := "done" } } := by
  intro file env
  let members : Members Json := [("okay_class", .string "done"), ("reentrancy", .string "allow")]
  let layer : Members Json := [("button", .object members)]
  have decoded : Format.json.read?
      "\x7b\"button\":\x7b\"okay_class\":\"done\",\"reentrancy\":\"allow\"\x7d\x7d" =
      some (.object layer) := by
    rfl
  have known : Format.ofPath? "formset.json" = some .json := by
    rfl
  have table : ∀ v, layer.find? "button" = some v → ∃ ms, v = .object ms :=
    fun v found => ⟨members, (Option.some.inj found).symm⟩
  have typed : Typed layer := by
    refine ⟨nofun, nofun, ⟨nofun, ?_, nofun, ?_, nofun, nofun, nofun⟩, nofun⟩
    · exact fun v found => ⟨.allow, Option.some.inj found ▸ rfl⟩
    · exact fun v found => ⟨"done", Option.some.inj found ▸ rfl⟩
  have policy : ∀ word, env "FORMSET_REENTRANCY" = some word →
      (Reentrancy.meant? word).isSome := by
    intro word given
    obtain rfl := Option.some.inj given
    rfl
  exact ((load_layered known rfl decoded table).1 typed env).1 policy

end Settings

end ActionChain
