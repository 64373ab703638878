import ActionChain.Proofs.Overlays

/-!
Settings that are written out and loaded again. Main statement `saved_loads`: laid over the defaults,
the value that settings are written as is read as these settings, so what was loaded once can be
saved and loaded without a change, and no two settings are written alike.
-/
namespace ActionChain

namespace Record

variable {ρ α : Type} {r : Record ρ} {I : ρ → Prop} {layer : Members Json} {name : String} {v : Json}
  {read? : Json → Option α} {a : α}

/-- What a member says counts, whatever the default. -/
theorem told_found (found : layer.find? name = some v) (means : read? v = some a) :
    Fits read? layer name ∧ ∀ d, told read? layer name d = a := by
  constructor
  · intro w there
    rw [found] at there
    exact ⟨a, Option.some.inj there ▸ means⟩
  · intro d
    rw [told, found, Option.bind_some, means, Option.getD_some]

/-- What every field keeps, whatever value it is given of those that occur, holds of the record. -/
theorem foldlM_keeps {β : Type} {f : ρ → β → Except DecodeFault ρ} {xs : List β}
    (keeps : ∀ x ∈ xs, ∀ s t, I s → f s x = .ok t → I t) {s t : ρ} (holds : I s)
    (done : xs.foldlM f s = .ok t) : I t := by
  induction xs generalizing s with
  | nil => exact Except.ok.inj done ▸ holds
  | cons x rest ih =>
    obtain ⟨now, later⟩ := List.forall_mem_cons.mp keeps
    rw [List.foldlM_cons] at done
    obtain ⟨between, first, others⟩ := bind_ok_iff.mp done
    exact ih later (now s between holds first) others

theorem read_keeps (blank : I r.blank)
    (keeps : ∀ f ∈ r.fields, ∀ v, v.Ordered → ∀ s t, I s → f.set v s = .ok t → I t)
    {s : ρ} (ordered : v.Ordered) (done : r.read v = .ok s) : I s := by
  cases ordered with
  | @object ms sorted each =>
    obtain ⟨filled, folded, complete⟩ := bind_ok_iff.mp done
    have holds : I filled := by
      refine foldlM_keeps (fun m mem s t holds set => ?_) blank folded
      rcases setMember_known (r := r) (s := s) (m := m) with ⟨f, known, -, same⟩ | ⟨-, same⟩
      · exact keeps f known _ (each m mem) s t holds (same ▸ set)
      · exact Except.ok.inj (same.symm.trans set) ▸ holds
    split at complete
    · cases complete
    · exact Except.ok.inj complete ▸ holds
  | @array items each =>
    obtain ⟨filled, folded, complete⟩ := bind_ok_iff.mp done
    have holds : I filled := by
      refine foldlM_keeps (fun p mem s t holds set => ?_) blank folded
      exact keeps p.1 (List.of_mem_zip mem).1 _ (each _ (List.of_mem_zip mem).2) s t holds set
    split at complete
    · cases complete
    · split at complete
      · cases complete
      · exact Except.ok.inj complete ▸ holds
  | _ => cases done

end Record

theorem Json.word?_toNat (n : UInt64) : Json.word? (.int n.toNat) = some n := by
  have fits : (0 : Int) ≤ n.toNat ∧ (n.toNat : Int) < 2 ^ 64 := by
    have bound := n.toNat_lt
    omega
  rw [Json.word?, if_pos fits]
  simp

theorem Reentrancy.told?_text (p : Reentrancy) : told? (.string p.text) = some p := by
  cases p <;> rfl

namespace ButtonSettings

def saved (s : ButtonSettings) : Members Json := (s.toJson.members?).getD []

theorem toJson_eq (s : ButtonSettings) : s.toJson = .object s.saved := by
  rw [saved, toJson, Json.members?, Option.getD_some]

variable (s : ButtonSettings)

theorem saved_ordered : (Json.object s.saved).Ordered := by
  rw [saved, toJson, Json.members?, Option.getD_some]
  refine .object (Members.sorted_ofList _) fun m mem => ?_
  have listed := Members.mem_ofList mem
  simp only [List.mem_cons, List.not_mem_nil, or_false] at listed
  rcases listed with rfl | rfl | rfl | rfl | rfl | rfl | rfl <;> constructor

theorem find?_saved (name : String) : s.saved.find? name = List.lookup name
    [("bummer_delay_ms", .int s.bummerDelay.toNat), ("okay_delay_ms", .int s.okayDelay.toNat),
      ("bummer_class", .string s.bummerClass), ("okay_class", .string s.okayClass),
      ("spinner_class", .string s.spinnerClass), ("reentrancy", .string s.reentrancy.text),
      ("auto_disable", .bool s.autoDisable)] := by
  rw [saved, toJson, Json.members?, Option.getD_some, Members.find?_ofList]
  rfl

/-- Every member is written, so that none is left to the defaults. -/
theorem layered_saved : Typed s.saved ∧ layered s.saved (fun _ => none) = s := by
  have autoDisable : s.saved.find? "auto_disable" = some (.bool s.autoDisable) := by
    simp [find?_saved, List.lookup_cons]
  have reentrancy : s.saved.find? "reentrancy" = some (.string s.reentrancy.text) := by
    simp [find?_saved, List.lookup_cons]
  have spinnerClass : s.saved.find? "spinner_class" = some (.string s.spinnerClass) := by
    simp [find?_saved, List.lookup_cons]
  have okayClass : s.saved.find? "okay_class" = some (.string s.okayClass) := by
    simp [find?_saved, List.lookup_cons]
  have bummerClass : s.saved.find? "bummer_class" = some (.string s.bummerClass) := by
    simp [find?_saved, List.lookup_cons]
  have okayDelay : s.saved.find? "okay_delay_ms" = some (.int s.okayDelay.toNat) := by
    simp [find?_saved, List.lookup_cons]
  have bummerDelay : s.saved.find? "bummer_delay_ms" = some (.int s.bummerDelay.toNat) := by
    simp [find?_saved]
  obtain ⟨f₁, v₁⟩ := Record.told_found autoDisable (show Json.bool? _ = some _ from rfl)
  obtain ⟨f₂, v₂⟩ := Record.told_found reentrancy (Reentrancy.told?_text s.reentrancy)
  obtain ⟨f₃, v₃⟩ := Record.told_found spinnerClass (show Json.string? _ = some _ from rfl)
  obtain ⟨f₄, v₄⟩ := Record.told_found okayClass (show Json.string? _ = some _ from rfl)
  obtain ⟨f₅, v₅⟩ := Record.told_found bummerClass (show Json.string? _ = some _ from rfl)
  obtain ⟨f₆, v₆⟩ := Record.told_found okayDelay (Json.word?_toNat s.okayDelay)
  obtain ⟨f₇, v₇⟩ := Record.told_found bummerDelay (Json.word?_toNat s.bummerDelay)
  refine ⟨⟨f₁, f₂, f₃, f₄, f₅, f₆, f₇⟩, ?_⟩
  simp only [layered, v₁, v₂, v₃, v₄, v₅, v₆, v₇, Option.map_none, Option.bind_none,
    Option.getD_none]

end ButtonSettings

namespace Settings

/-- The extra members are in order, as members of objects are. -/
def Ordered (s : Settings) : Prop := (Json.object s.extra).Ordered

def saved (s : Settings) : Members Json := (s.toJson.members?).getD []

theorem toJson_eq (s : Settings) : s.toJson = .object s.saved := by
  rw [saved, toJson, Json.members?, Option.getD_some]

section Saved

variable {s : Settings}

theorem saved_ordered (ordered : s.Ordered) : (Json.object s.saved).Ordered := by
  rw [saved, toJson, Json.members?, Option.getD_some]
  refine .object (Members.sorted_ofList _) fun m mem => ?_
  have listed := Members.mem_ofList mem
  simp only [List.mem_cons, List.not_mem_nil, or_false] at listed
  rcases listed with rfl | rfl | rfl | rfl
  · exact .bool _
  · exact .string _
  · exact s.button.toJson_eq ▸ s.button.saved_ordered
  · exact ordered

theorem find?_button : s.saved.find? "button" = some (.object s.button.saved) := by
  rw [← s.button.toJson_eq]
  exact Members.find?_ofList _ _

theorem layered_saved : Typed s.saved ∧ layered s.saved (fun _ => none) = s := by
  have debug : s.saved.find? "debug" = some (.bool s.debug) := Members.find?_ofList _ _
  have logLevel : s.saved.find? "log_level" = some (.string s.logLevel) := Members.find?_ofList _ _
  have extra : s.saved.find? "extra" = some (.object s.extra) := Members.find?_ofList _ _
  obtain ⟨f₁, v₁⟩ := Record.told_found debug (show Json.bool? _ = some _ from rfl)
  obtain ⟨f₂, v₂⟩ := Record.told_found logLevel (show Json.string? _ = some _ from rfl)
  obtain ⟨-, inner⟩ := Record.told_found find?_button (show Json.members? _ = some _ from rfl)
  obtain ⟨f₄, v₄⟩ := Record.told_found extra (show Json.members? _ = some _ from rfl)
  obtain ⟨f₃, v₃⟩ := s.button.layered_saved
  have table : Settings.inner s.saved = s.button.saved := inner []
  refine ⟨⟨f₁, f₂, table ▸ f₃, f₄⟩, ?_⟩
  simp only [layered, table, v₁, v₂, v₃, v₄, Option.map_none, Option.getD_none]

theorem ofLayer_toJson (ordered : s.Ordered) : ofLayer s.toJson = .ok s := by
  have table : ∀ v, s.saved.find? "button" = some v → ∃ ms, v = .object ms := by
    intro v found
    rw [find?_button] at found
    exact ⟨_, (Option.some.inj found).symm⟩
  obtain ⟨typed, same⟩ := layered_saved (s := s)
  rw [s.toJson_eq]
  exact (ofLayer_layer (saved_ordered ordered) table).mpr ⟨typed, same.symm⟩

/-- Only the member of its name decides about what is extra, and it takes an object in order. -/
theorem ofLayer_ordered {layer : Json} (ordered : layer.Ordered) (loaded : ofLayer layer = .ok s) :
    s.Ordered := by
  have none : Ordered {} := .object .nil (List.forall_mem_nil _)
  have defaults : (toJson {}).Ordered := toJson_eq {} ▸ saved_ordered none
  have beneath : ∀ t ∈ some (toJson {}), t.Ordered := fun t same => Option.some.inj same ▸ defaults
  have laid : (Json.overlay (toJson {}) layer).Ordered := Json.laid_ordered beneath ordered
  refine Record.read_keeps (r := record) none (fun f mem v ordered s t holds set => ?_) laid loaded
  obtain ⟨-, -, extra⟩ := members
  by_cases own : f.name = "extra"
  · have read := extra.own f mem own v s
    rw [set] at read
    obtain rfl : v = .object t.extra := by
      cases v <;> cases read
      rfl
    exact ordered
  · have kept := extra.others f mem own v s
    rw [set] at kept
    have same : t.extra = s.extra := Except.ok.inj kept
    rwa [Ordered, same]

theorem ofFile_ofLayer {file : SettingsFile} {format : Format} {text : String} {layer : Json}
    (known : Format.ofPath? file.path = some format) (content : file.content = .ok text)
    (decoded : format.read? text = some layer) (loaded : ofLayer layer = .ok s) :
    ofFile file = .ok s := by
  rw [ofFile, known, content]
  dsimp only
  rw [ofText, decoded]
  dsimp only
  rw [loaded]

end Saved

/-- Settings are read back from the value that they are written as, laid over the defaults. So what
has been loaded from any layer can be saved and loaded: a file of either format whose text holds the
saved value gives the same settings. Settings that are written alike are the same. -/
theorem saved_loads :
    (∀ s : Settings, s.Ordered → ofLayer s.toJson = .ok s) ∧
      (∀ layer s, layer.Ordered → ofLayer layer = .ok s →
        s.Ordered ∧ ofLayer s.toJson = .ok s ∧
          ∀ (file : SettingsFile) format text, Format.ofPath? file.path = some format →
            file.content = .ok text → format.read? text = some s.toJson → ofFile file = .ok s) ∧
      ∀ s t : Settings, s.Ordered → t.Ordered → s.toJson = t.toJson → s = t := by
  refine ⟨fun s => ofLayer_toJson, fun layer s ordered loaded => ?_,
    fun s t first second same => ?_⟩
  · have so := ofLayer_ordered ordered loaded
    exact ⟨so, ofLayer_toJson so, fun file format text known content decoded =>
      ofFile_ofLayer known content decoded (ofLayer_toJson so)⟩
  · have back := ofLayer_toJson first
    rw [same, ofLayer_toJson second] at back
    exact (Except.ok.inj back).symm

set_option maxRecDepth 3000 in
/-- Settings with something extra, and a file that they are saved in. -/
theorem saved_loads_theme :
    let s : Settings :=
      { debug := false, button := { okayDelay := 1500 }, extra := [("theme", .string "dark")] }
    let text := "\x7b\"button\":\x7b\"auto_disable\":false,\"bummer_class\":\"dj-bummer\"," ++
      "\"bummer_delay_ms\":0,\"okay_class\":\"dj-okay\",\"okay_delay_ms\":1500," ++
      "\"reentrancy\":\"allow\",\"spinner_class\":\"dj-submitting\"\x7d,\"debug\":false," ++
      "\"extra\":\x7b\"theme\":\"dark\"\x7d,\"log_level\":\"info\"\x7d"
    s.Ordered ∧ ofLayer s.toJson = .ok s ∧ ofFile ⟨"formset.json", .ok text⟩ = .ok s ∧
      ∀ t : Settings, t.Ordered → s.toJson = t.toJson → s = t := by
  intro s text
  obtain ⟨loads, again, alike⟩ := saved_loads
  have ordered : s.Ordered :=
    .object (List.pairwise_singleton _ _) (List.forall_mem_singleton.mpr (.string "dark"))
  have saved : s.toJson.Ordered := s.toJson_eq ▸ saved_ordered ordered
  have loaded := loads s ordered
  let button : Members Json := [("auto_disable", .bool false), ("bummer_class", .string "dj-bummer"),
    ("bummer_delay_ms", .int 0), ("okay_class", .string "dj-okay"), ("okay_delay_ms", .int 1500),
    ("reentrancy", .string "allow"), ("spinner_class", .string "dj-submitting")]
  have written : s.toJson = .object [("button", .object button), ("debug", .bool false),
      ("extra", .object [("theme", .string "dark")]), ("log_level", .string "info")] := by
    rfl
  have decoded : Format.json.read? text = some s.toJson := by
    rw [written]
    simp only [text]
    rfl
  have known : Format.ofPath? "formset.json" = some .json := by
    rfl
  have file := (again s.toJson s saved loaded).2.2 ⟨"formset.json", .ok text⟩ .json text known rfl
  exact ⟨ordered, loaded, file decoded, fun t other => alike s t ordered other⟩

end Settings

end ActionChain
