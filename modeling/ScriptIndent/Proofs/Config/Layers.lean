import Mathlib.Logic.Basic
import Mathlib.Tactic.SplitIfs
import ScriptIndent.Command.Run

/-!
# ScriptIndent.Proofs.Config.Layers

Where a setting comes from.

```
options of the command        --indent-size, --tabs, ...
environment                   ESINDENT_INDENT_SIZE, ...
file of the project           <project>/.esindent/config.yaml
file of the user              ~/.esindent/config.yaml
what holds initially
```

What a document says about a setting (`said?`) is followed through the merge of two files
(`said?_merge`), the variables of the environment (`foldlM_overlay`) and the reading of the
document (`ofDocument_eq`).  Valid settings are those of preferences
(`Settings.validate_eq_ok_iff`), so that a merge of two mappings in place of a setting is as
invalid as either of them.

* `ConfigSources.load_eq` — loading reads the variables, and then validates what the merged
  files say;
* `ConfigSources.load_layered` — each setting comes from the highest layer that says something
  about it, and what is not valid there is refused.
-/

namespace ScriptIndent

/-! ## names -/

theorem Section.name_injective : Function.Injective Section.name := by
  intro part other h
  cases part <;> cases other <;> simp_all [Section.name]

theorem Setting.name_injective : Function.Injective Setting.name := by
  intro setting other h
  cases setting <;> cases other <;> simp_all [Setting.name]

/-! ## dictionaries -/

/-- A dictionary that holds each key once. -/
def Dictionary.Keyed {α : Type} (d : Dictionary α) : Prop := (d.map Prod.fst).Nodup

namespace Value

/-- A value that is a mapping. -/
def IsMapping (v : Value) : Prop := ∃ members, v = .mapping members

theorem laidOver_none (v : Value) : laidOver none v = v := by cases v <;> rfl

theorem laidOver_of_not_mapping {v : Value} (h : ¬v.IsMapping) (old : Option Value) :
    laidOver old v = v := by
  cases v with
  | mapping members => exact absurd ⟨members, rfl⟩ h
  | _ => rfl

/-- What is laid over a value is that, or a mapping like it. -/
theorem laidOver_cases (old : Option Value) (v : Value) :
    laidOver old v = v ∨ v.IsMapping ∧ (laidOver old v).IsMapping := by
  by_cases h : v.IsMapping
  · obtain ⟨members, rfl⟩ := h
    refine .inr ⟨⟨members, rfl⟩, ?_⟩
    unfold laidOver
    split <;> exact ⟨_, rfl⟩
  · exact .inl (laidOver_of_not_mapping h old)

/-- A key of a merged dictionary has the value of the older one, or that of the newer one laid
over it. -/
theorem get?_mergeMembers {members : Dictionary Value} (h : members.Keyed)
    (base : Dictionary Value) (key : String) :
    Dictionary.get? (mergeMembers base members) key =
      ((members.get? key).map (laidOver (base.get? key))).or (base.get? key) := by
  induction members generalizing base with
  | nil => simp [mergeMembers]
  | cons p rest ih =>
    obtain ⟨k, v⟩ := p
    obtain ⟨hk, hrest⟩ : k ∉ rest.map Prod.fst ∧ Dictionary.Keyed rest := List.nodup_cons.1 h
    rw [mergeMembers, ih hrest, Dictionary.get?_cons]
    by_cases hkey : k = key
    · subst hkey
      have hnone : Dictionary.get? rest k = none := by
        rw [Dictionary.get?, Option.map_eq_none_iff, List.find?_eq_none]
        intro q hq heq
        exact hk (List.mem_map.2 ⟨q, hq, by simpa using heq⟩)
      simp [hnone, Dictionary.get?_assign_self]
    · rw [if_neg hkey, Dictionary.get?_assign_of_ne hkey]

end Value

/-! ## what a document says -/

/-- A document in which each section is a mapping, if it is there at all. -/
def HasSections (document : Dictionary Value) : Prop :=
  ∀ part : Section, ∀ v ∈ document.get? part.name, v.IsMapping

/-- A file in which each section is a mapping, if it is there at all, and all keys stand once. -/
structure Sectioned (document : Dictionary Value) : Prop where
  keyed : document.Keyed
  mapping : HasSections document
  members_keyed : ∀ part : Section, ∀ members,
    document.get? part.name = some (.mapping members) → Dictionary.Keyed members

/-- What a document says about a setting. -/
def said? (document : Dictionary Value) (setting : Setting) : Option Value :=
  match document.get? setting.sectionOf.name with
  | some (.mapping members) => Dictionary.get? members setting.name
  | _ => none

theorem HasSections.cases {document : Dictionary Value} (h : HasSections document)
    (part : Section) : document.get? part.name = none ∨
      ∃ members, document.get? part.name = some (.mapping members) := by
  cases hget : document.get? part.name with
  | none => exact .inl rfl
  | some v =>
    obtain ⟨members, rfl⟩ := h part v hget
    exact .inr ⟨members, rfl⟩

section Merge

variable {user project : Dictionary Value}

theorem HasSections.merge (hkeyed : project.Keyed) (hproject : HasSections project)
    (huser : HasSections user) : HasSections (Value.merge user project) := by
  intro part v hv
  rw [Option.mem_def, Value.merge, Value.get?_mergeMembers hkeyed] at hv
  obtain hp | ⟨members, hp⟩ := hproject.cases part
  · exact huser part v (by simpa [hp] using hv)
  · obtain heq | ⟨-, hmapping⟩ := Value.laidOver_cases (user.get? part.name) (.mapping members)
    · exact ⟨members, by simpa [hp, heq, eq_comm] using hv⟩
    · rw [hp] at hv
      exact Option.some.inj hv ▸ hmapping

/-- What the merge of two files says about a setting: what the newer one says, laid over what
the older one says. -/
theorem said?_merge (hproject : Sectioned project) (huser : HasSections user)
    (setting : Setting) :
    said? (Value.merge user project) setting =
      ((said? project setting).map (Value.laidOver (said? user setting))).or
        (said? user setting) := by
  rw [said?, Value.merge, Value.get?_mergeMembers hproject.keyed]
  obtain hp | ⟨members, hp⟩ := hproject.mapping.cases setting.sectionOf
  · simp [said?, hp]
  · have hmembers := hproject.members_keyed _ _ hp
    obtain hu | ⟨base, hu⟩ := huser.cases setting.sectionOf
    · simp only [said?, hp, hu, Option.map_some, Option.or_none, Value.laidOver_none]
      cases Dictionary.get? members setting.name <;> simp [Value.laidOver_none]
    · simp only [said?, hp, hu, Option.map_some, Option.some_or, Value.laidOver]
      exact Value.get?_mergeMembers hmembers base setting.name

end Merge

/-! ## the environment -/

/-- The variable that gives a setting. -/
def Setting.variable? : Setting → Option String
  | .indentSize => some "ESINDENT_INDENT_SIZE"
  | .indentType => some "ESINDENT_INDENT_TYPE"
  | .switchCase => some "ESINDENT_SWITCH_CASE"
  | _ => none

namespace Environment

/-- The text that the environment gives for a setting. -/
def text? (e : Environment) (setting : Setting) : Option String :=
  setting.variable?.bind e.given?

/-- The value that the environment gives to a setting. -/
def said? (e : Environment) (setting : Setting) : Option Value :=
  (e.text? setting).bind fun text => (setting.ofText text).toOption

/-- A variable for a number holds something else. -/
def Misspells (e : Environment) : Prop :=
  ∃ setting text, setting.kind = .number ∧ e.text? setting = some text ∧
    Text.integer? text = none

end Environment

/-- The text of a variable spells a value for its setting. -/
def Spelt (e : Environment) (given : String × Setting) : Prop :=
  ∀ text ∈ e.given? given.1, ∃ value, given.2.ofText text = .ok value

theorem Setting.exists_ofText_iff {setting : Setting} {text : String} :
    (∃ value, setting.ofText text = .ok value) ↔
      (setting.kind = .number → (Text.integer? text).isSome) := by
  rw [Setting.ofText]
  cases setting.kind <;> cases Text.integer? text <;> simp

theorem Environment.misspells_iff (e : Environment) :
    e.Misspells ↔ ∃ given ∈ settingVariables, ¬Spelt e given := by
  simp only [Environment.Misspells, Spelt, Setting.exists_ofText_iff, settingVariables]
  constructor
  · rintro ⟨setting, text, hkind, htext, hnone⟩
    cases setting with
    | indentSize => exact ⟨("ESINDENT_INDENT_SIZE", .indentSize), by simp, fun h => by
        simpa [hnone] using h text htext hkind⟩
    | switchCase => exact ⟨("ESINDENT_SWITCH_CASE", .switchCase), by simp, fun h => by
        simpa [hnone] using h text htext hkind⟩
    | _ => cases hkind
  · rintro ⟨given, hgiven, hspelt⟩
    simp only [not_forall, Option.not_isSome_iff_eq_none] at hspelt
    obtain ⟨text, htext, hkind, hnone⟩ := hspelt
    refine ⟨given.2, text, hkind, ?_, hnone⟩
    simp only [List.mem_cons, List.not_mem_nil, or_false] at hgiven
    obtain rfl | rfl | rfl := hgiven <;> exact htext

section Overlay

variable {document : Dictionary Value} {e : Environment}

/-- A setting is stored in its section, if that is a mapping or not there, in place of what was
said about it. -/
theorem storeSetting_eq {setting : Setting}
    (h : ∀ v ∈ document.get? setting.sectionOf.name, v.IsMapping) (value : Value) :
    ∃ members, storeSetting document setting value =
        .ok (document.assign setting.sectionOf.name (.mapping members)) ∧
      ∀ other : Setting, other.sectionOf = setting.sectionOf →
        Dictionary.get? members other.name =
          if other = setting then some value else said? document other := by
  rw [storeSetting]
  cases hget : document.get? setting.sectionOf.name with
  | none =>
    refine ⟨_, rfl, fun other hother => ?_⟩
    rw [Dictionary.get?_cons, said?, hother, hget]
    simp [Setting.name_injective.eq_iff, eq_comm]
  | some v =>
    obtain ⟨members, rfl⟩ := h v hget
    refine ⟨_, rfl, fun other hother => ?_⟩
    by_cases heq : other = setting
    · rw [heq, Dictionary.get?_assign_self, if_pos rfl]
    · rw [Dictionary.get?_assign_of_ne fun hname => heq (Setting.name_injective hname.symm),
        if_neg heq, said?, hother, hget]

theorem get?_assign_section {part other : Section} (h : other ≠ part) (v : Value) :
    Dictionary.get? (document.assign part.name v) other.name = document.get? other.name :=
  Dictionary.get?_assign_of_ne (fun hname => h (Section.name_injective hname.symm)) v document

theorem HasSections.storeSetting (h : HasSections document) (setting : Setting) (value : Value) :
    ∃ next, storeSetting document setting value = .ok next ∧ HasSections next ∧
      ∀ other, said? next other = if other = setting then some value else said? document other := by
  obtain ⟨members, hstored, hmembers⟩ := storeSetting_eq (h setting.sectionOf) value
  refine ⟨_, hstored, fun part v hv => ?_, fun other => ?_⟩
  · by_cases hpart : part = setting.sectionOf
    · rw [hpart, Dictionary.get?_assign_self] at hv
      exact ⟨members, (Option.some.inj hv).symm⟩
    · rw [get?_assign_section hpart] at hv
      exact h part v hv
  · by_cases hpart : other.sectionOf = setting.sectionOf
    · rw [said?, hpart, Dictionary.get?_assign_self]
      exact hmembers other hpart
    · have hother : other ≠ setting := fun heq => hpart (heq ▸ rfl)
      rw [said?, get?_assign_section hpart, if_neg hother, said?]

/-- A variable that is not given leaves a document as it is. -/
theorem overlay_of_none {given : String × Setting} (h : e.given? given.1 = none) :
    overlay e document given = .ok document := by rw [overlay, h]

/-- A variable that spells a value is stored. -/
theorem overlay_of_spelt {given : String × Setting} (h : Spelt e given) {text : String}
    (htext : e.given? given.1 = some text) : ∃ value, given.2.ofText text = .ok value ∧
      overlay e document given = storeSetting document given.2 value := by
  obtain ⟨value, hvalue⟩ := h text htext
  exact ⟨value, hvalue, by simp only [overlay, htext, hvalue]⟩

/-- A variable that spells no value is found to be invalid, whatever the document is. -/
theorem overlay_of_not_spelt {given : String × Setting} (h : ¬Spelt e given) :
    ∃ cause, overlay e document given = .error (.invalid cause) := by
  simp only [Spelt, not_forall, not_exists] at h
  obtain ⟨text, htext, hwrong⟩ := h
  cases hvalue : given.2.ofText text with
  | error cause => exact ⟨cause, by simp only [overlay, Option.mem_def.1 htext, hvalue]⟩
  | ok value => exact absurd hvalue (hwrong value)

/-- What some variables say about a setting: the last of those that are for it counts. -/
def laidBy? (e : Environment) (setting : Setting) : List (String × Setting) → Option Value
  | [] => none
  | given :: rest =>
    (laidBy? e setting rest).or
      (if given.2 = setting then
        (e.given? given.1).bind fun text => (setting.ofText text).toOption
      else none)

theorem laidBy?_settingVariables (e : Environment) (setting : Setting) :
    laidBy? e setting settingVariables = e.said? setting := by
  cases setting <;>
    simp [laidBy?, settingVariables, Environment.said?, Environment.text?, Setting.variable?]

/-- A variable that spells a value is laid over a document. -/
theorem HasSections.overlay (h : HasSections document) {given : String × Setting}
    (hspelt : Spelt e given) :
    ∃ next, overlay e document given = .ok next ∧ HasSections next ∧
      ∀ other, said? next other = (laidBy? e other [given]).or (said? document other) := by
  cases htext : e.given? given.1 with
  | none => exact ⟨document, overlay_of_none htext, h, fun other => by simp [laidBy?, htext]⟩
  | some text =>
    obtain ⟨value, hvalue, hoverlay⟩ := overlay_of_spelt hspelt htext
    obtain ⟨next, hnext, hsections, hsaid⟩ := h.storeSetting given.2 value
    refine ⟨next, hoverlay.trans hnext, hsections, fun other => ?_⟩
    rw [hsaid]
    by_cases hother : other = given.2
    · subst hother
      simp [laidBy?, htext, hvalue, Except.toOption]
    · simp [laidBy?, hother, Ne.symm hother]

/-- Variables are laid over a document one after the other, if all of them spell values. -/
theorem HasSections.foldlM_overlay (h : HasSections document)
    {givens : List (String × Setting)} (hspelt : ∀ given ∈ givens, Spelt e given) :
    ∃ next, givens.foldlM (ScriptIndent.overlay e) document = .ok next ∧ HasSections next ∧
      ∀ other, said? next other = (laidBy? e other givens).or (said? document other) := by
  induction givens generalizing document with
  | nil => exact ⟨document, rfl, h, fun _ => rfl⟩
  | cons given rest ih =>
    obtain ⟨first, hfirst, hsections, hsaid⟩ := h.overlay (hspelt given List.mem_cons_self)
    obtain ⟨next, hnext, hsections, hlast⟩ :=
      ih hsections fun other hother => hspelt other (List.mem_cons_of_mem given hother)
    refine ⟨next, ?_, hsections, fun other => ?_⟩
    · rw [List.foldlM_cons, hfirst]
      exact hnext
    · rw [hlast, hsaid, ← Option.or_assoc]
      simp [laidBy?]

/-- A variable that spells no value makes a document invalid. -/
theorem HasSections.foldlM_overlay_misspelt (h : HasSections document)
    {givens : List (String × Setting)} (hspelt : ∃ given ∈ givens, ¬Spelt e given) :
    ∃ cause, givens.foldlM (ScriptIndent.overlay e) document = .error (.invalid cause) := by
  induction givens generalizing document with
  | nil => obtain ⟨given, hgiven, -⟩ := hspelt; cases hgiven
  | cons given rest ih =>
    rw [List.foldlM_cons]
    by_cases hfirst : Spelt e given
    · obtain ⟨next, hnext, hsections, -⟩ := h.overlay hfirst
      rw [hnext]
      obtain ⟨other, hother, hwrong⟩ := hspelt
      obtain rfl | hrest := List.mem_cons.1 hother
      · exact absurd hfirst hwrong
      · exact ih hsections ⟨other, hrest, hwrong⟩
    · obtain ⟨cause, hcause⟩ := overlay_of_not_spelt hfirst
      exact ⟨cause, by rw [hcause]; rfl⟩

end Overlay

/-! ## reading a document -/

theorem HasSections.sectionMembers {document : Dictionary Value} (h : HasSections document)
    (part : Section) : ∃ members, sectionMembers document part = .ok members ∧
      ∀ setting : Setting, setting.sectionOf = part →
        said? document setting = Dictionary.get? members setting.name := by
  rw [ScriptIndent.sectionMembers]
  obtain hnone | ⟨members, hsome⟩ := h.cases part
  · refine ⟨[], by rw [hnone], fun setting hsetting => ?_⟩
    rw [said?, hsetting, hnone, Dictionary.get?_nil]
  · refine ⟨members, by rw [hsome], fun setting hsetting => ?_⟩
    rw [said?, hsetting, hsome]

/-- What a document does not say is as initially. -/
theorem HasSections.ofDocument_eq {document : Dictionary Value} (h : HasSections document) :
    Settings.ofDocument document =
      .ok fun setting => (said? document setting).getD (Settings.initial setting) := by
  obtain ⟨indent, hindent, hsaid⟩ := h.sectionMembers .indent
  obtain ⟨display, hdisplay, hshown⟩ := h.sectionMembers .display
  rw [Settings.ofDocument, hindent, hdisplay]
  refine congrArg Except.ok (funext fun setting => ?_)
  cases hpart : setting.sectionOf with
  | indent => simp [hsaid setting hpart]
  | display => simp [hshown setting hpart]

/-! ## valid settings -/

theorem IndentUnit.ofName?_eq_some {name : String} {u : IndentUnit} (h : ofName? name = some u) :
    name = u.name := by
  unfold ofName? at h
  split_ifs at h with hspace htab <;> obtain rfl := Option.some.inj h <;> assumption

theorem SymbolChoice.ofName?_eq_some {name : String} {c : SymbolChoice}
    (h : ofName? name = some c) : name = c.name := by
  unfold ofName? at h
  split_ifs at h with h₁ h₂ h₃ <;> obtain rfl := Option.some.inj h <;> assumption

theorem ReportFormat.ofName?_eq_some {name : String} {f : ReportFormat}
    (h : ofName? name = some f) : name = f.name := by
  unfold ofName? at h
  split_ifs at h with htext hjson <;> obtain rfl := Option.some.inj h <;> assumption

namespace Value

theorem atLeast?_eq_some {bound i : Int} {v : Value} (h : v.atLeast? bound = some i) :
    v = .int i ∧ bound ≤ i := by
  cases v with
  | int j =>
    rw [atLeast?] at h
    split_ifs at h with hle
    obtain rfl := Option.some.inj h
    exact ⟨rfl, hle⟩
  | _ => cases h

private theorem flag?_eq_some {b : Bool} {v : Value} (h : v.flag? = some b) : v = .bool b := by
  cases v with
  | bool c => exact congrArg Value.bool (Option.some.inj h)
  | _ => cases h

theorem named?_eq_some {α : Type} {ofName? : String → Option α} {a : α} {v : Value}
    (h : v.named? ofName? = some a) : ∃ name, v = .string name ∧ ofName? name = some a := by
  cases v with
  | string s => exact ⟨s, rfl, h⟩
  | _ => cases h

end Value

theorem bind_eq_ok {ε α β : Type} {x : Except ε α} {f : α → Except ε β} {b : β} :
    x >>= f = .ok b ↔ ∃ a, x = .ok a ∧ f a = .ok b := by
  cases x with
  | error e => exact ⟨nofun, fun ⟨_, h, _⟩ => nomatch h⟩
  | ok a => exact ⟨fun h => ⟨a, rfl, h⟩, fun ⟨_, h, hf⟩ => Except.ok.inj h ▸ hf⟩

namespace Settings

theorem read_eq_ok_iff {α : Type} {s : Settings} {setting : Setting} {f : Value → Option α}
    {a : α} : s.read setting f = .ok a ↔ f (s setting) = some a := by
  rw [read]
  cases f (s setting) <;> simp

/-- Settings are valid if and only if they are those of preferences with numbers in range. -/
theorem validate_eq_ok_iff {s : Settings} {p : Preferences} :
    s.validate = .ok p ↔ s = p.settings ∧ 1 ≤ p.style.size ∧ 0 ≤ p.style.caseLevels := by
  refine ⟨fun h => ?_, fun ⟨hs, hsize, hlevels⟩ => hs ▸ validate_settings hsize hlevels⟩
  simp only [validate, style, display, bind_eq_ok, read_eq_ok_iff] at h
  obtain ⟨_, ⟨unit, hunit, size, hsize, levels, hlevels, script, hscript, hstyle⟩,
    _, ⟨symbols, hsymbols, format, hformat, hdisplay⟩, hp⟩ := h
  obtain rfl := Except.ok.inj hstyle
  obtain rfl := Except.ok.inj hdisplay
  obtain rfl := Except.ok.inj hp
  obtain ⟨hsizeEq, hsize⟩ := Value.atLeast?_eq_some hsize
  obtain ⟨hlevelsEq, hlevels⟩ := Value.atLeast?_eq_some hlevels
  obtain ⟨name, hunitEq, hunit⟩ := Value.named?_eq_some hunit
  obtain ⟨choice, hsymbolsEq, hsymbols⟩ := Value.named?_eq_some hsymbols
  obtain ⟨shape, hformatEq, hformat⟩ := Value.named?_eq_some hformat
  obtain rfl := IndentUnit.ofName?_eq_some hunit
  obtain rfl := SymbolChoice.ofName?_eq_some hsymbols
  obtain rfl := ReportFormat.ofName?_eq_some hformat
  refine ⟨funext fun setting => ?_, hsize, hlevels⟩
  cases setting with
  | indentSize => exact hsizeEq
  | indentType => exact hunitEq
  | switchCase => exact hlevelsEq
  | indentScript => exact Value.flag?_eq_some hscript
  | symbols => exact hsymbolsEq
  | format => exact hformatEq

/-- Settings that differ only in what is a mapping in both are valid together. -/
theorem validate_eq_ok_of_alike {s t : Settings}
    (h : ∀ setting, s setting = t setting ∨ (s setting).IsMapping ∧ (t setting).IsMapping)
    {p : Preferences} (hs : s.validate = .ok p) : t.validate = .ok p := by
  rw [validate_eq_ok_iff] at hs ⊢
  obtain ⟨rfl, hrange⟩ := hs
  refine ⟨funext fun setting => ?_, hrange⟩
  obtain heq | ⟨⟨members, hmapping⟩, -⟩ := h setting
  · exact heq.symm
  · cases setting <;> cases hmapping

theorem exists_error_iff {s : Settings} :
    (∃ cause, s.validate = .error cause) ↔ ¬∃ p, s.validate = .ok p := by
  cases s.validate <;> simp

end Settings

/-! ## loading -/

/-- The settings that the layers below the options give: the highest layer that says something
about a setting counts. -/
def layered (e : Environment) (project user : Dictionary Value) : Settings := fun setting =>
  (((e.said? setting).or (said? project setting)).or (said? user setting)).getD
    (Settings.initial setting)

namespace ConfigSources

variable {c : ConfigSources} {w : Workspace} {user project : Layer}

/-- The mapping that the file at a path holds.  A file that is missing or holds anything else
counts as an empty mapping. -/
def members (c : ConfigSources) (w : Workspace) (path : Path) : Dictionary Value :=
  match (w.read path).toOption.bind c.reader with
  | some (.mapping members) => members
  | _ => []

private theorem members_ofFile (path : Path) (content : Option Value) :
    (Layer.ofFile path content).members =
      match content with
      | some (.mapping members) => members
      | _ => [] := by
  unfold Layer.ofFile
  cases content with
  | none => rfl
  | some v =>
    cases v with
    | mapping members => cases members <;> rfl
    | _ => dsimp only; split <;> rfl

/-- A file says what it holds, if it can be told whether it is there. -/
theorem exists_layer {path : Path} {there : Bool} (h : w.has path = .ok there) :
    ∃ layer, c.layer w path = .ok layer ∧ layer.members = c.members w path := by
  rw [layer, h]
  cases there with
  | true =>
    refine ⟨_, rfl, ?_⟩
    exact members_ofFile path _
  | false =>
    refine ⟨_, rfl, ?_⟩
    have hread : (w.read path).toOption = none := by
      rw [Workspace.has, Workspace.find?] at h
      rw [Workspace.read]
      cases hfind : w.find path with
      | ok content => rw [hfind] at h; cases h
      | error trouble => rfl
    rw [members, hread]
    rfl

theorem result_load (huser : c.layer w c.userFile = .ok user)
    (hproject : c.layer w c.projectFile = .ok project) :
    (c.load w).result =
      (settingVariables.foldlM (overlay c.environment)
        (Value.merge user.members project.members)).bind Preferences.ofDocument := by
  rw [load, huser, hproject]
  rfl

/-- Loading validates what the variables and the merged files say, if the variables spell
values. -/
theorem load_eq (huser : c.layer w c.userFile = .ok user)
    (hproject : c.layer w c.projectFile = .ok project)
    (hsections : HasSections (Value.merge user.members project.members))
    (hspelt : ¬c.environment.Misspells) :
    (c.load w).result = Except.mapError .invalid (Settings.validate fun setting =>
      ((c.environment.said? setting).or
        (said? (Value.merge user.members project.members) setting)).getD
          (Settings.initial setting)) := by
  rw [Environment.misspells_iff] at hspelt
  obtain ⟨document, hdocument, hlaid, hsaid⟩ :=
    hsections.foldlM_overlay fun given hgiven => not_not.1 fun h => hspelt ⟨given, hgiven, h⟩
  rw [result_load huser hproject, hdocument]
  simp only [Except.bind, Preferences.ofDocument, hlaid.ofDocument_eq, hsaid,
    laidBy?_settingVariables]
  rfl

/-- A variable that spells no number is refused. -/
theorem load_misspelt (huser : c.layer w c.userFile = .ok user)
    (hproject : c.layer w c.projectFile = .ok project)
    (hsections : HasSections (Value.merge user.members project.members))
    (hmisspelt : c.environment.Misspells) :
    ∃ cause, (c.load w).result = .error (.invalid cause) := by
  rw [Environment.misspells_iff] at hmisspelt
  obtain ⟨cause, hcause⟩ := hsections.foldlM_overlay_misspelt hmisspelt
  exact ⟨cause, by rw [result_load huser hproject, hcause]; rfl⟩

/-- What two files say when they are merged is what the higher one says, and else the lower one;
or it is a mapping in both readings. -/
theorem layered_alike (hproject : Sectioned project.members) (huser : HasSections user.members)
    (setting : Setting) :
    ((c.environment.said? setting).or
        (said? (Value.merge user.members project.members) setting)).getD
          (Settings.initial setting) =
        layered c.environment project.members user.members setting ∨
      (((c.environment.said? setting).or
        (said? (Value.merge user.members project.members) setting)).getD
          (Settings.initial setting)).IsMapping ∧
        (layered c.environment project.members user.members setting).IsMapping := by
  rw [said?_merge hproject huser, layered]
  cases c.environment.said? setting with
  | some value => exact .inl rfl
  | none =>
    cases said? project.members setting with
    | none => exact .inl rfl
    | some value =>
      obtain heq | hmapping := Value.laidOver_cases (said? user.members setting) value
      · exact .inl heq
      · exact .inr hmapping.symm

/-- With variables that spell values, loading succeeds with the settings of the layers, if these
are valid, and finds something invalid otherwise. -/
theorem load_spelt (huser : c.layer w c.userFile = .ok user)
    (hproject : c.layer w c.projectFile = .ok project) (husers : Sectioned user.members)
    (hprojects : Sectioned project.members) (hspelt : ¬c.environment.Misspells) :
    (∃ p, (c.load w).result = .ok p ∧
      (layered c.environment project.members user.members).validate = .ok p) ∨
    (∃ cause, (c.load w).result = .error (.invalid cause)) ∧
      ∃ cause, (layered c.environment project.members user.members).validate = .error cause := by
  have hsections := HasSections.merge hprojects.keyed hprojects.mapping husers.mapping
  have halike := layered_alike (c := c) hprojects husers.mapping
  rw [load_eq huser hproject hsections hspelt]
  cases hvalid : (layered c.environment project.members user.members).validate with
  | ok p =>
    refine .inl ⟨p, ?_, rfl⟩
    rw [Settings.validate_eq_ok_of_alike (fun setting => ?_) hvalid]
    · rfl
    · exact (halike setting).imp Eq.symm And.symm
  | error cause =>
    refine .inr ⟨?_, cause, rfl⟩
    have hnone (p : Preferences) :
        Settings.validate (fun setting => ((c.environment.said? setting).or
          (said? (Value.merge user.members project.members) setting)).getD
            (Settings.initial setting)) ≠ .ok p := fun hp => by
      rw [Settings.validate_eq_ok_of_alike halike hp] at hvalid
      cases hvalid
    obtain ⟨found, hfound⟩ := Settings.exists_error_iff.2 fun ⟨p, hp⟩ => hnone p hp
    exact ⟨found, by rw [hfound]; rfl⟩

/-- Loading succeeds with the settings of the layers if the variables spell values and these
settings are valid. -/
theorem result_load_eq_ok_iff {there stands : Bool} (huser : w.has c.userFile = .ok there)
    (hproject : w.has c.projectFile = .ok stands) (husers : Sectioned (c.members w c.userFile))
    (hprojects : Sectioned (c.members w c.projectFile)) {p : Preferences} :
    (c.load w).result = .ok p ↔ ¬c.environment.Misspells ∧
      (layered c.environment (c.members w c.projectFile) (c.members w c.userFile)).validate =
        .ok p := by
  obtain ⟨user, huser, huserMembers⟩ := c.exists_layer huser
  obtain ⟨project, hproject, hprojectMembers⟩ := c.exists_layer hproject
  rw [← huserMembers] at husers ⊢
  rw [← hprojectMembers] at hprojects ⊢
  by_cases hspelt : c.environment.Misspells
  · obtain ⟨cause, hcause⟩ := load_misspelt huser hproject
      (HasSections.merge hprojects.keyed hprojects.mapping husers.mapping) hspelt
    simp [hcause, hspelt]
  · rw [and_iff_right hspelt]
    obtain ⟨q, hq, hvalid⟩ | ⟨⟨cause, hcause⟩, found, hinvalid⟩ :=
      load_spelt huser hproject husers hprojects hspelt
    · rw [hq, hvalid, Except.ok.injEq, Except.ok.injEq]
    · simp [hcause, hinvalid]

/-- If loading succeeds, it can be told whether the files are there. -/
theorem exists_has_of_load {p : Preferences} (h : (c.load w).result = .ok p) :
    (∃ there, w.has c.userFile = .ok there) ∧ ∃ stands, w.has c.projectFile = .ok stands := by
  rw [load] at h
  cases huser : w.has c.userFile with
  | error e => simp [layer, huser, Except.map] at h
  | ok there =>
    cases hproject : w.has c.projectFile with
    | error e => simp [layer, huser, hproject, Except.map] at h
    | ok stands => exact ⟨⟨there, rfl⟩, stands, rfl⟩

end ConfigSources

/-! ## options -/

/-- The value that the options of a command give to a setting. -/
def Command.said? (command : Command) : Setting → Option Value
  | .indentSize => command.flags.size.map NumberChoice.value
  | .indentType => if command.flags.tabs then some (.string IndentUnit.tab.name) else none
  | .switchCase => command.flags.caseLevels.map NumberChoice.value
  | .indentScript => if command.flags.flushScript then some (.bool false) else none
  | .symbols => none
  | .format => command.format?.map fun format => .string format.name

/-- Options go before what is preferred. -/
theorem Preferences.override_eq (p : Preferences) (command : Command) :
    p.override command =
      Settings.validate fun setting => (command.said? setting).getD (p.settings setting) := by
  have hsome {α : Type} (o : Option α) (target : Setting) (f : α → Value) (s : Settings) :
      (o.toList.map fun a => (target, f a)).foldl (fun s x => s.put x.1 x.2) s =
        fun setting => if setting = target then (o.map f).getD (s target) else s setting := by
    funext setting
    cases o with
    | none => by_cases h : setting = target <;> simp [h]
    | some a => rfl
  have hflag (b : Bool) (target : Setting) (v : Value) (s : Settings) :
      (if b then [(target, v)] else []).foldl (fun s x => s.put x.1 x.2) s =
        fun setting =>
          if setting = target then (if b then some v else none).getD (s target) else s setting := by
    funext setting
    cases b with
    | false => by_cases h : setting = target <;> simp [h]
    | true => rfl
  rw [override, Command.given, StyleFlags.given]
  simp only [List.foldl_append, hsome, hflag]
  congr 1
  funext setting
  cases setting <;> simp [Command.said?]

/-! ## all layers -/

/-- A document that holds the section of indentation alone. -/
theorem sectioned_indent {members : Dictionary Value} (h : members.Keyed) :
    Sectioned [("indent", .mapping members)] where
  keyed := by simp [Dictionary.Keyed]
  mapping part v hv := by
    cases part with
    | indent => exact ⟨members, (Option.some.inj hv).symm⟩
    | display => cases hv
  members_keyed part found hfound := by
    cases part with
    | indent => cases hfound; exact h
    | display => cases hfound

/-- Sources in a workspace with a file of the user and one of the project. -/
def sourcesIn (e : Environment) : ConfigSources where
  project := ⟨"", ["project"]⟩
  user := ⟨"", ["home", ConfigSources.directoryName]⟩
  environment := e
  reader := fun bytes => Document.ofText? (Utf8.decode bytes.toList)

theorem members_of_text {e : Environment} {w : Workspace} {path : Path} {text : String}
    {members : Dictionary Value} (hread : w.read path = .ok (Utf8.encode text))
    (htext : Utf8.decode (Utf8.encode text).toList = text)
    (hmembers : Document.ofText? text = some (.mapping members)) :
    (sourcesIn e).members w path = members := by
  have hreader : (sourcesIn e).reader (Utf8.encode text) = some (.mapping members) := by
    rw [← hmembers]
    exact congrArg Document.ofText? htext
  simp only [ConfigSources.members, hread, Except.toOption, Option.bind_some, hreader]

/-- A user asks for four columns and flush clauses. -/
def flushText : String := "indent:\n  indent_size: 4\n  switch_case: 0\n"

/-- A project asks for three columns. -/
def narrowText : String := "indent:\n  indent_size: 3\n"

def narrowWorkspace : Workspace where
  contents := [
    (["home", ".esindent", "config.yaml"], .file (Utf8.encode flushText)),
    (["project", ".esindent", "config.yaml"], .file (Utf8.encode narrowText))]

def tabEnvironment : Environment :=
  [("ESINDENT_INDENT_TYPE", "tab"), ("ESINDENT_SWITCH_CASE", "")]

theorem members_flushText :
    (sourcesIn tabEnvironment).members narrowWorkspace (sourcesIn tabEnvironment).userFile =
      [("indent", .mapping [("indent_size", .int 4), ("switch_case", .int 0)])] :=
  @members_of_text _ _ _ flushText _ rfl (by decide +kernel) rfl

theorem members_narrowText :
    (sourcesIn tabEnvironment).members narrowWorkspace (sourcesIn tabEnvironment).projectFile =
      [("indent", .mapping [("indent_size", .int 3)])] :=
  @members_of_text _ _ _ narrowText _ rfl (by decide +kernel) rfl

private theorem not_misspells_tabEnvironment : ¬tabEnvironment.Misspells := by
  have hsize : tabEnvironment.text? .indentSize = none := by decide
  have hcase : tabEnvironment.text? .switchCase = none := by decide
  rintro ⟨setting, text, hkind, htext, -⟩
  cases setting with
  | indentSize => cases hsize.symm.trans htext
  | switchCase => cases hcase.symm.trans htext
  | _ => cases hkind

end ScriptIndent
