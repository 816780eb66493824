import ScriptIndent.Proofs.Config.Layers

/-!
# ScriptIndent.Proofs.Config.Faults

How loading preferences ends.

Preferences are loaded, or something invalid is found and told, as long as each section of the
files is a mapping or stands for nothing.  Of a section that is anything else neither a setting
can be read nor can a variable of the environment be stored in it, and loading breaks off
(`Obstructed`).

A file may also hold bytes that are no text, or a text that spells something that is no value at
all.  That is not taken for a malformed file: the reader breaks off with an error of its own, and
so does loading (`Reader`).

* `told_ofDocument_iff` — reading a document breaks off where a section is blocked;
* `ConfigSources.loadBy_cases` — loading breaks off with the first of the two files with which the
  reader does;
* `ConfigSources.load_ends_iff` — loading ends with valid preferences or with what is invalid,
  unless it is obstructed.
-/

namespace ScriptIndent

/-- What the files put in the place of a section: the file of the project goes before that of
the user. -/
def content? (project user : Dictionary Value) (part : Section) : Option Value :=
  (project.get? part.name).or (user.get? part.name)

/-- Something that is no mapping and does not stand for nothing is in the place of a section. -/
def Blocks (content : Option Value) : Prop :=
  ∃ v, content = some v ∧ ¬v.IsMapping ∧ v.isVoid = false

/-- The files and the environment keep preferences from being loaded.  The first variable that
is given is stored in the section of indentation, whatever is there; without one the section
has to be read. -/
def Obstructed (e : Environment) (project user : Dictionary Value) : Prop :=
  (∃ v, content? project user .indent = some v ∧ ¬v.IsMapping ∧
    match settingVariables.find? fun given => (e.given? given.1).isSome with
    | none => v.isVoid = false
    | some given => Spelt e given) ∨
  ¬e.Misspells ∧ Blocks (content? project user .display)

/-- Loading ends with preferences, or with something invalid. -/
def LoadFault.Told {α : Type} (result : Except LoadFault α) : Prop :=
  (∃ a, result = .ok a) ∨ ∃ cause, result = .error (.invalid cause)

/-! ## merged sections -/

section Merge

variable {user project : Dictionary Value}

theorem get?_merge (h : project.Keyed) (part : Section) {v : Value} (hv : ¬v.IsMapping) :
    (Value.merge user project).get? part.name = some v ↔ content? project user part = some v := by
  rw [Value.merge, Value.get?_mergeMembers h, content?]
  cases project.get? part.name with
  | none => rfl
  | some newer =>
    simp only [Option.map_some, Option.some_or, Option.some.injEq]
    obtain heq | ⟨hnewer, hlaid⟩ := Value.laidOver_cases (user.get? part.name) newer
    · rw [heq]
    · exact iff_of_false (fun h => hv (h ▸ hlaid)) fun h => hv (h ▸ hnewer)

theorem blocks_merge (h : project.Keyed) (part : Section) :
    Blocks ((Value.merge user project).get? part.name) ↔ Blocks (content? project user part) :=
  exists_congr fun _ => ⟨fun ⟨hv, hmapping, hvoid⟩ => ⟨(get?_merge h part hmapping).1 hv,
    hmapping, hvoid⟩, fun ⟨hv, hmapping, hvoid⟩ => ⟨(get?_merge h part hmapping).2 hv, hmapping,
    hvoid⟩⟩

end Merge

/-! ## storing variables -/

section Overlay

variable {document : Dictionary Value} {e : Environment} {givens : List (String × Setting)}

/-- A variable that spells a value leaves the section of indentation a mapping, if it is one, and
the other section as it is. -/
theorem overlay_indent {given : String × Setting} (hgiven : given.2.sectionOf = .indent)
    (h : ∀ v ∈ document.get? Section.indent.name, v.IsMapping) (hspelt : Spelt e given) :
    ∃ next, overlay e document given = .ok next ∧
      (∀ v ∈ next.get? Section.indent.name, v.IsMapping) ∧
      next.get? Section.display.name = document.get? Section.display.name := by
  cases htext : e.given? given.1 with
  | none => exact ⟨document, overlay_of_none htext, h, rfl⟩
  | some text =>
    obtain ⟨value, -, hoverlay⟩ := overlay_of_spelt hspelt htext
    obtain ⟨members, hstored, -⟩ := storeSetting_eq (hgiven ▸ h) value
    rw [hgiven] at hstored
    refine ⟨_, hoverlay.trans hstored, fun v hv => ?_, get?_assign_section (by decide) _⟩
    rw [Dictionary.get?_assign_self] at hv
    exact ⟨members, (Option.some.inj hv).symm⟩

/-- Variables are stored in a section that is a mapping, or not there, if all of them spell
values. -/
theorem foldlM_overlay_indent (hvariables : ∀ given ∈ givens, given.2.sectionOf = .indent)
    (h : ∀ v ∈ document.get? Section.indent.name, v.IsMapping) :
    ((∀ given ∈ givens, Spelt e given) ∧
      ∃ next, givens.foldlM (overlay e) document = .ok next ∧
        (∀ v ∈ next.get? Section.indent.name, v.IsMapping) ∧
        next.get? Section.display.name = document.get? Section.display.name) ∨
    (∃ given ∈ givens, ¬Spelt e given) ∧
      ∃ cause, givens.foldlM (overlay e) document = .error (.invalid cause) := by
  induction givens generalizing document with
  | nil => exact .inl ⟨nofun, document, rfl, h, rfl⟩
  | cons given rest ih =>
    rw [List.foldlM_cons]
    by_cases hspelt : Spelt e given
    · obtain ⟨next, hnext, hindent, hdisplay⟩ :=
        overlay_indent (hvariables given List.mem_cons_self) h hspelt
      rw [hnext, ← hdisplay]
      refine (ih (fun other hother => hvariables other (List.mem_cons_of_mem given hother))
        hindent).imp (fun ⟨hall, hends⟩ => ⟨?_, hends⟩) fun ⟨⟨other, hother, hwrong⟩, hends⟩ =>
          ⟨⟨other, List.mem_cons_of_mem given hother, hwrong⟩, hends⟩
      rintro other (- | ⟨-, hother⟩)
      · exact hspelt
      · exact hall other hother
    · obtain ⟨cause, hcause⟩ := overlay_of_not_spelt hspelt
      exact .inr ⟨⟨given, List.mem_cons_self, hspelt⟩, cause, by rw [hcause]; rfl⟩

/-- Nothing is stored in a section that is anything else: the first variable that is given ends
loading. -/
theorem foldlM_overlay_blocked (hvariables : ∀ given ∈ givens, given.2.sectionOf = .indent)
    {v : Value} (h : document.get? Section.indent.name = some v) (hv : ¬v.IsMapping) :
    match givens.find? fun given => (e.given? given.1).isSome with
    | none => givens.foldlM (overlay e) document = .ok document
    | some given =>
      (Spelt e given → givens.foldlM (overlay e) document = .error (.unwritable v)) ∧
      (¬Spelt e given →
        ∃ cause, givens.foldlM (overlay e) document = .error (.invalid cause)) := by
  induction givens with
  | nil => rfl
  | cons given rest ih =>
    have ih := ih fun other hother => hvariables other (List.mem_cons_of_mem given hother)
    rw [List.foldlM_cons]
    cases htext : e.given? given.1 with
    | none =>
      rw [List.find?_cons_of_neg (by simp [htext]), overlay_of_none htext]
      exact ih
    | some text =>
      rw [List.find?_cons_of_pos (by simp [htext])]
      refine ⟨fun hspelt => ?_, fun hwrong => ?_⟩
      · obtain ⟨value, -, hoverlay⟩ := overlay_of_spelt hspelt htext
        have hstored : storeSetting document given.2 value = .error (.unwritable v) := by
          rw [storeSetting, hvariables given List.mem_cons_self, h]
          cases v with
          | mapping members => exact absurd ⟨members, rfl⟩ hv
          | _ => rfl
        rw [hoverlay, hstored]
        rfl
      · obtain ⟨cause, hcause⟩ := overlay_of_not_spelt hwrong
        exact ⟨cause, by rw [hcause]; rfl⟩

end Overlay

/-! ## reading a document -/

section Reading

variable {document : Dictionary Value}

theorem sectionMembers_cases (part : Section) :
    (Blocks (document.get? part.name) ∧
      ∃ v, sectionMembers document part = .error (.unreadable v)) ∨
    ¬Blocks (document.get? part.name) ∧ ∃ members, sectionMembers document part = .ok members := by
  rw [sectionMembers]
  cases hget : document.get? part.name with
  | none =>
    refine .inr ⟨?_, [], rfl⟩
    rintro ⟨_, h, -⟩
    cases h
  | some v =>
    by_cases hmapping : v.IsMapping
    · obtain ⟨members, rfl⟩ := hmapping
      refine .inr ⟨?_, members, rfl⟩
      rintro ⟨_, h, hv, -⟩
      exact hv ⟨members, (Option.some.inj h).symm⟩
    · cases hvoid : v.isVoid with
      | true =>
        refine .inr ⟨?_, [], ?_⟩
        · rintro ⟨u, h, -, hu⟩
          obtain rfl := Option.some.inj h
          exact Bool.false_ne_true (hu.symm.trans hvoid)
        · cases v <;> simp_all [Value.IsMapping]
      | false =>
        refine .inl ⟨⟨v, rfl, hmapping, hvoid⟩, v, ?_⟩
        cases v <;> simp_all [Value.IsMapping]

theorem told_validate (s : Settings) : LoadFault.Told (s.validate.mapError .invalid) := by
  cases s.validate with
  | ok p => exact .inl ⟨p, rfl⟩
  | error cause => exact .inr ⟨cause, rfl⟩

/-- Reading a document ends with preferences or with something invalid, unless a section is
blocked. -/
theorem told_ofDocument_iff : LoadFault.Told (Preferences.ofDocument document) ↔
    ¬(Blocks (document.get? Section.indent.name) ∨ Blocks (document.get? Section.display.name)) := by
  have hbroken {v : Value} {x : Except LoadFault Preferences} (h : x = .error (.unreadable v)) :
      ¬LoadFault.Told x := by
    rintro (⟨p, hp⟩ | ⟨cause, hcause⟩)
    · cases h.symm.trans hp
    · cases h.symm.trans hcause
  rw [Preferences.ofDocument, Settings.ofDocument]
  obtain ⟨hblocks, v, hv⟩ | ⟨hindent, members, hmembers⟩ :=
    @sectionMembers_cases document .indent
  · exact iff_of_false (hbroken (by rw [hv]; rfl)) (not_not.2 (.inl hblocks))
  obtain ⟨hblocks, v, hv⟩ | ⟨hdisplay, shown, hshown⟩ :=
    @sectionMembers_cases document .display
  · exact iff_of_false (hbroken (by rw [hmembers, hv]; rfl)) (not_not.2 (.inr hblocks))
  · rw [hmembers, hshown]
    exact iff_of_true (told_validate _) (not_or.2 ⟨hindent, hdisplay⟩)

theorem Preferences.ofDocument_valid {p : Preferences}
    (h : Preferences.ofDocument document = .ok p) : p.settings.validate = .ok p := by
  obtain ⟨s, -, hs⟩ := bind_eq_ok.1 h
  cases hvalid : s.validate with
  | error cause => rw [hvalid] at hs; cases hs
  | ok q =>
    rw [hvalid] at hs
    obtain rfl := Except.ok.inj hs
    obtain ⟨-, hsize, hlevels⟩ := Settings.validate_eq_ok_iff.1 hvalid
    exact Settings.validate_settings hsize hlevels

end Reading

/-! ## loading -/

theorem sectionOf_settingVariables : ∀ given ∈ settingVariables, given.2.sectionOf = .indent := by
  decide

section Loading

variable {c : ConfigSources} {w : Workspace} {user project : Layer}

/-- Loading breaks off where the section of indentation cannot take the variables. -/
theorem ConfigSources.load_blocked (huser : c.layer w c.userFile = .ok user)
    (hproject : c.layer w c.projectFile = .ok project) {v : Value}
    (h : (Value.merge user.members project.members).get? Section.indent.name = some v)
    (hv : ¬v.IsMapping) :
    match settingVariables.find? fun given => (c.environment.given? given.1).isSome with
    | none => (c.load w).result =
        Preferences.ofDocument (Value.merge user.members project.members)
    | some given =>
      (Spelt c.environment given → ¬LoadFault.Told (c.load w).result) ∧
      (¬Spelt c.environment given → LoadFault.Told (c.load w).result) := by
  have hstored := foldlM_overlay_blocked (e := c.environment) sectionOf_settingVariables h hv
  rw [result_load huser hproject]
  cases hfirst : settingVariables.find? fun given => (c.environment.given? given.1).isSome with
  | none =>
    rw [hfirst] at hstored
    simp only at hstored
    rw [hstored]
    rfl
  | some given =>
    rw [hfirst] at hstored
    obtain ⟨hspelt, hwrong⟩ := hstored
    refine ⟨fun h => ?_, fun h => ?_⟩
    · rw [hspelt h]
      rintro (⟨p, hp⟩ | ⟨cause, hcause⟩)
      · cases hp
      · cases hcause
    · obtain ⟨cause, hcause⟩ := hwrong h
      exact .inr ⟨cause, by rw [hcause]; rfl⟩

/-- A section of indentation that is no mapping ends loading, unless the first variable that is
given is invalid, or none is given and the section stands for nothing. -/
theorem ConfigSources.told_blocked (huser : c.layer w c.userFile = .ok user)
    (hproject : c.layer w c.projectFile = .ok project) (hkeyed : project.members.Keyed) {v : Value}
    (h : content? project.members user.members .indent = some v) (hv : ¬v.IsMapping) :
    LoadFault.Told (c.load w).result ↔
      ¬Obstructed c.environment project.members user.members := by
  have hindent (u : Value) :
      content? project.members user.members .indent = some u ∧ ¬u.IsMapping ↔ u = v :=
    ⟨fun ⟨hu, _⟩ => Option.mem_unique hu h, fun heq => heq ▸ ⟨h, hv⟩⟩
  have hload := load_blocked huser hproject ((get?_merge hkeyed .indent hv).2 h) hv
  simp only [Obstructed, ← and_assoc, hindent, exists_eq_left]
  cases hfirst : settingVariables.find? fun given => (c.environment.given? given.1).isSome with
  | none =>
    -- no variable is given, so that the document is read as it is
    rw [hfirst] at hload
    have hspelt : ¬c.environment.Misspells := by
      rw [Environment.misspells_iff]
      rintro ⟨given, hgiven, hwrong⟩
      refine hwrong fun text htext => ?_
      have := List.find?_eq_none.1 hfirst given hgiven
      simp [Option.mem_def.1 htext] at this
    have hblocks : Blocks (content? project.members user.members .indent) ↔ v.isVoid = false := by
      simp only [Blocks, ← and_assoc, hindent, exists_eq_left]
    simp only at hload
    rw [hload, told_ofDocument_iff, blocks_merge hkeyed, blocks_merge hkeyed, hblocks]
    simp [hspelt]
  | some given =>
    rw [hfirst] at hload
    by_cases hgiven : Spelt c.environment given
    · exact iff_of_false (hload.1 hgiven) (not_not.2 (.inl hgiven))
    · refine iff_of_true (hload.2 hgiven) (not_or.2 ⟨hgiven, fun ⟨hspelt, _⟩ => hspelt ?_⟩)
      exact (Environment.misspells_iff _).2 ⟨given, List.mem_of_find?_eq_some hfirst, hgiven⟩

/-- Where the section of indentation is a mapping, or not there, only the other one can end
loading, once the variables have been read. -/
theorem ConfigSources.told_free (huser : c.layer w c.userFile = .ok user)
    (hproject : c.layer w c.projectFile = .ok project) (hkeyed : project.members.Keyed)
    (h : ∀ v, content? project.members user.members .indent = some v → v.IsMapping) :
    LoadFault.Told (c.load w).result ↔
      ¬Obstructed c.environment project.members user.members := by
  have hmerged (v : Value)
      (hv : v ∈ (Value.merge user.members project.members).get? Section.indent.name) :
      v.IsMapping := not_not.1 fun hmapping => hmapping (h v ((get?_merge hkeyed .indent hmapping).1 hv))
  have hindent : ¬∃ v, content? project.members user.members .indent = some v ∧ ¬v.IsMapping ∧
      match settingVariables.find? fun given => (c.environment.given? given.1).isSome with
      | none => v.isVoid = false
      | some given => Spelt c.environment given := fun ⟨v, hv, hmapping, _⟩ => hmapping (h v hv)
  rw [result_load huser hproject, Obstructed, or_iff_right hindent]
  obtain ⟨hspelt, next, hnext, hmapping, hdisplay⟩ | ⟨hwrong, cause, hcause⟩ :=
    foldlM_overlay_indent (e := c.environment) sectionOf_settingVariables hmerged
  · have hright : ¬c.environment.Misspells := fun hmisspells => by
      obtain ⟨given, hgiven, hwrong⟩ := (Environment.misspells_iff _).1 hmisspells
      exact hwrong (hspelt given hgiven)
    have hopen : ¬Blocks (next.get? Section.indent.name) :=
      fun ⟨v, hv, hno, _⟩ => hno (hmapping v hv)
    rw [hnext]
    refine told_ofDocument_iff.trans ?_
    rw [or_iff_right hopen, hdisplay, blocks_merge hkeyed, and_iff_right hright]
  · rw [hcause]
    refine iff_of_true (.inr ⟨cause, rfl⟩) fun ⟨hspelt, _⟩ => hspelt ?_
    exact (Environment.misspells_iff _).2 hwrong

end Loading

/-! ## readers that break off -/

/-- A way to read the bytes of a file: they spell a value, or they are malformed, or reading breaks
off with an error. -/
abbrev Reader (ε : Type) := Bytes → Except ε (Option Value)

namespace ConfigSources

variable {c : ConfigSources} {w : Workspace} {ε : Type} {reader : Reader ε}

/-- What the file of a path says, if reading it does not break off. -/
def layerBy (reader : Reader ε) (w : Workspace) (path : Path) :
    Except ε (Except FileError Layer) :=
  match w.has path with
  | .error e => .ok (.error e)
  | .ok false => .ok (.ok {})
  | .ok true =>
    match w.read path with
    | .error _ => .ok (.ok (.ofFile path none))
    | .ok bytes => (reader bytes).map fun content => .ok (.ofFile path content)

/-- Load preferences with a reader that may break off. -/
def loadBy (reader : Reader ε) (c : ConfigSources) (w : Workspace) : Except ε Loading := do
  match ← layerBy reader w c.userFile with
  | .error e => return ⟨[], .error (.file e)⟩
  | .ok user =>
    match ← layerBy reader w c.projectFile with
    | .error e => return ⟨user.notices, .error (.file e)⟩
    | .ok project => return .ofLayers c.environment user project

/-- Reading the file of a path breaks off with an error. -/
def BreaksAt (reader : Reader ε) (w : Workspace) (path : Path) (e : ε) : Prop :=
  ∃ bytes, w.read path = .ok bytes ∧ reader bytes = .error e

/-- The reader reads as that of the sources, where it does not break off. -/
def ReadsAs (c : ConfigSources) (reader : Reader ε) : Prop :=
  ∀ bytes content, reader bytes = .ok content → content = c.reader bytes

/-- A file that is read is there. -/
theorem has_of_read {path : Path} {bytes : Bytes} (h : w.read path = .ok bytes) :
    w.has path = .ok true := by
  rw [Workspace.read] at h
  rw [Workspace.has, Workspace.find?]
  cases hfind : w.find path with
  | error trouble => rw [hfind] at h; cases h
  | ok content => rfl

/-- Reading the file of a path breaks off, or comes to what the file says. -/
theorem layerBy_cases (h : c.ReadsAs reader) (path : Path) :
    (∃ e, BreaksAt reader w path e ∧ layerBy reader w path = .error e) ∨
    (∀ e, ¬BreaksAt reader w path e) ∧ layerBy reader w path = .ok (c.layer w path) := by
  cases hread : w.read path with
  | error trouble =>
    refine .inr ⟨fun e ⟨_, hbytes, _⟩ => (by cases hread.symm.trans hbytes), ?_⟩
    rw [layerBy, layer]
    rcases w.has path with _ | there
    · rfl
    · cases there with
      | false => rfl
      | true => rw [hread]; rfl
  | ok bytes =>
    rw [layerBy, layer, has_of_read hread, hread]
    cases hbytes : reader bytes with
    | error e => exact .inl ⟨e, ⟨bytes, hread, hbytes⟩, by simp only [hbytes]; rfl⟩
    | ok content =>
      refine .inr ⟨fun e ⟨_, hother, hbroken⟩ => ?_, ?_⟩
      · obtain rfl := Except.ok.inj (hread.symm.trans hother)
        cases hbytes.symm.trans hbroken
      · simp only [hbytes, h bytes content hbytes]
        rfl

/-- Loading breaks off with the first of the two files with which the reader does, and is as usual
where the reader breaks off with neither. -/
theorem loadBy_cases (h : c.ReadsAs reader) {there : Bool} (huser : w.has c.userFile = .ok there) :
    (∃ e, (BreaksAt reader w c.userFile e ∨
        (∀ e, ¬BreaksAt reader w c.userFile e) ∧ BreaksAt reader w c.projectFile e) ∧
      loadBy reader c w = .error e) ∨
    (∀ e, ¬BreaksAt reader w c.userFile e ∧ ¬BreaksAt reader w c.projectFile e) ∧
      loadBy reader c w = .ok (c.load w) := by
  obtain ⟨user, huser, -⟩ := c.exists_layer huser
  obtain ⟨e, hbreaks, hlayer⟩ | ⟨hreads, hlayer⟩ := layerBy_cases (w := w) h c.userFile
  · refine .inl ⟨e, .inl hbreaks, ?_⟩
    rw [loadBy, hlayer]
    rfl
  obtain ⟨e, hbreaks, hlayer'⟩ | ⟨hreads', hlayer'⟩ := layerBy_cases (w := w) h c.projectFile
  · refine .inl ⟨e, .inr ⟨hreads, hbreaks⟩, ?_⟩
    rw [loadBy, hlayer, huser, hlayer']
    rfl
  · refine .inr ⟨fun e => ⟨hreads e, hreads' e⟩, ?_⟩
    rw [loadBy, load, hlayer, huser, hlayer']
    cases c.layer w c.projectFile <;> rfl

/-- A reader that breaks off for a byte with which no character begins. -/
def strictReader : Reader String := fun bytes =>
  if bytes.contains 0xFF then .error "invalid start byte" else .ok none

/-- The file of a project holds this byte. -/
def garbledWorkspace : Workspace where
  contents := [(["project", ".esindent", "config.yaml"], .file #[0xFF])]

example : (loadBy strictReader (sourcesIn []) garbledWorkspace).toOption.isNone = true := by
  decide +kernel

end ConfigSources

section Loading

variable {c : ConfigSources} {w : Workspace} {user project : Layer}

/-- A command ends with a line about what is invalid, and breaks off where loading does. -/
theorem Surroundings.runCommand_of_error {s : Surroundings} {path : Path} (command : Command)
    {fault : LoadFault} (h : ((s.session path).sources.load s.workspace).result = .error fault) :
    (∀ cause, fault = .invalid cause → ∃ o, s.runCommand path command = .ok o ∧ o.exit = 2 ∧
      o.err = printedLine s.encoding s!"Error: {cause.message}") ∧
    ((∀ cause, fault ≠ .invalid cause) →
      s.runCommand path command = .error (.config (.load fault))) := by
  simp only [runCommand, h]
  refine ⟨?_, fun hfault => ?_⟩
  · rintro cause rfl
    exact ⟨_, rfl, rfl, rfl⟩
  · cases fault with
    | invalid cause => exact absurd rfl (hfault cause)
    | _ => rfl

/-- Loading ends with preferences that are valid or with something invalid if and only if nothing
obstructs it: neither a section that is to be read nor one in which a variable is to be stored
is anything but a mapping.  What is invalid ends a command with a line that tells it and exit
code 2, and what obstructs loading breaks the command off.

With a reader that breaks off for some bytes, loading breaks off with the first file that holds
such bytes, and is the same otherwise. -/
theorem ConfigSources.load_ends_iff {there stands : Bool} (huser : w.has c.userFile = .ok there)
    (hproject : w.has c.projectFile = .ok stands) (hkeyed : (c.members w c.projectFile).Keyed) :
    (∀ p, (c.load w).result = .ok p → p.settings.validate = .ok p) ∧
    (LoadFault.Told (c.load w).result ↔
      ¬Obstructed c.environment (c.members w c.projectFile) (c.members w c.userFile)) ∧
    (∀ (s : Surroundings) (path : Path) (command : Command),
      (s.session path).sources = c → s.workspace = w →
      (∀ cause, (c.load w).result = .error (.invalid cause) →
        ∃ o, s.runCommand path command = .ok o ∧ o.exit = 2 ∧
          o.err = printedLine s.encoding s!"Error: {cause.message}") ∧
      (Obstructed c.environment (c.members w c.projectFile) (c.members w c.userFile) →
        ∃ fault, s.runCommand path command = .error (.config (.load fault)))) ∧
    ∀ (ε : Type) (reader : Reader ε), c.ReadsAs reader →
      (∃ e, (BreaksAt reader w c.userFile e ∨
          (∀ e, ¬BreaksAt reader w c.userFile e) ∧ BreaksAt reader w c.projectFile e) ∧
        loadBy reader c w = .error e) ∨
      (∀ e, ¬BreaksAt reader w c.userFile e ∧ ¬BreaksAt reader w c.projectFile e) ∧
        loadBy reader c w = .ok (c.load w) := by
  have hbroken (ε : Type) (reader : Reader ε) (h : c.ReadsAs reader) := loadBy_cases h huser
  obtain ⟨user, huser, huserMembers⟩ := c.exists_layer huser
  obtain ⟨project, hproject, hprojectMembers⟩ := c.exists_layer hproject
  rw [← huserMembers, ← hprojectMembers]
  rw [← hprojectMembers] at hkeyed
  have htold : LoadFault.Told (c.load w).result ↔
      ¬Obstructed c.environment project.members user.members := by
    by_cases hmapping : ∀ v, content? project.members user.members .indent = some v → v.IsMapping
    · exact told_free huser hproject hkeyed hmapping
    · simp only [not_forall] at hmapping
      obtain ⟨v, hv, hno⟩ := hmapping
      exact told_blocked huser hproject hkeyed hv hno
  refine ⟨fun p hp => ?_, htold, ?_, hbroken⟩
  · rw [result_load huser hproject] at hp
    obtain ⟨document, -, hdocument⟩ := bind_eq_ok.1 hp
    exact Preferences.ofDocument_valid hdocument
  · rintro s path command rfl rfl
    refine ⟨fun cause hcause => ?_, fun hobstructed => ?_⟩
    · exact (s.runCommand_of_error command hcause).1 cause rfl
    · have hbroken : ¬LoadFault.Told ((s.session path).sources.load s.workspace).result :=
        fun h => htold.1 h hobstructed
      cases hresult : ((s.session path).sources.load s.workspace).result with
      | ok p => exact absurd (.inl ⟨p, hresult⟩) hbroken
      | error fault =>
        refine ⟨fault, (s.runCommand_of_error command hresult).2 ?_⟩
        rintro cause rfl
        exact hbroken (.inr ⟨cause, hresult⟩)

end Loading

/-- A project with a file, and a user without one. -/
def projectWorkspace (text : String) : Workspace where
  contents := [(["project", ".esindent", "config.yaml"], .file (Utf8.encode text))]

/-- The environment asks for four columns. -/
def wideEnvironment : Environment := [("ESINDENT_INDENT_SIZE", "4")]

/-- A section that holds nothing cannot take the size that the environment gives. -/
theorem not_told_empty_section :
    ¬LoadFault.Told ((sourcesIn wideEnvironment).load (projectWorkspace "indent:\n")).result := by
  have hmembers : (sourcesIn wideEnvironment).members (projectWorkspace "indent:\n")
      (sourcesIn wideEnvironment).projectFile = [("indent", .null)] :=
    @members_of_text _ _ _ "indent:\n" _ rfl (by decide +kernel) rfl
  have hkeyed : ((sourcesIn wideEnvironment).members (projectWorkspace "indent:\n")
      (sourcesIn wideEnvironment).projectFile).Keyed := by
    rw [hmembers]
    simp [Dictionary.Keyed]
  obtain ⟨-, htold, -, -⟩ := @ConfigSources.load_ends_iff (sourcesIn wideEnvironment)
    (projectWorkspace "indent:\n") false true rfl rfl hkeyed
  rw [htold, hmembers, not_not]
  have hmapping : ¬Value.null.IsMapping := by
    rintro ⟨_, h⟩
    cases h
  refine .inl ⟨.null, rfl, hmapping, ?_⟩
  have hspelt : Spelt wideEnvironment ("ESINDENT_INDENT_SIZE", .indentSize) := by
    rintro text htext
    obtain rfl : "4" = text := Option.some.inj htext
    exact ⟨.int 4, rfl⟩
  exact hspelt

/-- A number in the place of a section is neither read nor found to be invalid. -/
theorem load_number_section :
    ((sourcesIn []).load (projectWorkspace "indent: 5\n")).result =
        .error (.unreadable (.int 5)) ∧
      ¬LoadFault.Told ((sourcesIn []).load (projectWorkspace "indent: 5\n")).result := by
  have hmembers : (sourcesIn []).members (projectWorkspace "indent: 5\n")
      (sourcesIn []).projectFile = [("indent", .int 5)] :=
    @members_of_text _ _ _ "indent: 5\n" _ rfl (by decide +kernel) rfl
  obtain ⟨user, huser, hnone⟩ := @ConfigSources.exists_layer (sourcesIn [])
    (projectWorkspace "indent: 5\n") (sourcesIn []).userFile false rfl
  obtain ⟨project, hproject, hsome⟩ := @ConfigSources.exists_layer (sourcesIn [])
    (projectWorkspace "indent: 5\n") (sourcesIn []).projectFile true rfl
  have hresult := ConfigSources.result_load huser hproject
  rw [hnone, hsome, hmembers] at hresult
  rw [hresult]
  refine ⟨rfl, ?_⟩
  rintro (⟨p, hp⟩ | ⟨cause, hcause⟩)
  · cases hp
  · cases hcause

end ScriptIndent
