import ScriptIndent.Proofs.Config.Failure
import ScriptIndent.Proofs.Config.Faults
import ScriptIndent.Proofs.Text.Numeral

/-!
# ScriptIndent.Proofs.Config.RoundTrip

Setting and getting by way of the file of the project.

```
set indent.switch_case " 00 "     writes all six settings, `switch_case: 0` among them
get indent.switch_case            "0", in this session and in any later one
set indent.switch_case "0"        writes the same six settings again
```

The file that is written says all settings, and it goes before that of the user, so that nothing
else is found in any later session (`ConfigSources.load_of_read`).  What is told of a setting spells
its value (`Setting.ofText_shown`), and where a file has been written it can be written again
(`Workspace.writeIn_again`).
-/

namespace ScriptIndent

/-! ## the text of a setting -/

/-- How a value of a setting is told. -/
def Value.shown : Value → String
  | .bool b => Document.flagText b
  | v => v.text

/-- The text by which what a text spells for a setting is told. -/
def Setting.canonical? (setting : Setting) (text : String) : Option String :=
  match setting.kind with
  | .number => (Text.integer? text).map toString
  | .flag => some (Document.flagText (raised.contains (Text.lowercase text)))
  | .word => some text

theorem Setting.canonical?_eq {setting : Setting} {text : String} {value : Value}
    (h : setting.ofText text = .ok value) : setting.canonical? text = some value.shown := by
  rw [ofText] at h
  rw [canonical?]
  cases hkind : setting.kind with
  | number =>
    rw [hkind] at h
    cases hnumber : Text.integer? text with
    | none => simp only [hnumber] at h; cases h
    | some i =>
      simp only [hnumber] at h
      obtain rfl := Except.ok.inj h
      rfl
  | flag | word =>
    rw [hkind] at h
    obtain rfl := Except.ok.inj h
    rfl

theorem Preferences.textOf?_eq {key : String} {setting : Setting}
    (h : Setting.ofKey key = .ok setting) (p : Preferences) :
    p.textOf? key = some (p.settings setting).shown := by
  rw [textOf?, h]
  rfl

/-- Numbers that are not too long to be read as texts. -/
structure Preferences.Spellable (p : Preferences) : Prop where
  size : (Nat.toDigits 10 p.style.size.natAbs).length ≤ Text.maxDigits
  caseLevels : (Nat.toDigits 10 p.style.caseLevels.natAbs).length ≤ Text.maxDigits

/-- What is told of a setting spells its value. -/
theorem Setting.ofText_shown {p : Preferences} (h : p.Spellable) (setting : Setting) :
    setting.ofText (p.settings setting).shown = .ok (p.settings setting) := by
  have hnumber {number : Setting} {i : Int} (hkind : number.kind = .number)
      (hi : (Nat.toDigits 10 i.natAbs).length ≤ Text.maxDigits) :
      number.ofText (Value.int i).shown = .ok (.int i) := by
    have hread : Text.integer? (Value.int i).shown = some i := Text.integer?_toString hi
    simp only [ofText, hkind, hread]
  cases setting with
  | indentSize => exact hnumber rfl h.size
  | switchCase => exact hnumber rfl h.caseLevels
  | indentScript =>
    have hflag (b : Bool) : raised.contains (Text.lowercase (Document.flagText b)) = b := by
      cases b <;> decide +kernel
    exact congrArg (fun b => Except.ok (Value.bool b)) (hflag p.style.indentScript)
  | indentType | symbols | format => rfl

theorem Preferences.change_shown {p : Preferences} (h : p.Spellable)
    (hvalid : p.settings.validate = .ok p) {key : String} {setting : Setting}
    (hkey : Setting.ofKey key = .ok setting) :
    p.change key (p.settings setting).shown = .ok p := by
  have hsame : p.settings.put setting (p.settings setting) = p.settings := by
    funext other
    rw [Settings.put]
    split_ifs with heq
    · rw [heq]
    · rfl
  simp only [change, hkey, Except.mapError, bind, Except.bind, Setting.ofText_shown h, hsame,
    hvalid]

/-- What a change sets a setting to is what the text spells. -/
theorem Preferences.ofText_of_change {p q : Preferences} {key text : String} {setting : Setting}
    (hkey : Setting.ofKey key = .ok setting) (h : p.change key text = .ok q) :
    setting.ofText text = .ok (q.settings setting) := by
  simp only [change, hkey, Except.mapError, bind, Except.bind] at h
  cases hvalue : setting.ofText text with
  | error cause => rw [hvalue] at h; cases h
  | ok value =>
    rw [hvalue] at h
    simp only at h
    cases hvalid : (p.settings.put setting value).validate with
    | error cause => rw [hvalid] at h; cases h
    | ok r =>
      rw [hvalid] at h
      obtain rfl := Except.ok.inj h
      rw [← (Settings.validate_eq_ok_iff.1 hvalid).1, Settings.put, if_pos rfl]

/-! ## loading what has been written -/

section Merge

variable {user project : Dictionary Value}

theorem exists_members_of_said {document : Dictionary Value} {setting : Setting} {v : Value}
    (h : said? document setting = some v) : ∃ members,
      document.get? setting.sectionOf.name = some (.mapping members) ∧
        Dictionary.get? members setting.name = some v := by
  rw [said?] at h
  split at h
  · next members hmembers => exact ⟨members, hmembers, h⟩
  · cases h

/-- What the newer of two files says about a setting counts, unless it is a mapping. -/
theorem said?_merge_of_said (hproject : Sectioned project) {setting : Setting} {v : Value}
    (h : said? project setting = some v) (hv : ¬v.IsMapping) :
    said? (Value.merge user project) setting = some v := by
  obtain ⟨members, hmembers, hsaid⟩ := exists_members_of_said h
  rw [said?, Value.merge, Value.get?_mergeMembers hproject.keyed, hmembers, Option.map_some,
    Option.some_or]
  cases user.get? setting.sectionOf.name with
  | none => exact hsaid
  | some old =>
    cases old with
    | mapping base =>
      have hkeyed := hproject.members_keyed _ _ hmembers
      simp only [Value.laidOver]
      rw [Value.get?_mergeMembers hkeyed, hsaid, Option.map_some, Option.some_or,
        Value.laidOver_of_not_mapping hv]
    | _ => exact hsaid

/-- If the newer of two files has all sections, then they are mappings, whatever the older file
has in their places. -/
theorem hasSections_merge_of_said (hproject : Sectioned project)
    (h : ∀ setting, (said? project setting).isSome) : HasSections (Value.merge user project) := by
  intro part v hv
  obtain ⟨setting, rfl⟩ : ∃ setting : Setting, setting.sectionOf = part := by
    cases part with
    | indent => exact ⟨.indentSize, rfl⟩
    | display => exact ⟨.symbols, rfl⟩
  obtain ⟨value, hvalue⟩ := Option.isSome_iff_exists.1 (h setting)
  obtain ⟨members, hmembers, -⟩ := exists_members_of_said hvalue
  rw [Option.mem_def, Value.merge, Value.get?_mergeMembers hproject.keyed, hmembers] at hv
  obtain rfl := Option.some.inj hv
  obtain heq | ⟨-, hmapping⟩ :=
    Value.laidOver_cases (user.get? setting.sectionOf.name) (.mapping members)
  · exact ⟨members, heq⟩
  · exact hmapping

end Merge

/-- The values of preferences are numbers, flags and words. -/
theorem Preferences.settings_not_mapping (p : Preferences) (setting : Setting) :
    ¬(p.settings setting).IsMapping := by
  rintro ⟨members, h⟩
  cases setting <;> cases h

section Loading

variable {c : ConfigSources} {w : Workspace} {q : Preferences}

/-- Where the environment says nothing, preferences that the file of the project holds are loaded,
whatever the file of the user holds. -/
theorem ConfigSources.load_of_read (hsilent : ∀ setting, c.environment.text? setting = none)
    (hreads : ReadsBack c.reader c.writer q) (hvalid : q.settings.validate = .ok q) {there : Bool}
    (huser : w.has c.userFile = .ok there)
    (hread : (w.read c.projectFile).toOption =
      some (c.writer q)) : (c.load w).result = .ok q := by
  obtain ⟨found, hfound, hsectioned, hsaid⟩ := hreads
  obtain ⟨place, hplace, hcontent⟩ := Workspace.toOption_read_eq_some_iff.1 hread
  obtain ⟨stands, hstands⟩ : ∃ stands, w.has c.projectFile = .ok stands :=
    Workspace.exists_has_iff.2 fun trouble htrouble => by cases hplace.symm.trans htrouble
  obtain ⟨user, huser, -⟩ := c.exists_layer huser
  obtain ⟨project, hproject, hmembers⟩ := c.exists_layer hstands
  have heq : project.members = found := by
    rw [hmembers, members, hread, Option.bind_some, hfound]
  have hspelt : ¬c.environment.Misspells := by
    rintro ⟨setting, text, -, htext, -⟩
    cases (hsilent setting).symm.trans htext
  have hsections : HasSections (Value.merge user.members project.members) := by
    rw [heq]
    exact hasSections_merge_of_said hsectioned fun setting => by rw [hsaid]; rfl
  have hsettings (setting : Setting) : ((c.environment.said? setting).or
      (said? (Value.merge user.members project.members) setting)).getD
        (Settings.initial setting) = q.settings setting := by
    have hnone : c.environment.said? setting = none := by
      rw [Environment.said?, hsilent]
      rfl
    rw [hnone, heq, said?_merge_of_said hsectioned (hsaid setting) (q.settings_not_mapping setting)]
    rfl
  rw [load_eq huser hproject hsections hspelt, funext hsettings, hvalid]
  rfl

end Loading

/-! ## sessions -/

namespace ConfigSession

variable {x y : ConfigSession} {key text : String} {scope : Scope}

/-- A change ends well if preferences are loaded, take the change, and are saved. -/
theorem set_eq_ok_iff : x.set key text scope = (.ok none, y) ↔
    ∃ p q, x.load.1 = .ok p ∧ p.change key text = .ok q ∧ x.load.2.save scope q = (none, y) := by
  rw [set]
  rcases x.load with ⟨_ | p, z⟩
  · refine ⟨fun h => (by cases h), ?_⟩
    rintro ⟨_, _, h, -⟩
    cases h
  · dsimp only
    cases hchange : p.change key text with
    | error refusal =>
      refine ⟨fun h => (by cases h), ?_⟩
      rintro ⟨_, _, hp, hq, -⟩
      obtain rfl := Except.ok.inj hp
      cases hchange.symm.trans hq
    | ok q =>
      dsimp only
      constructor
      · intro h
        rcases hsave : z.save scope q with ⟨_ | error, saved⟩
        · rw [hsave] at h
          obtain ⟨-, rfl⟩ := Prod.mk.inj h
          exact ⟨p, q, rfl, hchange, hsave⟩
        · rw [hsave] at h
          cases h
      · rintro ⟨_, _, hp, hq, hsave⟩
        obtain rfl := Except.ok.inj hp
        obtain rfl := Except.ok.inj (hchange.symm.trans hq)
        rw [hsave]

theorem sources_load (x : ConfigSession) : x.load.2.sources = x.sources := by
  cases h : x.loaded with
  | some p => rw [load_of_loaded h]
  | none => rw [load_of_not_loaded h]

private theorem snd_get (x : ConfigSession) (other : String) : (x.get other).2 = x.load.2 := by
  rw [get]
  obtain ⟨result, z⟩ := x.load
  cases result <;> rfl

/-- What is saved is held in the session, and written to a file of the workspace. -/
theorem save_eq (x : ConfigSession) (scope : Scope) (q : Preferences) :
    x.save scope q =
      ((x.workspace.writeIn (x.sources.directoryOf scope) ConfigSources.fileName
          (x.sources.writer q)).error,
        { x with
          loaded := some q
          workspace := (x.workspace.writeIn (x.sources.directoryOf scope) ConfigSources.fileName
            (x.sources.writer q)).workspace }) :=
  save_eq_saveBy x scope q

/-- A session in which nothing has been loaded. -/
def fresh (c : ConfigSources) (w : Workspace) : ConfigSession where
  sources := c
  workspace := w

theorem load_fresh (c : ConfigSources) (w : Workspace) : (fresh c w).load.1 = (c.load w).result :=
  rfl

end ConfigSession

section Written

variable {c : ConfigSources} {w : Workspace} {q : Preferences}

/-- Preferences that have been written in the file of the project are loaded afterwards. -/
theorem ConfigSources.load_writeIn (hsilent : ∀ setting, c.environment.text? setting = none)
    (hshort : ∀ name ∈ c.userFile.names, name.utf8ByteSize ≤ Workspace.nameLimit)
    (hreads : ReadsBack c.reader c.writer q) (hvalid : q.settings.validate = .ok q) {there : Bool}
    (hthere : w.has c.userFile = .ok there)
    (h : (w.writeIn c.projectDirectory fileName
      (c.writer q)).error = none) :
    (c.load (w.writeIn c.projectDirectory fileName
      (c.writer q)).workspace).result = .ok q := by
  obtain ⟨place, hwritten, hplace⟩ := Workspace.writeIn_written h
  obtain ⟨stands, hstands⟩ := Workspace.exists_has hshort hthere _
  exact load_of_read hsilent hreads hvalid hstands
    (Workspace.toOption_read_eq_some_iff.2 ⟨place, hplace, hwritten.written⟩)

end Written

/-- What is told of a setting in a session with loaded preferences. -/
theorem ConfigSession.get_told {v : ConfigSession} {q : Preferences} (hv : v.load.1 = .ok q)
    {known : String} {other : Setting} (hknown : Setting.ofKey known = .ok other) :
    (v.get known).1 = .ok (some (q.settings other).shown) := by
  rw [get_eq, hv]
  exact congrArg Except.ok (q.textOf?_eq hknown)

/-- To set a setting to what is told of it writes the same preferences again. -/
theorem ConfigSession.set_told {v : ConfigSession} {q : Preferences} (hv : v.load.1 = .ok q)
    (hspellable : q.Spellable) (hvalid : q.settings.validate = .ok q) {known : String}
    {other : Setting} (hknown : Setting.ofKey known = .ok other)
    (herror : (v.workspace.writeIn v.sources.projectDirectory ConfigSources.fileName
      (v.sources.writer q)).error = none) :
    ∃ z, (v.get known).2.set known (q.settings other).shown .project = (.ok none, z) ∧
      z.loaded = some q ∧
      z.workspace = (v.workspace.writeIn v.sources.projectDirectory ConfigSources.fileName
        (v.sources.writer q)).workspace := by
  refine ⟨(v.load.2.load.2.save .project q).2, ?_, ?_, ?_⟩
  · rw [snd_get]
    refine set_eq_ok_iff.2 ⟨q, q, (load_load v).trans hv,
      Preferences.change_shown hspellable hvalid hknown, ?_⟩
    rw [save_eq, workspace_load, workspace_load, sources_load, sources_load]
    exact Prod.ext herror rfl
  · rw [save_eq]
  · rw [save_eq, workspace_load, workspace_load, sources_load, sources_load]
    rfl

/-- A change of a setting that is written to the file of the project is found in every later
session, with all other settings as they were before, if the environment says nothing.  What is told
of the setting is the text of the value that was set; and to set any setting to what is told of it
succeeds and changes none.

A name on the way to the file of the user that is too long for a file system would be no trouble as
long as the directories before it are missing, and one of them may be made for the project.  Numbers
that are not read as texts are not asked for. -/
theorem ConfigSession.set_get {x y : ConfigSession} {key text : String}
    (hfresh : x.loaded = none)
    (hsilent : ∀ setting, x.sources.environment.text? setting = none)
    (hshort : ∀ name ∈ x.sources.userFile.names, name.utf8ByteSize ≤ Workspace.nameLimit)
    (hset : x.set key text .project = (.ok none, y))
    (hreads : ∀ q, y.loaded = some q → ReadsBack x.sources.reader x.sources.writer q) :
    ∃ setting p q told, Setting.ofKey key = .ok setting ∧
      (x.sources.load x.workspace).result = .ok p ∧ y.loaded = some q ∧
      (∀ other, other ≠ setting → q.settings other = p.settings other) ∧
      (fresh x.sources y.workspace).load.1 = .ok q ∧
      setting.canonical? text = some told ∧
      ((fresh x.sources y.workspace).get key).1 = .ok (some told) ∧
      (q.Spellable → ∀ v : ConfigSession, v.sources = x.sources → v.workspace = y.workspace →
        v.loaded = none ∨ v.loaded = some q → ∀ known other, Setting.ofKey known = .ok other →
          ∃ spelt z, (v.get known).1 = .ok (some spelt) ∧
            (v.get known).2.set known spelt .project = (.ok none, z) ∧
            z.loaded = some q ∧ (fresh x.sources z.workspace).load.1 = .ok q) := by
  obtain ⟨p, q, hp, hchange, hsave⟩ := set_eq_ok_iff.1 hset
  rw [save_eq, workspace_load, sources_load] at hsave
  obtain ⟨herror, rfl⟩ := Prod.mk.inj hsave
  have hload : (x.sources.load x.workspace).result = .ok p := by
    rw [load_of_not_loaded hfresh] at hp
    exact hp
  obtain ⟨⟨there, hthere⟩, -⟩ := ConfigSources.exists_has_of_load hload
  obtain ⟨setting, value, hkey, hsettings, hvalid⟩ := Preferences.change_eq_ok hchange
  have hlater {w : Workspace} (hw : ∃ there, w.has x.sources.userFile = .ok there)
      (herror : (w.writeIn x.sources.projectDirectory ConfigSources.fileName
        (x.sources.writer q)).error = none) :
      (fresh x.sources (w.writeIn x.sources.projectDirectory ConfigSources.fileName
        (x.sources.writer q)).workspace).load.1 = .ok q := by
    obtain ⟨there, hthere⟩ := hw
    exact ConfigSources.load_writeIn hsilent hshort (hreads q rfl) hvalid hthere herror
  have hagain := hlater ⟨there, hthere⟩ herror
  refine ⟨setting, p, q, _, hkey, hload, rfl, fun other hother => ?_, hagain,
    Setting.canonical?_eq (Preferences.ofText_of_change hkey hchange), get_told hagain hkey,
    fun hspellable v hsources hplace hloaded known other hknown => ?_⟩
  · rw [hsettings, Settings.put, if_neg hother]
  · have hv : v.load.1 = .ok q := by
      obtain hnone | hsome := hloaded
      · rw [load_of_not_loaded hnone, hsources, hplace]
        exact hagain
      · rw [load_of_loaded hsome]
    have hrewrite := Workspace.writeIn_again (by decide) (by decide) herror
      (x.sources.writer q)
    obtain ⟨z, hz, hsame, hwritten⟩ := set_told hv hspellable hvalid hknown (by
      rw [hsources, hplace]
      exact hrewrite)
    refine ⟨_, z, get_told hv hknown, hz, hsame, ?_⟩
    rw [hwritten, hsources, hplace]
    exact hlater (Workspace.exists_has hshort hthere _) hrewrite

/-- The file of a project asks for eight columns. -/
def widenedSession : ConfigSession :=
  .fresh (sourcesIn []) (projectWorkspace "indent:\n  indent_size: 8\n")

theorem members_widenedSession :
    (sourcesIn []).members (projectWorkspace "indent:\n  indent_size: 8\n")
      (sourcesIn []).projectFile = [("indent", .mapping [("indent_size", .int 8)])] :=
  @members_of_text _ _ _ "indent:\n  indent_size: 8\n" _ rfl (by decide +kernel) rfl

private theorem load_widenedSession :
    ((sourcesIn []).load (projectWorkspace "indent:\n  indent_size: 8\n")).result =
      .ok { style := { size := 8 } } := by
  have hnone : (sourcesIn []).members (projectWorkspace "indent:\n  indent_size: 8\n")
      (sourcesIn []).userFile = [] := by rfl
  have husers : Sectioned ((sourcesIn []).members
      (projectWorkspace "indent:\n  indent_size: 8\n") (sourcesIn []).userFile) := by
    rw [hnone]
    exact sectioned_nil
  have hprojects : Sectioned ((sourcesIn []).members
      (projectWorkspace "indent:\n  indent_size: 8\n") (sourcesIn []).projectFile) := by
    rw [members_widenedSession]
    exact sectioned_indent (by simp [Dictionary.Keyed])
  refine (@ConfigSources.result_load_eq_ok_iff (sourcesIn [])
    (projectWorkspace "indent:\n  indent_size: 8\n") false true rfl rfl husers hprojects
    { style := { size := 8 } }).2 ⟨?_, ?_⟩
  · rintro ⟨setting, text, -, htext, -⟩
    cases setting <;> cases htext
  · rw [members_widenedSession, hnone]
    rfl

/-- The switch clauses are set flush. -/
theorem exists_set_widenedSession : ∃ y,
    widenedSession.set "indent.switch_case" " 00 " .project = (.ok none, y) ∧
      y.loaded = some wideFlush ∧ y.sources = widenedSession.sources := by
  have hload : widenedSession.load.1 = .ok { style := { size := 8 } } := by
    rw [widenedSession, ConfigSession.load_fresh, load_widenedSession]
  have hchange : Preferences.change { style := { size := 8 } } "indent.switch_case" " 00 " =
      .ok wideFlush := by rfl
  have herror : (widenedSession.workspace.writeIn widenedSession.sources.projectDirectory
      ConfigSources.fileName (widenedSession.sources.writer wideFlush)).error = none := by
    rfl
  refine ⟨(widenedSession.load.2.save .project wideFlush).2,
    ConfigSession.set_eq_ok_iff.2 ⟨_, wideFlush, hload, hchange, ?_⟩, ?_, ?_⟩
  all_goals rw [ConfigSession.save_eq]
  · rw [ConfigSession.workspace_load, ConfigSession.sources_load]
    exact Prod.ext herror rfl
  · exact ConfigSession.sources_load _

/-- Flush clauses are asked for with two zeros between spaces, and told with one; and the symbols
are set to what they are. -/
theorem set_get_widenedSession : ∃ y z,
    widenedSession.set "indent.switch_case" " 00 " .project = (.ok none, y) ∧
      ((ConfigSession.fresh (sourcesIn []) y.workspace).get "indent.switch_case").1 =
        .ok (some "0") ∧
      (y.get "display.symbols").2.set "display.symbols" "auto" .project = (.ok none, z) ∧
      (ConfigSession.fresh (sourcesIn []) z.workspace).load.1 = .ok wideFlush := by
  obtain ⟨y, hset, hloaded, hsources⟩ := exists_set_widenedSession
  have hshort : ∀ name ∈ (sourcesIn []).userFile.names,
      name.utf8ByteSize ≤ Workspace.nameLimit := by decide
  have hsilent (setting : Setting) : (sourcesIn []).environment.text? setting = none := by
    cases setting <;> rfl
  obtain ⟨setting, -, q, told, hkey, -, hq, -, -, htold, hget, hagain⟩ :=
    ConfigSession.set_get (x := widenedSession) rfl hsilent hshort hset fun q hq => by
      obtain rfl := Option.mem_unique hloaded hq
      exact readsBack_wideFlush []
  obtain rfl := Option.mem_unique hloaded hq
  obtain ⟨spelt, z, hspelt, hz, -, hlater⟩ := hagain ⟨by decide, by decide⟩ y hsources rfl
    (.inr hloaded) "display.symbols" .symbols rfl
  obtain rfl : Setting.switchCase = setting := Except.ok.inj hkey
  obtain rfl : "0" = told := Option.some.inj htold
  have hauto : (y.get "display.symbols").1 = .ok (some "auto") := by
    rw [ConfigSession.get_eq, ConfigSession.load_of_loaded hloaded]
    rfl
  obtain rfl : "auto" = spelt := Option.some.inj (Except.ok.inj (hauto.symm.trans hspelt))
  exact ⟨y, z, hset, hget, hz, hlater⟩

end ScriptIndent
