import ScriptIndent.Proofs.Config.Layers
import ScriptIndent.Proofs.Workspace.Written

/-!
# ScriptIndent.Proofs.Config.Change

What a change of a setting does to all others.

A change is written with all settings, as they are at the time in the session
(`ConfigSession.set_written`).  Whoever loads preferences afterwards, in another environment or
for another project of the same user, finds a setting as it was before or as it was in the
session, where it may have come from the environment or from another file.

* `Settings.exists_validate_of_choice` — valid settings can be mixed;
* `ConfigSources.members_written` — what a file says once a change has been written;
* `ConfigSession.set_keeps` — which settings are kept.
-/

namespace ScriptIndent

/-! ## mixed settings -/

/-- Settings each of which is that of one preferences or of another are valid, if both are. -/
theorem Settings.exists_validate_of_choice {s : Settings} {p q : Preferences}
    (hp : p.settings.validate = .ok p) (hq : q.settings.validate = .ok q)
    (h : ∀ setting, s setting = p.settings setting ∨ s setting = q.settings setting) :
    ∃ r, s.validate = .ok r := by
  obtain ⟨-, hpsize, hplevels⟩ := validate_eq_ok_iff.1 hp
  obtain ⟨-, hqsize, hqlevels⟩ := validate_eq_ok_iff.1 hq
  obtain ⟨size, hsize, hpositive⟩ : ∃ i, s .indentSize = .int i ∧ 1 ≤ i :=
    (h .indentSize).elim (fun h => ⟨_, h, hpsize⟩) fun h => ⟨_, h, hqsize⟩
  obtain ⟨unit, hunit⟩ : ∃ u : IndentUnit, s .indentType = .string u.name :=
    (h .indentType).elim (fun h => ⟨_, h⟩) fun h => ⟨_, h⟩
  obtain ⟨levels, hlevels, hnonneg⟩ : ∃ i, s .switchCase = .int i ∧ 0 ≤ i :=
    (h .switchCase).elim (fun h => ⟨_, h, hplevels⟩) fun h => ⟨_, h, hqlevels⟩
  obtain ⟨script, hscript⟩ : ∃ b, s .indentScript = .bool b :=
    (h .indentScript).elim (fun h => ⟨_, h⟩) fun h => ⟨_, h⟩
  obtain ⟨symbols, hsymbols⟩ : ∃ c : SymbolChoice, s .symbols = .string c.name :=
    (h .symbols).elim (fun h => ⟨_, h⟩) fun h => ⟨_, h⟩
  obtain ⟨format, hformat⟩ : ∃ f : ReportFormat, s .format = .string f.name :=
    (h .format).elim (fun h => ⟨_, h⟩) fun h => ⟨_, h⟩
  refine ⟨⟨⟨size, unit, levels, script⟩, symbols, format⟩,
    validate_eq_ok_iff.2 ⟨funext fun setting => ?_, hpositive, hnonneg⟩⟩
  cases setting <;> assumption

/-! ## what is written -/

/-- A reader reads back preferences that a writer writes. -/
def ReadsBack (reader : Bytes → Option Value) (writer : Preferences → Bytes) (p : Preferences) :
    Prop :=
  ∃ members, reader (writer p) = some (.mapping members) ∧
    Sectioned members ∧ ∀ setting, said? members setting = some (p.settings setting)

/-- The file of a scope. -/
def ConfigSources.fileOf (c : ConfigSources) : Scope → Path
  | .project => c.projectFile
  | .user => c.userFile

/-- The directory of the file of a scope. -/
def ConfigSources.directoryOf (c : ConfigSources) : Scope → Path
  | .project => c.projectDirectory
  | .user => c.user

theorem Preferences.change_eq_ok {p q : Preferences} {key text : String}
    (h : p.change key text = .ok q) : ∃ setting value, Setting.ofKey key = .ok setting ∧
      q.settings = p.settings.put setting value ∧ q.settings.validate = .ok q := by
  obtain ⟨setting, hsetting, h⟩ := bind_eq_ok.1 h
  obtain ⟨value, -, h⟩ := bind_eq_ok.1 h
  have hkey : Setting.ofKey key = .ok setting := by
    cases hofKey : Setting.ofKey key with
    | error cause => rw [hofKey] at hsetting; cases hsetting
    | ok found => rw [hofKey] at hsetting; exact congrArg Except.ok (Except.ok.inj hsetting)
  cases hvalid : (p.settings.put setting value).validate with
  | error cause => rw [hvalid] at h; cases h
  | ok r =>
    rw [hvalid] at h
    obtain rfl := Except.ok.inj h
    obtain ⟨heq, hrange⟩ := Settings.validate_eq_ok_iff.1 hvalid
    exact ⟨setting, value, hkey, heq.symm, Settings.validate_eq_ok_iff.2 ⟨rfl, hrange⟩⟩

/-- What has been saved is written in the file of the scope. -/
theorem ConfigSession.save_written {x y : ConfigSession} {scope : Scope} {q : Preferences}
    (h : x.save scope q = (none, y)) : ∃ place,
      Workspace.Written x.workspace y.workspace place (x.sources.writer q) ∧
        y.workspace.placeOf (x.sources.fileOf scope) = .ok place := by
  unfold save at h
  obtain ⟨herror, rfl⟩ := Prod.mk.inj h
  cases scope <;> exact Workspace.writeIn_written herror

/-- A change that is not refused loads preferences, changes one setting and writes all of them. -/
theorem ConfigSession.set_written {x y : ConfigSession} {key text : String} {scope : Scope}
    (hfresh : x.loaded = none) (h : x.set key text scope = (.ok none, y)) :
    ∃ p q place, (x.sources.load x.workspace).result = .ok p ∧ p.change key text = .ok q ∧
      Workspace.Written x.workspace y.workspace place (x.sources.writer q) ∧
      y.workspace.placeOf (x.sources.fileOf scope) = .ok place := by
  rw [set, load, hfresh] at h
  simp only at h
  cases hload : (x.sources.load x.workspace).result with
  | error fault => rw [hload] at h; cases h
  | ok p =>
    rw [hload] at h
    simp only at h
    cases hchange : p.change key text with
    | error refusal => rw [hchange] at h; cases h
    | ok q =>
      rw [hchange] at h
      dsimp only at h
      split at h
      · cases h
      · next hsave =>
        obtain ⟨-, rfl⟩ := Prod.mk.inj h
        obtain ⟨place, hwritten, hplace⟩ := save_written hsave
        exact ⟨p, q, place, rfl, hchange, hwritten, hplace⟩

/-- A change ends well if preferences are loaded, take the change, and are written. -/
theorem ConfigSession.exists_set {x : ConfigSession} {key text : String} {scope : Scope}
    {p q : Preferences} (hfresh : x.loaded = none)
    (hload : (x.sources.load x.workspace).result = .ok p) (hchange : p.change key text = .ok q)
    (herror : (x.workspace.writeIn (x.sources.directoryOf scope) ConfigSources.fileName
      (x.sources.writer q)).error = none) :
    ∃ y, x.set key text scope = (.ok none, y) ∧
      y.workspace = (x.workspace.writeIn (x.sources.directoryOf scope) ConfigSources.fileName
        (x.sources.writer q)).workspace := by
  rw [set, load, hfresh]
  dsimp only
  rw [hload]
  dsimp only
  rw [hchange]
  cases scope <;>
  · dsimp only [save, ConfigSources.directoryOf] at herror ⊢
    rw [herror]
    exact ⟨_, rfl, rfl⟩

/-! ## loading afterwards -/

section Afterwards

variable {w w' : Workspace} {place : Place} {c : ConfigSources} {writer : Preferences → Bytes}
  {q : Preferences}

/-- What a file says once preferences have been written: what is written, or what it has said
before. -/
theorem ConfigSources.members_written {path : Path} {there : Bool}
    (h : Workspace.Written w w' place (writer q))
    (hreads : ReadsBack c.reader writer q) (hpath : w.Descends path) (hthere : w.has path = .ok there) :
    (∃ stands, w'.has path = .ok stands) ∧
      ((w'.placeOf path = .ok place ∧ Sectioned (c.members w' path) ∧
          ∀ setting, said? (c.members w' path) setting = some (q.settings setting)) ∨
        w'.placeOf path ≠ .ok place ∧ c.members w' path = c.members w path) := by
  obtain ⟨hstands, ⟨hplace, hread⟩ | ⟨hplace, hread⟩⟩ := h.read_cases hpath hthere
  · refine ⟨hstands, .inl ⟨hplace, ?_⟩⟩
    obtain ⟨found, hreader, hsectioned, hsaid⟩ := hreads
    have hmembers : c.members w' path = found := by
      simp only [members, hread, Option.bind_some, hreader]
    rw [hmembers]
    exact ⟨hsectioned, hsaid⟩
  · exact ⟨hstands, .inr ⟨hplace, by rw [members, hread, members]⟩⟩

/-- A setting is found after preferences have been written as it was before, or as it was
written; and as before where the environment gives it, where a file of the project other than the
one written gives it, and where neither file is the one written. -/
theorem ConfigSources.load_written
    (h : Workspace.Written w w' place (writer q))
    (hreads : ReadsBack c.reader writer q) (hq : q.settings.validate = .ok q)
    (huser : w.Descends c.userFile) (hproject : w.Descends c.projectFile)
    (husers : Sectioned (c.members w c.userFile))
    (hprojects : Sectioned (c.members w c.projectFile)) {p : Preferences}
    (hload : (c.load w).result = .ok p) :
    ∃ r, (c.load w').result = .ok r ∧ ∀ setting,
      (r.settings setting = p.settings setting ∨ r.settings setting = q.settings setting) ∧
      ((c.environment.said? setting).isSome ∨ w'.placeOf c.projectFile ≠ .ok place ∧
          ((said? (c.members w c.projectFile) setting).isSome ∨
            w'.placeOf c.userFile ≠ .ok place) →
        r.settings setting = p.settings setting) := by
  obtain ⟨⟨there, hthere⟩, stands, hstands⟩ := exists_has_of_load hload
  obtain ⟨hspelt, hvalid⟩ := (result_load_eq_ok_iff hthere hstands husers hprojects).1 hload
  obtain ⟨hp, hrange⟩ := Settings.validate_eq_ok_iff.1 hvalid
  have hpvalid : p.settings.validate = .ok p := Settings.validate_eq_ok_iff.2 ⟨rfl, hrange⟩
  obtain ⟨⟨_, huserAfter⟩, hu⟩ := members_written h hreads huser hthere
  obtain ⟨⟨_, hprojectAfter⟩, hm⟩ := members_written h hreads hproject hstands
  have hcases (setting : Setting) :
      (layered c.environment (c.members w' c.projectFile) (c.members w' c.userFile) setting =
          p.settings setting ∨
        layered c.environment (c.members w' c.projectFile) (c.members w' c.userFile) setting =
          q.settings setting) ∧
      ((c.environment.said? setting).isSome ∨ w'.placeOf c.projectFile ≠ .ok place ∧
          ((said? (c.members w c.projectFile) setting).isSome ∨
            w'.placeOf c.userFile ≠ .ok place) →
        layered c.environment (c.members w' c.projectFile) (c.members w' c.userFile) setting =
          p.settings setting) := by
    rw [← hp, layered, layered]
    -- the layers are gone through from the highest one down
    cases c.environment.said? setting with
    | some value => exact ⟨.inl rfl, fun _ => rfl⟩
    | none =>
      obtain ⟨hplace, -, hsaid⟩ | ⟨-, heq⟩ := hm
      · simp [hsaid, hplace]
      · rw [heq]
        cases said? (c.members w c.projectFile) setting with
        | some value => exact ⟨.inl rfl, fun _ => rfl⟩
        | none =>
          obtain ⟨hplace, -, hsaid⟩ | ⟨-, heq⟩ := hu
          · simp [hsaid, hplace]
          · simp [heq]
  obtain ⟨r, hr⟩ := Settings.exists_validate_of_choice hpvalid hq fun setting => (hcases setting).1
  refine ⟨r, (result_load_eq_ok_iff huserAfter hprojectAfter ?_ ?_).2 ⟨hspelt, hr⟩, ?_⟩
  · obtain ⟨-, hsectioned, -⟩ | ⟨-, heq⟩ := hu
    · exact hsectioned
    · rwa [heq]
  · obtain ⟨-, hsectioned, -⟩ | ⟨-, heq⟩ := hm
    · exact hsectioned
    · rwa [heq]
  · rw [← (Settings.validate_eq_ok_iff.1 hr).1]
    exact hcases

end Afterwards

theorem down_of_short {name : String} (h : name ≠ "..") (hshort : name.utf8ByteSize ≤ 255) :
    Workspace.Down [name] := by
  intro other hother
  obtain rfl := List.mem_singleton.1 hother
  exact ⟨h, hshort⟩

theorem ConfigSources.descends_userFile {c : ConfigSources} {w : Workspace}
    (h : w.Descends c.user) : w.Descends c.userFile :=
  h.child (down_of_short (by decide) (by decide))

theorem ConfigSources.descends_projectFile {c : ConfigSources} {w : Workspace}
    (h : w.Descends c.project) : w.Descends c.projectFile :=
  (h.child (down_of_short (by decide) (by decide))).child (down_of_short (by decide) (by decide))

/-- A change that is not refused is written with all settings of its session.  In any environment
and for any project of the same user for which loading has succeeded before, it succeeds
afterwards, and every other setting is as it was before or as it was in the session.  It is as
before where the environment gives it, where the file of the project gives it and is not the file
written, where neither file is the one written, and for the project and in the environment of
the session. -/
theorem ConfigSession.set_keeps {x y : ConfigSession} {key text : String} {scope : Scope}
    (hfresh : x.loaded = none) (hset : x.set key text scope = (.ok none, y))
    {c : ConfigSources} (hsame : c.user = x.sources.user ∧ c.reader = x.sources.reader)
    (hreads : ∀ p q, (x.sources.load x.workspace).result = .ok p → p.change key text = .ok q →
      ReadsBack c.reader x.sources.writer q)
    (huser : x.workspace.Descends c.user) (hproject : x.workspace.Descends c.project)
    (husers : Sectioned (c.members x.workspace c.userFile))
    (hprojects : Sectioned (c.members x.workspace c.projectFile)) {before : Preferences}
    (hload : (c.load x.workspace).result = .ok before) :
    ∃ atCall after, (x.sources.load x.workspace).result = .ok atCall ∧
      (c.load y.workspace).result = .ok after ∧
      ∀ setting, Setting.ofKey key ≠ .ok setting →
        (after.settings setting = before.settings setting ∨
          after.settings setting = atCall.settings setting) ∧
        ((c.environment.said? setting).isSome ∨
          (y.workspace.placeOf c.projectFile ≠ y.workspace.placeOf (x.sources.fileOf scope) ∧
            ((said? (c.members x.workspace c.projectFile) setting).isSome ∨
              y.workspace.placeOf c.userFile ≠ y.workspace.placeOf (x.sources.fileOf scope))) ∨
          (c.environment = x.sources.environment ∧ c.project = x.sources.project) →
        after.settings setting = before.settings setting) := by
  obtain ⟨p, q, place, hp, hchange, hwritten, hplace⟩ := set_written hfresh hset
  obtain ⟨changed, value, hkey, hq, hvalid⟩ := Preferences.change_eq_ok hchange
  obtain ⟨after, hafter, hsettings⟩ := ConfigSources.load_written hwritten (hreads p q hp hchange)
    hvalid (ConfigSources.descends_userFile huser) (ConfigSources.descends_projectFile hproject)
    husers hprojects hload
  refine ⟨p, after, hp, hafter, fun setting hsetting => ?_⟩
  have hother : q.settings setting = p.settings setting := by
    rw [hq, Settings.put, if_neg]
    rintro rfl
    exact hsetting hkey
  rw [hplace]
  obtain ⟨hcases, hkeeps⟩ := hsettings setting
  rw [hother] at hcases
  refine ⟨hcases, ?_⟩
  rintro (hgiven | hfiles | ⟨henvironment, hsources⟩)
  · exact hkeeps (.inl hgiven)
  · exact hkeeps (.inr hfiles)
  · -- loading does not depend on how preferences are written
    have heq : c = { x.sources with writer := c.writer } := by
      cases c
      cases hx : x.sources
      simp_all
    have hsame : (c.load x.workspace).result = .ok p := by
      rw [heq]
      exact hp
    obtain rfl := Except.ok.inj (hload.symm.trans hsame)
    exact hcases.elim id id

/-- A document that holds both sections. -/
theorem sectioned_sections {display indent : Dictionary Value} (hdisplay : display.Keyed)
    (hindent : indent.Keyed) :
    Sectioned [("display", .mapping display), ("indent", .mapping indent)] where
  keyed := by simp [Dictionary.Keyed]
  mapping part v hv := by
    cases part with
    | indent => exact ⟨indent, (Option.some.inj hv).symm⟩
    | display => exact ⟨display, (Option.some.inj hv).symm⟩
  members_keyed part found hfound := by
    cases part with
    | indent => cases hfound; exact hindent
    | display => cases hfound; exact hdisplay

theorem sectioned_nil : Sectioned [] where
  keyed := List.nodup_nil
  mapping _ _ := nofun
  members_keyed _ _ := nofun

/-- Nothing is stored, and the environment asks for eight columns. -/
def wideSession : ConfigSession where
  sources := sourcesIn [("ESINDENT_INDENT_SIZE", "8")]
  workspace := { contents := [] }

/-- What is written when clauses are to be flush. -/
def wideFlush : Preferences := { style := { size := 8, caseLevels := 0 } }

theorem load_wideSession : (wideSession.sources.load wideSession.workspace).result =
    .ok { style := { size := 8 } } := by rfl

theorem exists_set_wideSession : ∃ y,
    wideSession.set "indent.switch_case" "0" .project = (.ok none, y) ∧
      y.workspace = (wideSession.workspace.writeIn wideSession.sources.projectDirectory
        ConfigSources.fileName (wideSession.sources.writer wideFlush)).workspace :=
  @ConfigSession.exists_set wideSession _ _ .project _ wideFlush rfl load_wideSession rfl rfl

set_option maxRecDepth 2000 in
private theorem ofText?_wideFlush : Document.ofText? (Document.ofPreferences wideFlush) = some (.mapping [
    ("display", .mapping [("format", .string "text"), ("symbols", .string "auto")]),
    ("indent", .mapping [("indent_script", .bool true), ("indent_size", .int 8),
      ("indent_type", .string "space"), ("switch_case", .int 0)])]) := by rfl

theorem readsBack_wideFlush (e : Environment) :
    ReadsBack (sourcesIn e).reader Document.bytesOf wideFlush := by
  have htext : Utf8.decode (Document.bytesOf wideFlush).toList =
      Document.ofPreferences wideFlush := by decide +kernel
  have hread :=
    calc Document.ofText? (Utf8.decode (Document.bytesOf wideFlush).toList)
      _ = Document.ofText? (Document.ofPreferences wideFlush) := by rw [htext]
      _ = _ := ofText?_wideFlush
  exact ⟨_, hread, sectioned_sections (by simp [Dictionary.Keyed]) (by simp [Dictionary.Keyed]),
    fun setting => by cases setting <;> rfl⟩

/-- What is written in the session. -/
theorem eq_wideFlush {p q : Preferences}
    (hload : (wideSession.sources.load wideSession.workspace).result = .ok p)
    (hchange : p.change "indent.switch_case" "0" = .ok q) : q = wideFlush := by
  obtain rfl := Except.ok.inj (load_wideSession.symm.trans hload)
  have hflush : Preferences.change { style := { size := 8 } } "indent.switch_case" "0" =
      .ok wideFlush := by rfl
  exact Except.ok.inj (hchange.symm.trans hflush)

/-- Another project of the same user, without the variable. -/
def otherSources : ConfigSources := { sourcesIn [] with project := ⟨"", ["other"]⟩ }

theorem descends_wideSession {names : List String} (h : Workspace.Down names) :
    wideSession.workspace.Descends ⟨"", names⟩ := by
  have htop : wideSession.workspace.isDirectory ⟨"", []⟩ = .ok true := by rfl
  exact ⟨[], names, rfl, htop, h⟩

/-- The size in another project is as before, since the file written is that of the first. -/
theorem set_keeps_otherSources : ∃ y after,
    wideSession.set "indent.switch_case" "0" .project = (.ok none, y) ∧
      (otherSources.load y.workspace).result = .ok after ∧
      after.settings .indentSize = .int 2 := by
  obtain ⟨y, hset, hworkspace⟩ := exists_set_wideSession
  have hbefore : (otherSources.load wideSession.workspace).result = .ok {} := by rfl
  obtain ⟨atCall, after, -, hafter, hsettings⟩ := @ConfigSession.set_keeps _ _ _ _ _ rfl hset
    otherSources ⟨rfl, rfl⟩
    (fun _ _ hload hchange => eq_wideFlush hload hchange ▸ readsBack_wideFlush [])
    (@descends_wideSession ["home", ".esindent"] (by unfold Workspace.Down; decide))
    (@descends_wideSession ["other"] (by unfold Workspace.Down; decide))
    sectioned_nil sectioned_nil _ hbefore
  have hkey : Setting.ofKey "indent.switch_case" = .ok .switchCase := by rfl
  refine ⟨y, after, hset, hafter, ((hsettings .indentSize ?_).2 (.inr (.inl ⟨?_, .inr ?_⟩))).trans rfl⟩
  · rw [hkey]
    exact nofun
  all_goals
    obtain ⟨-, -, place, -, -, -, hplace⟩ := ConfigSession.set_written rfl hset
    rw [hplace, hworkspace]
  · have hnowhere : (wideSession.workspace.writeIn wideSession.sources.projectDirectory
        ConfigSources.fileName (wideSession.sources.writer wideFlush)).workspace.placeOf
          otherSources.projectFile = .error .notFound := by rfl
    rw [hnowhere]
    exact nofun
  · have hnowhere : (wideSession.workspace.writeIn wideSession.sources.projectDirectory
        ConfigSources.fileName (wideSession.sources.writer wideFlush)).workspace.placeOf
          otherSources.userFile = .error .notFound := by rfl
    rw [hnowhere]
    exact nofun

/-- The size that the environment has given is found after a change of another setting in an
environment that gives none. -/
theorem set_carries_size : ∃ y before after,
    wideSession.set "indent.switch_case" "0" .project = (.ok none, y) ∧
      ((sourcesIn []).load wideSession.workspace).result = .ok before ∧
      ((sourcesIn []).load y.workspace).result = .ok after ∧
      before.settings .indentSize = .int 2 ∧ after.settings .indentSize = .int 8 := by
  obtain ⟨y, hset, hworkspace⟩ := exists_set_wideSession
  obtain ⟨p, q, place, hp, hchange, hwritten, hplace⟩ := ConfigSession.set_written rfl hset
  obtain rfl := eq_wideFlush hp hchange
  have hbefore : ((sourcesIn []).load wideSession.workspace).result = .ok {} := by rfl
  have huser : (wideSession.workspace.writeIn wideSession.sources.projectDirectory
      ConfigSources.fileName (wideSession.sources.writer wideFlush)).workspace.has
        (sourcesIn []).userFile = .ok false := by rfl
  have hnone : (sourcesIn []).members (wideSession.workspace.writeIn
      wideSession.sources.projectDirectory ConfigSources.fileName
        (wideSession.sources.writer wideFlush)).workspace (sourcesIn []).userFile = [] := by
    rfl
  rw [← hworkspace] at huser hnone
  have habsent : wideSession.workspace.has (sourcesIn []).projectFile = .ok false := by rfl
  have hdescends : wideSession.workspace.Descends (sourcesIn []).projectFile :=
    @descends_wideSession ["project", ".esindent", "config.yaml"] (by unfold Workspace.Down; decide)
  obtain ⟨⟨there, hthere⟩, ⟨-, hsectioned, hsaid⟩ | ⟨hwrong, -⟩⟩ := ConfigSources.members_written
    hwritten (readsBack_wideFlush []) hdescends habsent
  · refine ⟨y, {}, wideFlush, hset, hbefore,
      (ConfigSources.result_load_eq_ok_iff huser hthere (hnone ▸ sectioned_nil) hsectioned).2
        ⟨?_, Settings.validate_eq_ok_iff.2 ⟨?_, by decide, by decide⟩⟩, rfl, rfl⟩
    · rintro ⟨setting, text, -, htext, -⟩
      cases setting <;> cases htext
    · funext setting
      rw [layered, hsaid]
      cases setting <;> rfl
  · exact absurd hplace hwrong

end ScriptIndent
