import ScriptIndent.Proofs.Config.Change

/-!
# ScriptIndent.Proofs.Config.Failure

What a change that fails leaves behind.

```
load            fails        nothing is changed
key or value    refused      nothing is changed
directory       not made     the files are as they were, and the session holds the new value
file            not opened   the same
```

A change is stored in the session even if it cannot be written, so a session that goes on after a
failed write answers with a value that no file holds (`ConfigSession.set_blocked`).  All else is as
before: every file, every other setting, and after any other failure the changed setting as well
(`ConfigSession.set_failed`).

What can go wrong while a file is written is up to the system (`Workspace.Writer`).  It is only
asked that a failed write changes no file, which is so for a workspace.
-/

namespace ScriptIndent

namespace Workspace

variable {w w' : Workspace}

/-- A way to write a file in a directory, which is made if it is not there. -/
abbrev Writer := Workspace → Path → String → Bytes → Change

/-- If the directory cannot be made, or the file cannot be opened, at most directories have been
made. -/
def Writer.Careful (write : Writer) : Prop := ∀ w directory name bytes,
  (write w directory name bytes).error ≠ none →
    Grows w (write w directory name bytes).workspace fun _ => False

private theorem careful_writeIn : Writer.Careful writeIn :=
  fun _ _ _ _ herror => grows_writeIn_of_error herror

/-- Every file holds what it has held. -/
structure SameFiles (w w' : Workspace) : Prop where
  content (place : Place) (bytes : Bytes) :
    w'.content? place = some (.file bytes) ↔ w.content? place = some (.file bytes)
  read {path : Path} (descends : w.Descends path) :
    (w'.read path).toOption = (w.read path).toOption

theorem Grows.sameFiles (h : Grows w w' fun _ => False) : SameFiles w w' where
  content place bytes := by
    refine ⟨fun hlater => ?_, h.kept place _ id⟩
    cases hcontent : w.content? place with
    | none => cases h.added place _ id hcontent hlater
    | some content => rwa [h.kept place _ id hcontent] at hlater
  read := h.toOption_read_eq

end Workspace

namespace ConfigSession

variable {x y : ConfigSession} {key text : String} {scope : Scope}

/-- Write preferences to a file, on a system with its own way to do so. -/
def saveBy (write : Workspace.Writer) (x : ConfigSession) (scope : Scope) (p : Preferences) :
    Option FileError × ConfigSession :=
  let change := write x.workspace (x.sources.directoryOf scope) ConfigSources.fileName
    (x.sources.writer p)
  (change.error, { x with loaded := some p, workspace := change.workspace })

/-- Change a setting, or answer why not, on a system with its own way to write files. -/
def setBy (write : Workspace.Writer) (x : ConfigSession) (key text : String) (scope : Scope) :
    Except ConfigFault (Option Refusal) × ConfigSession :=
  match x.load with
  | (.error fault, x) => (.error (.load fault), x)
  | (.ok p, x) =>
    match p.change key text with
    | .error refusal => (.ok (some refusal), x)
    | .ok changed =>
      match x.saveBy write scope changed with
      | (some error, x) => (.error (.file error), x)
      | (none, x) => (.ok none, x)

theorem save_eq_saveBy (x : ConfigSession) (scope : Scope) (p : Preferences) :
    x.save scope p = x.saveBy Workspace.writeIn scope p := by
  cases scope <;> rfl

theorem set_eq_setBy (x : ConfigSession) (key text : String) (scope : Scope) :
    x.set key text scope = x.setBy Workspace.writeIn key text scope := by
  simp only [set, save_eq_saveBy]
  rfl

/-! ## loading -/

theorem load_of_loaded {p : Preferences} (h : x.loaded = some p) : x.load = (.ok p, x) := by
  rw [load, h]

theorem load_of_not_loaded (h : x.loaded = none) :
    x.load = ((x.sources.load x.workspace).result,
      { x with
        loaded := (x.sources.load x.workspace).result.toOption
        notices := x.notices ++ (x.sources.load x.workspace).notices }) := by
  rw [load, h]

/-- Loading changes no file. -/
theorem workspace_load (x : ConfigSession) : x.load.2.workspace = x.workspace := by
  cases h : x.loaded with
  | some p => rw [load_of_loaded h]
  | none => rw [load_of_not_loaded h]

/-- Preferences that have been loaded, or cannot be, are found so again. -/
theorem load_load (x : ConfigSession) : x.load.2.load.1 = x.load.1 := by
  cases h : x.loaded with
  | some p => rw [load_of_loaded h, load_of_loaded h]
  | none =>
    rw [load_of_not_loaded h]
    cases hresult : (x.sources.load x.workspace).result with
    | ok p => rw [load_of_loaded rfl]
    | error fault => rw [load_of_not_loaded rfl]; exact hresult

/-- What is told of a setting is that of the loaded preferences. -/
theorem get_eq (x : ConfigSession) (other : String) :
    (x.get other).1 = x.load.1.map (·.textOf? other) := by
  rw [get]
  obtain ⟨result, y⟩ := x.load
  cases result <;> rfl

/-! ## a change that fails -/

/-- A change that fails leaves the session as loading it has, or it could not be written. -/
theorem setBy_cases {write : Workspace.Writer} {outcome : Except ConfigFault (Option Refusal)}
    (hset : x.setBy write key text scope = (outcome, y)) (hfail : outcome ≠ .ok none) :
    y = x.load.2 ∧ (∀ error, outcome ≠ .error (.file error)) ∨
    ∃ p q error, x.load.1 = .ok p ∧ p.change key text = .ok q ∧ outcome = .error (.file error) ∧
      (x.load.2.saveBy write scope q) = (some error, y) := by
  rw [setBy] at hset
  rcases hload : x.load with ⟨result, z⟩
  rw [hload] at hset
  cases result with
  | error fault =>
    obtain ⟨rfl, rfl⟩ := Prod.mk.inj hset
    exact .inl ⟨rfl, nofun⟩
  | ok p =>
    dsimp only at hset ⊢
    cases hchange : p.change key text with
    | error refusal =>
      rw [hchange] at hset
      obtain ⟨rfl, rfl⟩ := Prod.mk.inj hset
      exact .inl ⟨rfl, nofun⟩
    | ok q =>
      rw [hchange] at hset
      dsimp only at hset
      rcases hsave : z.saveBy write scope q with ⟨_ | error, saved⟩
      · rw [hsave] at hset
        exact absurd (Prod.mk.inj hset).1.symm hfail
      · rw [hsave] at hset
        obtain ⟨rfl, rfl⟩ := Prod.mk.inj hset
        exact .inr ⟨p, q, error, rfl, hchange, rfl, hsave⟩

/-- What could not be written is kept in the session, and in no file. -/
theorem saveBy_error {write : Workspace.Writer} (hwrite : write.Careful) {q : Preferences}
    {error : FileError} (h : x.saveBy write scope q = (some error, y)) :
    y.loaded = some q ∧ Workspace.SameFiles x.workspace y.workspace := by
  obtain ⟨herror, rfl⟩ := Prod.mk.inj h
  exact ⟨rfl, (hwrite _ _ _ _ (Option.ne_none_iff_exists'.2 ⟨error, herror⟩)).sameFiles⟩

/-- A change that fails, on whatever system, changes no file and no other setting.  All that is
found in the session afterwards is as before, unless the change could not be written and the
setting has had another value. -/
theorem set_failed (x : ConfigSession) (key text : String) (scope : Scope) :
    x.set key text scope = x.setBy Workspace.writeIn key text scope ∧
    Workspace.Writer.Careful Workspace.writeIn ∧
    ∀ (write : Workspace.Writer), write.Careful → ∀ outcome y,
      x.setBy write key text scope = (outcome, y) → outcome ≠ .ok none →
        Workspace.SameFiles x.workspace y.workspace ∧
        (∀ p, x.load.1 = .ok p → ∃ q, y.load.1 = .ok q ∧
          ∀ setting, Setting.ofKey key ≠ .ok setting → q.settings setting = p.settings setting) ∧
        ((y.load.1 = x.load.1 ∧ ∀ other, (y.get other).1 = (x.get other).1) ↔
          ∀ error p q, outcome = .error (.file error) → x.load.1 = .ok p →
            p.change key text = .ok q → q = p) := by
  refine ⟨set_eq_setBy x key text scope, Workspace.careful_writeIn, ?_⟩
  intro write hwrite outcome y hset hfail
  obtain ⟨rfl, hwritten⟩ | ⟨p, q, error, hload, hchange, rfl, hsave⟩ := setBy_cases hset hfail
  · refine ⟨?_, fun p hp => ⟨p, (load_load x).trans hp, fun _ _ => rfl⟩, ?_⟩
    · rw [workspace_load]
      exact (Workspace.Grows.refl _).sameFiles
    · refine iff_of_true ⟨load_load x, fun other => ?_⟩ fun error _ _ herror => ?_
      · rw [get_eq, load_load, get_eq]
      · exact absurd herror (hwritten error)
  · obtain ⟨hloaded, hfiles⟩ := saveBy_error hwrite hsave
    rw [workspace_load] at hfiles
    have hlater : y.load.1 = .ok q := by rw [load_of_loaded hloaded]
    refine ⟨hfiles, fun p' hp => ⟨q, hlater, ?_⟩, ?_⟩
    · obtain rfl := Except.ok.inj (hload.symm.trans hp)
      obtain ⟨changed, value, hkey, hq, -⟩ := Preferences.change_eq_ok hchange
      intro setting hsetting
      rw [hq, Settings.put, if_neg]
      rintro rfl
      exact hsetting hkey
    · constructor
      · rintro ⟨hsame, -⟩ _ p' q' - hp hq
        obtain rfl := Except.ok.inj (hload.symm.trans hp)
        obtain rfl := Except.ok.inj (hchange.symm.trans hq)
        have heq :=
          calc Except.ok q = y.load.1 := hlater.symm
            _ = x.load.1 := hsame
            _ = .ok p := hload
        exact Except.ok.inj heq
      · intro h
        obtain rfl := h error p q rfl hload hchange
        have hsame : y.load.1 = x.load.1 := by rw [hlater, hload]
        exact ⟨hsame, fun other => by rw [get_eq, hsame, get_eq]⟩

/-! ## a file that cannot be opened -/

/-- There is a directory where the file of the project should be. -/
def blockedSession : ConfigSession where
  sources := sourcesIn []
  workspace := { contents := [(["project", ".esindent", "config.yaml"], .directory)] }

/-- A size that cannot be written is found in the session afterwards. -/
theorem set_blocked : ∃ error y,
    blockedSession.set "indent.indent_size" "4" .project = (.error (.file error), y) ∧
      (blockedSession.get "indent.indent_size").1 = .ok (some "2") ∧
      (y.get "indent.indent_size").1 = .ok (some "4") :=
  ⟨⟨.isDirectory, (sourcesIn []).projectFile⟩, _, rfl, rfl, rfl⟩

/-- A size that is refused is not. -/
theorem set_failed_refused : ∃ refusal y,
    blockedSession.set "indent.indent_size" "0" .project = (.ok (some refusal), y) ∧
      (y.get "indent.indent_size").1 = .ok (some "2") := by
  have hset : ∃ refusal y,
      blockedSession.set "indent.indent_size" "0" .project = (.ok (some refusal), y) :=
    ⟨_, _, rfl⟩
  obtain ⟨refusal, y, hset⟩ := hset
  obtain ⟨heq, hcareful, hfailed⟩ := set_failed blockedSession "indent.indent_size" "0" .project
  obtain ⟨-, -, hsame⟩ := hfailed _ hcareful _ _ (heq.symm.trans hset) nofun
  refine ⟨refusal, y, hset, ((hsame.2 fun _ _ _ => nofun).2 "indent.indent_size").trans ?_⟩
  rfl

end ConfigSession

end ScriptIndent
