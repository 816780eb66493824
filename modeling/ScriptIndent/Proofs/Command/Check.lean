import ScriptIndent.Proofs.Report.Totals

/-!
# ScriptIndent.Proofs.Command.Check

Checking files: the outcome, and what it rests on.

1. The result for a file carries its path, and no violations if it is an error
   (`FileCheck.result_ofPath`).
2. If each file has a result, a check ends with an outcome exactly if it can be told of each
   path given whether it is that of a directory.  The outcome then has a result for each file
   that is met, in order, and reports, totals and exit code agree on them
   (`Surroundings.check_agrees`).
3. It cannot be told of a path whose name is too long.  The check breaks off there, although the
   file itself would get a result, as it does where a file is listed (`check_longName`).
-/

namespace ScriptIndent

/-! ## one file -/

/-- A source has the path under which it was read. -/
theorem Source.path_of_read {languages : Languages} {parsers : Parsers} {layout : Host.Layout}
    {bytes : Bytes} {path : Option String} {s : Source}
    (h : (Source.read languages parsers layout bytes path).result = .ok s) : s.path = path := by
  have hscript : ∀ grammar bytes blocks,
      (Reading.script parsers grammar bytes path blocks).result = .ok s → s.path = path := by
    intro grammar bytes blocks h
    rw [Reading.script] at h
    split at h
    · cases h
    · rw [Reading.ofTree] at h
      split at h
      · cases h
      · obtain rfl := Except.ok.inj h
        rfl
  rw [Source.read, Reading.inLanguage] at h
  split at h
  · exact hscript _ _ _ h
  · split at h
    · cases h
    · exact hscript _ _ _ h

variable {languages : Languages} {parsers : Parsers} {style : Style}

theorem result_check {bytes : Bytes} {path : Option String} {r : CheckResult}
    (h : (check languages parsers style bytes path).result = .ok r) :
    r.path = path ∧ r.error = none := by
  rw [check, Judged.of] at h
  dsimp only at h
  cases hread : (Source.read languages parsers style.layout bytes path).result with
  | error problem =>
    simp only [hread] at h
    cases h
  | ok s =>
    simp only [hread] at h
    obtain ⟨levels, -, rfl⟩ : ∃ levels, s.checkedLevels (s.analyze style.caseLevels) = .ok levels ∧
        s.result style levels = r := by
      cases hlevels : s.checkedLevels (s.analyze style.caseLevels) with
      | error failure =>
        rw [hlevels] at h
        cases h
      | ok levels =>
        rw [hlevels] at h
        exact ⟨levels, rfl, Except.ok.inj h⟩
    exact ⟨Source.path_of_read hread, rfl⟩

namespace FileCheck

/-- A result carries the path of its file.  One with an error has no violations. -/
theorem result_ofPath {w : Workspace} {path : Path} {r : CheckResult}
    (h : (ofPath languages parsers style w path).result = .ok r) :
    r.path = some path.toString ∧ (r.error ≠ none → r.violations = []) := by
  rw [ofPath] at h
  split at h
  · split at h
    · obtain rfl := Except.ok.inj h
      exact ⟨rfl, fun _ => rfl⟩
    · cases h
  · rw [ofBytes] at h
    dsimp only at h
    split at h
    · obtain rfl := Except.ok.inj h
      exact ⟨rfl, fun _ => rfl⟩
    · split at h
      · next hcheck =>
        obtain rfl := Except.ok.inj h
        obtain ⟨hpath, herror⟩ := result_check hcheck
        exact ⟨hpath, fun hne => absurd herror hne⟩
      · obtain rfl := Except.ok.inj h
        exact ⟨rfl, fun _ => rfl⟩
      · cases h

end FileCheck

/-! ## all files -/

/-- The file of a candidate that is to be checked. -/
def Candidate.file? : Candidate → Option Path
  | .file path => some path
  | _ => none

namespace FilesCheck

variable {checkFile : Path → FileCheck} {candidates : List Candidate}

/-- If each file has a result, there are results for all of them, in order, unless it cannot be
told of a path whether it is that of a directory. -/
theorem results_ofCandidates
    (hfiles : ∀ path, .file path ∈ candidates → ∃ r, (checkFile path).result = .ok r) :
    (∃ e, .unclear e ∈ candidates ∧ (ofCandidates checkFile candidates).results = .error (.file e)) ∨
      (∀ e, .unclear e ∉ candidates) ∧
        ∃ results, (ofCandidates checkFile candidates).results = .ok results ∧
          List.Forall₂ (fun path r => (checkFile path).result = .ok r)
            (candidates.filterMap Candidate.file?) results := by
  induction candidates with
  | nil => exact .inr ⟨by simp, [], rfl, .nil⟩
  | cons candidate rest ih =>
    have ih := ih fun path hmem => hfiles path (List.mem_cons_of_mem candidate hmem)
    cases candidate with
    | unclear e => exact .inl ⟨e, List.mem_cons_self, rfl⟩
    | excluded path =>
      refine ih.imp (fun ⟨e, hmem, he⟩ => ⟨e, List.mem_cons_of_mem _ hmem, he⟩) fun ⟨hclear, h⟩ => ?_
      exact ⟨by simpa using hclear, h⟩
    | file path =>
      obtain ⟨r, hr⟩ := hfiles path List.mem_cons_self
      have hstep : (ofCandidates checkFile (.file path :: rest)).results =
          (ofCandidates checkFile rest).results.map (r :: ·) := by
        simp only [ofCandidates, hr]
      rcases ih with ⟨e, hmem, he⟩ | ⟨hclear, results, hresults, hall⟩
      · refine .inl ⟨e, List.mem_cons_of_mem _ hmem, ?_⟩
        rw [hstep, he]
        rfl
      · refine .inr ⟨by simpa using hclear, r :: results, ?_, .cons hr hall⟩
        rw [hstep, hresults]
        rfl

end FilesCheck

/-! ## paths that cannot be told from directories -/

namespace Path

variable {name : String}

/-- A long text without slashes is a name. -/
theorem ofString_of_name (hslash : '/' ∉ name.toList)
    (hlong : Workspace.nameLimit < name.utf8ByteSize) : ofString name = ⟨"", [name]⟩ := by
  have hne : name ≠ "" := by
    rintro rfl
    simp at hlong
  have hdot : name ≠ "." := by
    rintro rfl
    revert hlong
    decide
  have hroot : rootOf name.toList = "" := by
    cases h : name.toList with
    | nil => rfl
    | cons c cs =>
      have hc : c ≠ '/' := by
        rintro rfl
        simp [h] at hslash
      rw [rootOf] <;> simp [hc]
  have hsplit : name.toList.splitOn '/' = [name.toList] := by
    refine List.splitOnP_eq_singleton fun c hc => beq_eq_false_iff_ne.2 ?_
    rintro rfl
    exact hslash hc
  rw [ofString, hroot, namesOf, hsplit]
  simp [hne, hdot]

theorem toString_ofString_of_name (hslash : '/' ∉ name.toList)
    (hlong : Workspace.nameLimit < name.utf8ByteSize) : (ofString name).toString = name := by
  rw [ofString_of_name hslash hlong, toString]
  simp

end Path

namespace Workspace

variable {w : Workspace}

/-- A name that is too long leads to nothing. -/
theorem placeOf_longName {name : String} (hlong : nameLimit < name.utf8ByteSize)
    (hslash : '/' ∉ name.toList) (hnull : '\x00' ∉ name.toList)
    (hhere : w.content? w.here = some .directory) :
    w.placeOf (.ofString name) = .error .nameTooLong := by
  rw [placeOf, Path.toString_ofString_of_name hslash hlong, if_neg (by simpa using hnull)]
  split
  · rfl
  · rw [Path.ofString_of_name hslash hlong, if_pos rfl, follow, hhere]
    exact if_pos hlong

theorem trouble_of_follow {place : Place} {names : List String} {trouble : Trouble}
    (h : w.follow place names = .error trouble) :
    trouble.isAbsence = true ∨ trouble = .nameTooLong := by
  induction names generalizing place with
  | nil => cases h
  | cons name rest ih =>
    rw [follow] at h
    split at h
    · obtain rfl := Except.error.inj h
      exact .inl rfl
    · obtain rfl := Except.error.inj h
      exact .inl rfl
    · split at h
      · obtain rfl := Except.error.inj h
        exact .inr rfl
      · exact ih h

/-- A path that leads nowhere leads to nothing, or is too long. -/
theorem trouble_of_placeOf {path : Path} {trouble : Trouble}
    (h : w.placeOf path = .error trouble) :
    trouble.isAbsence = true ∨ trouble = .nameTooLong := by
  simp only [placeOf] at h
  split at h
  · obtain rfl := Except.error.inj h
    exact .inl rfl
  · split at h
    · obtain rfl := Except.error.inj h
      exact .inr rfl
    · exact trouble_of_follow h

/-- It is told of a path whether it is that of a directory unless the path is too long. -/
theorem isDirectory_eq_error {path : Path} {e : FileError} :
    w.isDirectory path = .error e ↔
      w.placeOf path = .error .nameTooLong ∧ e = ⟨.nameTooLong, path⟩ := by
  cases hplace : w.placeOf path with
  | ok place =>
    refine iff_of_false (fun h => ?_) fun h => by cases h.1
    have hfind : w.find path = .error .notFound ∨ ∃ content, w.find path = .ok content := by
      rw [find, hplace]
      cases hcontent : w.content? place with
      | none => exact .inl (by simp only [bind, Except.bind, hcontent]; rfl)
      | some content => exact .inr ⟨content, by simp only [bind, Except.bind, hcontent]; rfl⟩
    rcases hfind with hfind | ⟨content, hfind⟩ <;> rw [isDirectory, find?, hfind] at h <;> cases h
  | error trouble =>
    have hfind : w.find path = .error trouble := by
      rw [find, hplace]
      rfl
    rw [isDirectory, find?, hfind]
    dsimp only
    rcases trouble_of_placeOf hplace with habsence | rfl
    · rw [habsence, if_pos rfl]
      refine iff_of_false (fun h => by cases h) fun h => ?_
      obtain rfl := Except.error.inj h.1
      cases habsence
    · rw [if_neg (by decide)]
      exact ⟨fun h => ⟨rfl, (Except.error.inj h).symm⟩, fun h => by rw [h.2]; rfl⟩

end Workspace

theorem Candidate.unclear_mem_ofPath {languages : Languages} {w : Workspace} {path : Path}
    {e : FileError} : .unclear e ∈ ofPath languages w path ↔
      w.placeOf path = .error .nameTooLong ∧ e = ⟨.nameTooLong, path⟩ := by
  rw [← Workspace.isDirectory_eq_error, ofPath]
  split
  · next e' he => simp [he, eq_comm]
  · next he => simp [he]
  · next he =>
    refine iff_of_false (fun h => ?_) (by simp [he])
    split at h
    · obtain ⟨p, -, hp⟩ := List.mem_filterMap.1 h
      simp only [below?] at hp
      split at hp
      · cases hp
      · split at hp <;> cases hp
    · simp at h

namespace Surroundings

variable (s : Surroundings)

/-- The files that are met on the way through the paths given. -/
def candidates (a : CheckArguments) : List Candidate :=
  a.paths.flatMap fun path => Candidate.ofPath .builtin s.workspace (.ofString path)

/-- If each file that is met has a result, a check ends with an outcome exactly if no path given
is too long.  There is then a result for each of the files, in order, and reports, totals and
exit code agree on the results. -/
theorem check_agrees (p : Preferences) (a : CheckArguments)
    (hfiles : ∀ path, .file path ∈ s.candidates a →
      ∃ r, (FileCheck.ofPath .builtin s.parsers p.style s.workspace path).result = .ok r) :
    ((∃ o, s.check p a = .ok o) ↔
      ∀ text ∈ a.paths, s.workspace.placeOf (.ofString text) ≠ .error .nameTooLong) ∧
    ∀ o, s.check p a = .ok o → ∃ results,
      List.Forall₂ (fun path r =>
          (FileCheck.ofPath .builtin s.parsers p.style s.workspace path).result = .ok r ∧
            r.path = some path.toString)
        ((s.candidates a).filterMap Candidate.file?) results ∧
      o.out = printedLine s.encoding (report p.format (s.symbols p) results) ∧
      Agrees (s.symbols p) results o.exit := by
  have hunclear : (∀ e, .unclear e ∉ s.candidates a) ↔
      ∀ text ∈ a.paths, s.workspace.placeOf (.ofString text) ≠ .error .nameTooLong := by
    simp only [candidates, List.mem_flatMap, Candidate.unclear_mem_ofPath]
    exact ⟨fun h text htext hlong => h _ ⟨text, htext, hlong, rfl⟩,
      fun h e ⟨text, htext, hlong, _⟩ => h text htext hlong⟩
  rcases FilesCheck.results_ofCandidates hfiles with ⟨e, hmem, he⟩ | ⟨hclear, results, hresults, hall⟩
  · have hcheck : s.check p a = .error (.source (.file e)) := by
      rw [candidates] at he
      simp only [check, he]
    refine ⟨iff_of_false (by simp [hcheck]) fun h => hunclear.2 h e hmem, fun o ho => ?_⟩
    rw [hcheck] at ho
    cases ho
  · have hcheck : ∃ o, s.check p a = .ok o ∧ o.exit = Outcome.exitCode results ∧
        o.out = printedLine s.encoding (report p.format (s.symbols p) results) := by
      rw [candidates] at hresults
      simp only [check, hresults]
      exact ⟨_, rfl, rfl, rfl⟩
    obtain ⟨o, ho, hexit, hout⟩ := hcheck
    refine ⟨iff_of_true ⟨o, ho⟩ (hunclear.1 hclear), fun o' ho' => ⟨results, ?_, ?_, ?_⟩⟩
    · exact hall.imp fun path r h => ⟨h, (FileCheck.result_ofPath h).1⟩
    · obtain rfl := Except.ok.inj (ho.symm.trans ho')
      exact hout
    · obtain rfl := Except.ok.inj (ho.symm.trans ho')
      rw [hexit]
      refine Agrees.of_results (Symbols.choose_cases _ _) fun r hr => ?_
      obtain ⟨i, hi, rfl⟩ := List.mem_iff_getElem.1 hr
      exact (FileCheck.result_ofPath (hall.get (hall.length_eq ▸ hi) hi)).2

/-- A file whose name is too long gets a result, with an error, and where it is listed the run
ends with exit code 2.  But a check of it breaks off. -/
theorem check_of_longName (p : Preferences) {name : String}
    (hlong : Workspace.nameLimit < name.utf8ByteSize) (hslash : '/' ∉ name.toList)
    (hnull : '\x00' ∉ name.toList)
    (hhere : s.workspace.content? s.workspace.here = some .directory) :
    (FileCheck.ofPath .builtin s.parsers p.style s.workspace (.ofString name)).result =
      .ok {
        path := some name
        error := some (FileError.message ⟨.nameTooLong, .ofString name⟩) } ∧
      (∃ o, s.levels p { file := name } = .ok o ∧ o.exit = 2) ∧
      s.check p { paths := [name] } = .error (.source (.file ⟨.nameTooLong, .ofString name⟩)) := by
  have hplace := Workspace.placeOf_longName hlong hslash hnull hhere
  have hread : s.workspace.read (.ofString name) = .error ⟨.nameTooLong, .ofString name⟩ := by
    rw [Workspace.read, Workspace.find, hplace]
    rfl
  have hdirectory := (Workspace.isDirectory_eq_error (w := s.workspace)).2 ⟨hplace, rfl⟩
  refine ⟨?_, ?_, ?_⟩
  · rw [FileCheck.ofPath, hread]
    simp only [FileCheck.failed]
    rw [if_pos (by decide), Path.toString_ofString_of_name hslash hlong]
  · -- the equation of the definition is slow to state
    delta levels
    dsimp only
    rw [hread]
    exact ⟨_, if_pos rfl, rfl⟩
  · have hcandidates : Candidate.ofPath .builtin s.workspace (.ofString name) =
        [.unclear ⟨.nameTooLong, .ofString name⟩] := by
      rw [Candidate.ofPath, hdirectory]
    rw [check, List.flatMap_singleton, hcandidates]
    rfl

/-! ## runs -/

/-- An empty script, and nothing else. -/
def emptyScript : Surroundings where
  workspace := { contents := [(["a.js"], .file #[])] }
  environment := []
  home := .ofString "/"
  encoding := .utf8
  reader := fun _ => none
  parsers := fun _ _ => some ⟨"program", true, false, false, [], 0, 0, []⟩

/-- A file that is given twice has two results, and one that is not there has one. -/
theorem check_emptyScript :
    (∀ path, .file path ∈ emptyScript.candidates { paths := ["a.js", "b.js", "a.js"] } →
      ∃ r, (FileCheck.ofPath .builtin emptyScript.parsers {} emptyScript.workspace path).result =
        .ok r) ∧
    ∃ o, emptyScript.check {} { paths := ["a.js", "b.js", "a.js"] } = .ok o ∧
      ∃ results, results.length = 3 ∧ Agrees (emptyScript.symbols {}) results o.exit := by
  have hcandidates : emptyScript.candidates { paths := ["a.js", "b.js", "a.js"] } =
      [.file (.ofString "a.js"), .file (.ofString "b.js"), .file (.ofString "a.js")] := by
    decide +kernel
  have hresult : ∀ path ∈ [Path.ofString "a.js", .ofString "b.js"],
      (FileCheck.ofPath .builtin emptyScript.parsers {} emptyScript.workspace
        path).result.toOption.isSome = true := by decide +kernel
  have hfiles : ∀ path, .file path ∈ emptyScript.candidates { paths := ["a.js", "b.js", "a.js"] } →
      ∃ r, (FileCheck.ofPath .builtin emptyScript.parsers {} emptyScript.workspace path).result =
        .ok r := by
    intro path hpath
    have := hresult path (by simpa [hcandidates, or_comm] using hpath)
    cases hr : (FileCheck.ofPath .builtin emptyScript.parsers {} emptyScript.workspace
        path).result with
    | error fault => simp [hr, Except.toOption] at this
    | ok r => exact ⟨r, rfl⟩
  obtain ⟨hiff, hagrees⟩ := check_agrees emptyScript {} { paths := ["a.js", "b.js", "a.js"] } hfiles
  obtain ⟨o, ho⟩ := hiff.2 (by decide +kernel)
  obtain ⟨results, hall, -, h⟩ := hagrees o ho
  have hlength := hall.length_eq
  rw [hcandidates] at hlength
  exact ⟨hfiles, o, ho, results, hlength.symm, h⟩

/-- A name of 256 letters. -/
def longName : String := String.ofList (List.replicate 256 'x')

/-- The file of a name that is too long has a result, with an error, and listing it ends with
exit code 2; but a check of it breaks off. -/
theorem check_longName :
    (FileCheck.ofPath .builtin emptyScript.parsers {} emptyScript.workspace
        (.ofString longName)).result =
      .ok {
        path := some longName
        error := some (FileError.message ⟨.nameTooLong, .ofString longName⟩) } ∧
      (∃ o, emptyScript.levels {} { file := longName } = .ok o ∧ o.exit = 2) ∧
      emptyScript.check {} { paths := [longName] } =
        .error (.source (.file ⟨.nameTooLong, .ofString longName⟩)) := by
  have hlong : Workspace.nameLimit < longName.utf8ByteSize := by decide +kernel
  have hletters : ∀ c ∈ longName.toList, c = 'x' := fun c hc =>
    List.eq_of_mem_replicate (String.toList_ofList ▸ hc)
  exact check_of_longName emptyScript {} hlong (fun h => by simpa using hletters _ h)
    (fun h => by simpa using hletters _ h) rfl

end Surroundings

end ScriptIndent
