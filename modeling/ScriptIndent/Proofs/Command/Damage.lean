import Mathlib.Data.List.TakeDrop
import ScriptIndent.Command.Files
import ScriptIndent.Proofs.Language.Reading
import ScriptIndent.Proofs.Rule.Damage

/-!
# ScriptIndent.Proofs.Command.Damage

What damage to a tree does to an analysis, to the check of a file and to the files behind it.

```
while;          a `)` is missing: the file has a result, with an error that says so
if              two tokens are asked for at once, and there is one: no result at all
```

An analysis ends with a problem to report, if not with levels, unless some node that is visited
lacks a part or a token of which more is asked than where it is (`Source.lacks_of_damaged`).  The
check of a file whose tree lacks nothing of the kind has a result, and goes on with the next file
(`FilesCheck.results_of_sound`).
-/

namespace ScriptIndent

/-! ## analyses -/

/-- Visits in turn end without a fault if all of them go through, or else with the fault of one
of them. -/
theorem Analysis.fault_visitAll (s : Source) (caseLevels : Int) (places : List Node.Placed)
    {a : Analysis} (ha : a.fault = none) :
    (a.visitAll s caseLevels places).fault = none ∨
      ∃ place ∈ places, ∃ draft e, Rule.visit? s caseLevels place = some draft ∧
        draft.result = .error e ∧ (a.visitAll s caseLevels places).fault = some e := by
  induction places generalizing a with
  | nil => exact .inl ha
  | cons place rest ih =>
    rw [visitAll]
    cases hfault : (a.visit s caseLevels place).fault with
    | none =>
      rw [if_neg (by simp)]
      exact (ih hfault).imp_right fun ⟨p, hp, h⟩ => ⟨p, List.mem_cons_of_mem place hp, h⟩
    | some e =>
      refine .inr ⟨place, List.mem_cons_self, ?_⟩
      rw [if_pos (by simp)]
      rw [visit] at hfault
      split at hfault
      · next draft hdraft =>
        dsimp only at hfault
        split at hfault
        · next e' he =>
          obtain rfl := Option.some.inj hfault
          exact ⟨draft, e', hdraft, he, by rw [visit, hdraft]; simp [he]⟩
        · cases hfault
      · exact absurd (ha.symm.trans hfault) (by simp)

namespace Source

/-- A node that is visited lacks something, and this first. -/
def Lacks (s : Source) (d : Damage) : Prop :=
  ∃ place ∈ s.root.visited [], (s.damages place).head? = some d

variable {s : Source} {caseLevels : Int}

/-- An analysis that ends at damage was at a node that lacks just that. -/
theorem lacks_of_damaged {d : Damage}
    (h : s.checkedLevels (s.analyze caseLevels) = .error (.damaged d)) : s.Lacks d := by
  rw [checkedLevels] at h
  rcases Analysis.fault_visitAll s caseLevels (s.root.visited []) (a := {}) rfl with
    hnone | ⟨place, hplace, draft, e, hdraft, he, hfault⟩
  · rw [analyze, hnone] at h
    dsimp only at h
    split at h <;> cases h
  · rw [analyze, hfault] at h
    cases e with
    | tokenNotFound => cases h
    | damaged x =>
      obtain rfl : x = d := by
        injection h with h
        injection h
      exact ⟨place, hplace, (Rule.visit?_misses hdraft).head?_eq he⟩

private theorem checkedLevels_of_tokenNotFound {a : Analysis} {description nodeKind : String} {line : Nat}
    (h : a.fault = some (.tokenNotFound description nodeKind line)) :
    s.checkedLevels a = .error (.problem (.tokenNotFound description nodeKind line)) := by
  rw [checkedLevels, h]
  rfl

end Source

/-! ## files -/

variable {languages : Languages} {parsers : Parsers} {style : Style}

/-- The check of a text that makes a source is that of the source. -/
theorem result_check_of_read {bytes : Bytes} {path : Option String} {s : Source}
    (h : (Source.read languages parsers style.layout bytes path).result = .ok s) :
    (check languages parsers style bytes path).result =
      (s.checkedLevels (s.analyze style.caseLevels)).map (s.result style) := by
  rw [check, Judged.of]
  dsimp only
  rw [h]

private theorem exists_of_damaged {bytes : Bytes} {path : Option String} {d : Damage}
    (h : (check languages parsers style bytes path).result = .error (.damaged d)) :
    ∃ s, (Source.read languages parsers style.layout bytes path).result = .ok s ∧
      s.checkedLevels (s.analyze style.caseLevels) = .error (.damaged d) := by
  cases hread : (Source.read languages parsers style.layout bytes path).result with
  | error problem =>
    rw [check, Judged.of] at h
    dsimp only at h
    rw [hread] at h
    cases h
  | ok s =>
    refine ⟨s, rfl, ?_⟩
    rw [result_check_of_read hread] at h
    cases hlevels : s.checkedLevels (s.analyze style.caseLevels) with
    | error failure =>
      rw [hlevels] at h
      obtain rfl := Except.error.inj h
      rfl
    | ok levels =>
      rw [hlevels] at h
      cases h

namespace FileCheck

variable {path : Path} {bytes : Bytes}

variable (languages parsers style path bytes) in
/-- The check of a file that has been read has a result, or its tree lacks something. -/
theorem result_ofBytes :
    (∃ r, (ofBytes languages parsers style path bytes).result = .ok r) ∨
      ∃ s d, (Source.read languages parsers style.layout bytes (some path.toString)).result = .ok s ∧
        s.Lacks d ∧ (ofBytes languages parsers style path bytes).result = .error (.damaged d) := by
  rw [ofBytes]
  dsimp only
  split
  · exact .inl ⟨_, rfl⟩
  · split
    · exact .inl ⟨_, rfl⟩
    · exact .inl ⟨_, rfl⟩
    · next d hd =>
      obtain ⟨s, hs, hlevels⟩ := exists_of_damaged hd
      exact .inr ⟨s, d, hs, Source.lacks_of_damaged hlevels, rfl⟩

/-- A missing token is the result of its file. -/
theorem result_of_tokenNotFound {s : Source}
    (hsize : ¬ (languages.ofSource (some path)).sizeLimit < bytes.size)
    (hs : (Source.read languages parsers style.layout bytes (some path.toString)).result = .ok s)
    {description nodeKind : String} {line : Nat}
    (h : (s.analyze style.caseLevels).fault = some (.tokenNotFound description nodeKind line)) :
    (ofBytes languages parsers style path bytes).result = .ok {
      path := some path.toString
      error := some (Problem.message (.tokenNotFound description nodeKind line)) } := by
  have hcheck : (check languages parsers style bytes (some path.toString)).result =
      .error (.problem (.tokenNotFound description nodeKind line)) := by
    rw [result_check_of_read hs, Source.checkedLevels_of_tokenNotFound h]
    rfl
  rw [ofBytes]
  dsimp only
  rw [if_neg hsize, hcheck]
  rfl

end FileCheck

namespace FilesCheck

/-- A file with a result does not keep the check from the next one. -/
theorem results_cons {checkFile : Path → FileCheck} {path : Path} {r : CheckResult}
    (h : (checkFile path).result = .ok r) (rest : List Candidate) :
    (ofCandidates checkFile (.file path :: rest)).results =
      (ofCandidates checkFile rest).results.map (r :: ·) := by
  simp only [ofCandidates, h]

/-- A visit to any node of any source completes, misses a token, or stops at the first damage
that the node has, and an analysis ends at no other damage.  A file whose tree has no such damage
has a result, which tells of a missing token, and the check goes on with the next file. -/
theorem results_of_sound {w : Workspace} {path : Path} {bytes : Bytes}
    (hread : w.read path = .ok bytes)
    (hsound : ∀ s, (Source.read languages parsers style.layout bytes
      (some path.toString)).result = .ok s → ∀ d, ¬ s.Lacks d) :
    (∀ (s : Source) caseLevels place draft, Rule.visit? s caseLevels place = some draft →
      draft.Misses (s.damages place)) ∧
    (∀ (s : Source) caseLevels d, s.checkedLevels (s.analyze caseLevels) = .error (.damaged d) →
      s.Lacks d) ∧
    ∃ r, (FileCheck.ofPath languages parsers style w path).result = .ok r ∧
      (∀ rest, (ofCandidates (FileCheck.ofPath languages parsers style w)
          (.file path :: rest)).results =
        (ofCandidates (FileCheck.ofPath languages parsers style w) rest).results.map (r :: ·)) ∧
      ∀ s description nodeKind line, bytes.size ≤ (languages.ofSource (some path)).sizeLimit →
        (Source.read languages parsers style.layout bytes (some path.toString)).result = .ok s →
        (s.analyze style.caseLevels).fault = some (.tokenNotFound description nodeKind line) →
        r = {
          path := some path.toString
          error := some (Problem.message (.tokenNotFound description nodeKind line)) } := by
  have hofPath : FileCheck.ofPath languages parsers style w path =
      FileCheck.ofBytes languages parsers style path bytes := by
    rw [FileCheck.ofPath, hread]
  obtain ⟨r, hr⟩ | ⟨s, d, hs, hlacks, -⟩ :=
    FileCheck.result_ofBytes languages parsers style path bytes
  · refine ⟨fun s caseLevels place draft => Rule.visit?_misses, fun s caseLevels d =>
      Source.lacks_of_damaged, r, hofPath ▸ hr, results_cons (hofPath ▸ hr), ?_⟩
    intro s description nodeKind line hsize hs hfault
    have htold := FileCheck.result_of_tokenNotFound (Nat.not_lt.2 hsize) hs hfault
    exact Except.ok.inj (hr.symm.trans htold)
  · exact absurd hlacks (hsound s hs d)

/-! ## two scripts -/

/-- A loop without the parentheses that the grammar guarantees: `while;`. -/
def looseLoop : Bytes := #[0x77, 0x68, 0x69, 0x6C, 0x65, 0x3B]

def looseLoopTree : Node :=
  ⟨"program", true, false, false, [], 0, 6,
    [⟨"while_statement", true, false, false, [], 0, 6,
      [⟨"while", false, false, false, [], 0, 5, []⟩,
       ⟨"empty_statement", true, false, false, ["body"], 5, 6,
        [⟨";", false, false, false, [], 5, 6, []⟩]⟩]⟩]⟩

/-- A conditional that is cut off behind its keyword: `if`. -/
def bareConditional : Bytes := #[0x69, 0x66]

def bareConditionalTree : Node :=
  ⟨"program", true, false, false, [], 0, 2,
    [⟨"if_statement", true, false, false, [], 0, 2,
      [⟨"if", false, false, false, [], 0, 2, []⟩]⟩]⟩

/-- A file with a text. -/
def oneFile (text : Bytes) : Workspace where
  contents := [(["a.js"], .file text)]

theorem read_builtin (layout : Host.Layout) (bytes : Bytes) (root : Node)
    (herror : root.hasError = false) :
    (Source.read .builtin (fun _ _ => some root) layout bytes (some "a.js")).result =
      .ok (.ofTree bytes root (some "a.js") []) := by
  have hfinds : Reading.Finds (fun _ _ => some root) layout
      (Languages.builtin.ofSource ((some "a.js").map .ofString)) bytes bytes [] root :=
    .of_script (by decide +kernel) rfl
  simp only [Source.read, hfinds.result_eq, Reading.ofTree, herror, Bool.false_eq_true, if_false]

/-- A loop without parentheses has a result, which tells of the first that is missing. -/
theorem results_looseLoop :
    ∃ r, r.error = some "Expected `)` in while_statement at line 1" ∧
      ∀ rest, (FilesCheck.ofCandidates
          (FileCheck.ofPath .builtin (fun _ _ => some looseLoopTree) {} (oneFile looseLoop))
          (.file (.ofString "a.js") :: rest)).results =
        (FilesCheck.ofCandidates
          (FileCheck.ofPath .builtin (fun _ _ => some looseLoopTree) {} (oneFile looseLoop))
          rest).results.map (r :: ·) := by
  have hpath : (Path.ofString "a.js").toString = "a.js" := by decide +kernel
  have hread := read_builtin ({} : Style).layout looseLoop looseLoopTree rfl
  have hwhole : ((Source.ofTree looseLoop looseLoopTree (some "a.js") []).root.visited []).all
      (fun place => ((Source.ofTree looseLoop looseLoopTree (some "a.js") []).damages
        place).isEmpty) = true := by decide +kernel
  obtain ⟨-, -, r, -, hrest, htold⟩ := @results_of_sound .builtin
    (fun _ _ => some looseLoopTree) {} (oneFile looseLoop) (.ofString "a.js") looseLoop
    (by decide +kernel) (by
      intro s hs d ⟨place, hplace, hd⟩
      rw [hpath, hread] at hs
      obtain rfl := Except.ok.inj hs
      have := List.all_eq_true.1 hwhole place hplace
      rw [List.isEmpty_iff] at this
      rw [this] at hd
      cases hd)
  refine ⟨r, ?_, hrest⟩
  rw [htold _ "`)`" "while_statement" 1 (by decide +kernel) (hpath ▸ hread) (by decide +kernel)]
  decide +kernel

/-- A conditional that is cut off has no result: its rule counts on two tokens.  The analysis
ends with no problem to report, and no file behind it is checked. -/
theorem results_bareConditional :
    let s := Source.ofTree bareConditional bareConditionalTree (some "a.js") []
    (s.analyze 1).fault = some (.damaged (.tooFewTokens 1)) ∧
      s.checkedLevels (s.analyze 1) = .error (.damaged (.tooFewTokens 1)) ∧
      ∀ rest, (FilesCheck.ofCandidates
          (FileCheck.ofPath .builtin (fun _ _ => some bareConditionalTree) {}
            (oneFile bareConditional))
          (.file (.ofString "a.js") :: rest)).results =
        .error (.damaged (.tooFewTokens 1)) := by
  have hpath : (Path.ofString "a.js").toString = "a.js" := by decide +kernel
  have hread := read_builtin ({} : Style).layout bareConditional bareConditionalTree rfl
  have hfault : ((Source.ofTree bareConditional bareConditionalTree (some "a.js") []).analyze
      1).fault = some (.damaged (.tooFewTokens 1)) := by decide +kernel
  have hlevels : (Source.ofTree bareConditional bareConditionalTree (some "a.js") []).checkedLevels
      ((Source.ofTree bareConditional bareConditionalTree (some "a.js") []).analyze 1) =
        .error (.damaged (.tooFewTokens 1)) := by
    rw [Source.checkedLevels, hfault]
    rfl
  have hcheck : (check .builtin (fun _ _ => some bareConditionalTree) {} bareConditional
      (some "a.js")).result = .error (.damaged (.tooFewTokens 1)) := by
    rw [result_check_of_read hread]
    exact congrArg (Except.map _) hlevels
  have hfile : (FileCheck.ofPath .builtin (fun _ _ => some bareConditionalTree) {}
      (oneFile bareConditional) (.ofString "a.js")).result = .error (.damaged (.tooFewTokens 1)) := by
    have hpresent : (oneFile bareConditional).read (.ofString "a.js") = .ok bareConditional := by
      decide +kernel
    rw [FileCheck.ofPath, hpresent]
    dsimp only
    rw [FileCheck.ofBytes]
    dsimp only
    rw [hpath, if_neg (by decide +kernel), hcheck]
  refine ⟨hfault, hlevels, fun rest => ?_⟩
  simp only [FilesCheck.ofCandidates, hfile]

end FilesCheck

end ScriptIndent
