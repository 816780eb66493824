import ScriptIndent.Check.Result
import ScriptIndent.Workspace.Basic

/-!
# ScriptIndent.Command.Files

The files to check, and the result for each.

A path to a directory stands for the files below it that are in a registered
language, without those that a language passes over.  Any other path stands for
itself.
-/

namespace ScriptIndent

/-- A file that is met on the way through paths. -/
inductive Candidate where
  | file (path : Path)
  /-- A language passes over the file. -/
  | excluded (path : Path)
  /-- It cannot be told whether a path is that of a directory. -/
  | unclear (error : FileError)
  deriving DecidableEq, Repr

namespace Candidate

/-- A file below a directory, by the names behind the directory.  There is
nothing to do with one that is in no language. -/
def below? (languages : Languages) (directory : Path) (names : List String) : Option Candidate :=
  let path := directory ++ ⟨"", names⟩
  if !languages.supports path then none
  else if languages.excludes ("/".intercalate names) then some (.excluded path)
  else some (.file path)

/-- The files that a path stands for. -/
def ofPath (languages : Languages) (w : Workspace) (path : Path) : List Candidate :=
  match w.isDirectory path with
  | .error e => [.unclear e]
  | .ok false => [.file path]
  | .ok true =>
    match w.placeOf path with
    | .ok place => (w.filesBelow place).filterMap fun (names, _) => below? languages path names
    | .error _ => []

end Candidate

/-! ## one file -/

/-- Why there is neither a result for a file nor a problem to report. -/
inductive SourceFault where
  /-- The tree of the file is damaged. -/
  | damaged (d : Damage)
  /-- No system can look for the file. -/
  | file (error : FileError)
  deriving DecidableEq, Repr

/-- What checking a file has led to: notices, and a result, unless it broke
off. -/
structure FileCheck where
  notices : List Notice := []
  result : Except SourceFault CheckResult

namespace FileCheck

/-- A file that could not be checked, for a reason that the result gives. -/
def failed (path : Path) (notices : List Notice) (reason : String) : FileCheck where
  notices := notices ++ [.checkFailed path.toString]
  result := .ok { path := some path.toString, error := some reason }

/-- The check of a file that has been read. -/
def ofBytes (languages : Languages) (parsers : Parsers) (style : Style) (path : Path)
    (bytes : Bytes) : FileCheck :=
  let limit := (languages.ofSource (some path)).sizeLimit
  if limit < bytes.size then
    { notices := [.tooLarge path.toString bytes.size limit]
      result := .ok { path := some path.toString, skipped := true } }
  else
    let judged := check languages parsers style bytes (some path.toString)
    match judged.result with
    | .ok result => ⟨judged.notices, .ok result⟩
    | .error (.problem p) => failed path judged.notices p.message
    | .error (.damaged d) => ⟨judged.notices, .error (.damaged d)⟩

/-- The check of a file. -/
def ofPath (languages : Languages) (parsers : Parsers) (style : Style) (w : Workspace)
    (path : Path) : FileCheck :=
  match w.read path with
  | .error e =>
    if e.trouble.isSystems then failed path [] e.message else { result := .error (.file e) }
  | .ok bytes => ofBytes languages parsers style path bytes

end FileCheck

/-! ## all files -/

/-- What checking files has led to, up to the first at which it broke off. -/
structure FilesCheck where
  notices : List Notice := []
  results : Except SourceFault (List CheckResult) := .ok []

/-- Check files in turn. -/
def FilesCheck.ofCandidates (checkFile : Path → FileCheck) : List Candidate → FilesCheck
  | [] => {}
  | .excluded path :: rest =>
    let others := ofCandidates checkFile rest
    { others with notices := .excluded path.toString :: others.notices }
  | .unclear e :: _ => { results := .error (.file e) }
  | .file path :: rest =>
    let first := checkFile path
    match first.result with
    | .error fault => ⟨first.notices, .error fault⟩
    | .ok result =>
      let others := ofCandidates checkFile rest
      ⟨first.notices ++ others.notices, others.results.map (result :: ·)⟩

end ScriptIndent
