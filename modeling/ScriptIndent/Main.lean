import ScriptIndent.Command.Run

/-!
# ScriptIndent.Main

The command line.

A run works on a copy of the files that its arguments lead to, and what it
changes is written back.  No parsers are linked in, so a file of a language is
reported as one whose grammar is not there.
-/

namespace ScriptIndent.CommandLine

/-! ## reading -/

/-- The variables of the environment that a run looks at. -/
def variableNames : List String := settingVariables.map (·.1) ++ [
  "ESINDENT_PROJECT_PATH", "ESINDENT_ASCII_ONLY", "ESINDENT_UNICODE", "LANG", "LC_ALL",
  "TERM_PROGRAM", "WT_SESSION"]

/-- The environment of the program. -/
def environment : IO Environment :=
  variableNames.filterMapM fun name => do return (← IO.getEnv name).map (name, ·)

/-- A place as an absolute path. -/
def absolute (place : Place) : String := "/" ++ "/".intercalate place

/-- What lies at a place.  Nothing lies where nothing can be read. -/
def contentAt? (place : Place) : IO (Option Workspace.Content) := do
  let .ok path ← (IO.FS.realPath (absolute place)).toBaseIO | return none
  if ← path.isDir then return some .directory
  let .ok bytes ← (IO.FS.readBinFile path).toBaseIO | return none
  return some (.file bytes.data)

/-- What lies below a place.  Links are not followed. -/
partial def contentsBelow (place : Place) : IO (List (Place × Workspace.Content)) := do
  let .ok path ← (IO.FS.realPath (absolute place)).toBaseIO | return []
  if path.toString != absolute place || !(← path.isDir) then return []
  let found ← (← path.readDir).toList.mapM fun entry => do
    let place := place ++ [entry.fileName]
    let content := (← contentAt? place).map (place, ·)
    return content.toList ++ (← contentsBelow place)
  return found.flatten

/-- The places that names lead to from a place, one after the other. -/
def placesFrom (place : Place) : List String → List Place
  | [] => [place]
  | name :: rest =>
    place :: placesFrom (if name = ".." then place.dropLast else place ++ [name]) rest

/-- A path that a run looks at.  Of a directory, all files below it may be
looked at. -/
structure Look where
  path : Path
  below : Bool

/-- The paths that the run of a command looks at. -/
def looksOf : Command → List Look
  | .check a => a.paths.map fun path => ⟨Path.ofString path, true⟩
  | .levels a => [⟨Path.ofString a.file, false⟩]
  | .config _ => []

/-- The paths that a run looks at. -/
def looks (s : Surroundings) (args : List String) : List Look :=
  match Invocation.ofArguments args with
  | .error _ => []
  | .ok i =>
    match s.projectPath? i.project with
    | none => []
    | some project =>
      let sources := (s.session project).sources
      ⟨sources.userFile, false⟩ :: ⟨sources.projectFile, false⟩ :: i.command.elim [] looksOf

/-- Copy the files that a path leads to. -/
def copy (here : Place) (look : Look) : IO (List (Place × Workspace.Content)) := do
  let places := placesFrom (if look.path.root = "" then here else []) look.path.names
  let passed ← places.filterMapM fun place => do return (← contentAt? place).map (place, ·)
  let below ← if look.below then contentsBelow (places.getLastD []) else pure []
  return passed ++ below

/-- The surroundings of the program, with the files that a run with some
arguments looks at. -/
def surroundings (args : List String) : IO Surroundings := do
  let here := (Path.ofString (← IO.FS.realPath ".").toString).names
  let bare : Surroundings := {
    workspace := { contents := [], here }
    environment := ← environment
    home := Path.ofString ((← IO.getEnv "HOME").getD "/")
    encoding := .utf8
    reader := fun bytes => Document.ofText? (Utf8.decode bytes.toList)
    parsers := fun _ _ => none }
  let contents ← (looks bare args).mapM (copy here)
  return { bare with workspace := { contents := contents.flatten, here } }

/-! ## writing -/

/-- Write back what a run has changed. -/
def writeBack (before after : Workspace) : IO Unit :=
  after.contents.forM fun (place, content) => do
    if before.content? place ≠ some content then
      match content with
      | .directory => IO.FS.createDirAll (absolute place)
      | .file bytes => IO.FS.writeBinFile (absolute place) ⟨bytes⟩

/-- Run the program. -/
def run (args : List String) : IO UInt32 := do
  let s ← surroundings args
  match s.run args with
  | .error crash =>
    IO.eprintln crash.message
    return 1
  | .ok o =>
    o.log.forM fun line => IO.eprintln line
    writeBack s.workspace o.workspace
    IO.eprint o.err
    IO.print o.out
    return o.exit.toUInt32

end ScriptIndent.CommandLine

/-- The program. -/
def main (args : List String) : IO UInt32 := ScriptIndent.CommandLine.run args
