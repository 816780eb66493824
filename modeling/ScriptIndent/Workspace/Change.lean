import ScriptIndent.Workspace.Basic

/-!
# ScriptIndent.Workspace.Change

Writing files and making directories.
-/

namespace ScriptIndent.Workspace

/-- A workspace after a change, and the error at which the change ended. -/
structure Change where
  workspace : Workspace
  error : Option FileError := none

/-- Put something at a place, in place of what was there. -/
def put (w : Workspace) (place : Place) (content : Content) : Workspace :=
  { w with contents := w.contents.filter (·.1 ≠ place) ++ [(place, content)] }

/-- The place of a path at which something new can be put: the place above it
is a directory. -/
def newPlace (w : Workspace) (path : Path) : Except Trouble Place := do
  let place ← w.placeOf path
  match w.content? place.dropLast with
  | some .directory => return place
  | some (.file _) => throw .notDirectory
  | none => throw .notFound

/-- Make a directory.  There may be nothing at its place yet. -/
def makeDirectory (w : Workspace) (path : Path) : Change :=
  match w.newPlace path with
  | .error trouble => ⟨w, some ⟨trouble, path⟩⟩
  | .ok place =>
    match w.content? place with
    | some _ => ⟨w, some ⟨.exists, path⟩⟩
    | none => ⟨w.put place .directory, none⟩

/-- An error while a directory is made does not count if it is there. -/
def Change.unlessDirectory (c : Change) (path : Path) : Change :=
  match c.workspace.isDirectory path with
  | .ok true => { c with error := none }
  | _ => c

/-- Make a directory and those above it, unless they are there.  The names of
its path are given from the last to the first. -/
def makeAbove (w : Workspace) (root : String) : List String → Change
  | [] => (w.makeDirectory ⟨root, []⟩).unlessDirectory ⟨root, []⟩
  | name :: above =>
    let path : Path := ⟨root, (name :: above).reverse⟩
    let first := w.makeDirectory path
    if first.error.any (·.trouble = .notFound) then
      let higher := w.makeAbove root above
      if higher.error.isSome then higher
      else (higher.workspace.makeDirectory path).unlessDirectory path
    else first.unlessDirectory path

/-- Make a directory and those above it, unless they are there. -/
def makeDirectories (w : Workspace) (path : Path) : Change :=
  w.makeAbove path.root path.names.reverse

/-- Write a file, in place of an earlier one. -/
def write (w : Workspace) (path : Path) (bytes : Bytes) : Change :=
  match w.newPlace path with
  | .error trouble => ⟨w, some ⟨trouble, path⟩⟩
  | .ok place =>
    match w.content? place with
    | some .directory => ⟨w, some ⟨.isDirectory, path⟩⟩
    | _ => ⟨w.put place (.file bytes), none⟩

/-- Write a file in a directory, which is made if it is not there. -/
def writeIn (w : Workspace) (directory : Path) (name : String) (bytes : Bytes) : Change :=
  let made := w.makeDirectories directory
  if made.error.isSome then made else made.workspace.write (directory.child name) bytes

end ScriptIndent.Workspace
