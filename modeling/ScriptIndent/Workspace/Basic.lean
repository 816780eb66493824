import ScriptIndent.Path.Basic
import ScriptIndent.Source.Buffer
import ScriptIndent.Text.Quoted

/-!
# ScriptIndent.Workspace.Basic

The files that the program works on.

A workspace is a list of files and directories, each at a place: the names on
the way from the root.  A place below which something lies is a directory, too,
and so is the root.  A path is followed name by name from where the program
runs, or from the root; every place on the way has to be a directory, and a
double dot leads back to the one above.  Names and paths have a limit on their
bytes: a path that is too long is refused before it is followed, a name once
the way to it has been.
-/

namespace ScriptIndent

/-- The names on the way from the root. -/
abbrev Place := List String

namespace Workspace

/-- What lies at a place. -/
inductive Content where
  | file (bytes : Bytes)
  | directory
  deriving DecidableEq, Repr

/-- Why a file cannot be used. -/
inductive Trouble where
  | notFound
  | notDirectory
  | isDirectory
  | exists
  | nameTooLong
  /-- There is a null character in a path, which no file system takes. -/
  | nullCharacter
  deriving DecidableEq, Repr

namespace Trouble

/-- The number by which systems know a trouble, if it is a system that finds
it. -/
def number? : Trouble → Option Nat
  | .notFound => some 2
  | .exists => some 17
  | .notDirectory => some 20
  | .isDirectory => some 21
  | .nameTooLong => some 36
  | .nullCharacter => none

def text : Trouble → String
  | .notFound => "No such file or directory"
  | .exists => "File exists"
  | .notDirectory => "Not a directory"
  | .isDirectory => "Is a directory"
  | .nameTooLong => "File name too long"
  | .nullCharacter => "embedded null byte"

/-- A system finds the trouble. -/
def isSystems (t : Trouble) : Bool := t.number?.isSome

/-- The trouble shows that there is nothing. -/
def isAbsence : Trouble → Bool
  | .notFound | .notDirectory | .nullCharacter => true
  | _ => false

end Trouble

end Workspace

/-- A trouble with the file of a path. -/
structure FileError where
  trouble : Workspace.Trouble
  path : Path
  deriving DecidableEq, Repr

def FileError.message (e : FileError) : String :=
  match e.trouble.number? with
  | some number => s!"[Errno {number}] {e.trouble.text}: {Text.quoted e.path.toString}"
  | none => e.trouble.text

/-- Files and directories, and the place where the program runs. -/
structure Workspace where
  contents : List (Place × Workspace.Content)
  here : Place := []
  deriving DecidableEq, Repr

namespace Workspace

/-- The part of a place behind another one that it lies below. -/
def below? (top place : Place) : Option (List String) :=
  if top.isPrefixOf place && top.length < place.length then some (place.drop top.length) else none

/-- What lies at a place. -/
def content? (w : Workspace) (place : Place) : Option Content :=
  match w.contents.lookup place with
  | some content => some content
  | none =>
    if place.isEmpty || w.contents.any fun (other, _) => (below? place other).isSome then
      some .directory
    else none

/-- The most bytes of a name. -/
def nameLimit : Nat := 255

/-- The most bytes of a path. -/
def pathLimit : Nat := 4095

/-- Follow names from a place. -/
def follow (w : Workspace) (place : Place) : List String → Except Trouble Place
  | [] => .ok place
  | name :: rest =>
    match w.content? place with
    | none => .error .notFound
    | some (.file _) => .error .notDirectory
    | some .directory =>
      if nameLimit < name.utf8ByteSize then .error .nameTooLong
      else w.follow (if name = ".." then place.dropLast else place ++ [name]) rest

/-- The place to which a path leads.  There may be nothing at it. -/
def placeOf (w : Workspace) (path : Path) : Except Trouble Place :=
  let text := path.toString
  if text.toList.contains '\x00' then .error .nullCharacter
  else if pathLimit < text.utf8ByteSize then .error .nameTooLong
  else w.follow (if path.root = "" then w.here else []) path.names

/-- What a path leads to. -/
def find (w : Workspace) (path : Path) : Except Trouble Content := do
  let place ← w.placeOf path
  match w.content? place with
  | some content => return content
  | none => throw .notFound

/-- What a path leads to, if there is anything. -/
def find? (w : Workspace) (path : Path) : Except FileError (Option Content) :=
  match w.find path with
  | .ok content => .ok (some content)
  | .error trouble => if trouble.isAbsence then .ok none else .error ⟨trouble, path⟩

/-- Whether a path leads to something. -/
def has (w : Workspace) (path : Path) : Except FileError Bool := (w.find? path).map (·.isSome)

/-- Whether a path leads to a directory. -/
def isDirectory (w : Workspace) (path : Path) : Except FileError Bool :=
  (w.find? path).map (· = some .directory)

/-- The bytes of a file. -/
def read (w : Workspace) (path : Path) : Except FileError Bytes :=
  match w.find path with
  | .ok (.file bytes) => .ok bytes
  | .ok .directory => .error ⟨.isDirectory, path⟩
  | .error trouble => .error ⟨trouble, path⟩

/-- Names come before others name by name. -/
def namesLe : List String → List String → Bool
  | [], _ => true
  | _ :: _, [] => false
  | a :: as, b :: bs => if a = b then namesLe as bs else a ≤ b

/-- The files below a place, each with the names behind the place, in
order. -/
def filesBelow (w : Workspace) (top : Place) : List (List String × Bytes) :=
  let found := w.contents.filterMap fun (place, content) =>
    match below? top place, content with
    | some names, .file bytes => some (names, bytes)
    | _, _ => none
  found.mergeSort fun a b => namesLe a.1 b.1

end Workspace

end ScriptIndent
