import ScriptIndent.Dictionary
import ScriptIndent.Language.Basic
import ScriptIndent.Text.Lowercase

/-!
# ScriptIndent.Language.Registry

Registered languages, and which of them a file belongs to.

A file belongs to the language that owns its ending, letters taken small.  An
ending is owned by the language that registered it first, and no other language
can register it; the same language can, and is then replaced.
-/

namespace ScriptIndent

/-- Registered languages and the owners of endings. -/
structure Languages where
  /-- The languages by name, in the order of registration. -/
  byName : Dictionary Language := []
  /-- The names of the languages that own endings, by ending. -/
  owners : Dictionary String := []
  deriving DecidableEq, Repr

/-- An ending is owned by another language. -/
structure ExtensionConflict where
  extension : String
  owner : String
  name : String
  deriving DecidableEq, Repr

def ExtensionConflict.message (c : ExtensionConflict) : String :=
  s!"Extension {c.extension} already registered to {c.owner}, cannot register to {c.name}"

/-- A registration that is refused: the conflict, and the registry as it is
then. -/
structure RefusedLanguage extends ExtensionConflict where
  languages : Languages
  deriving DecidableEq, Repr

namespace Languages

/-- A step of a registration: it changes the registry, or finds a conflict and
leaves it as far as it has come. -/
abbrev Step := EStateM ExtensionConflict Languages Unit

/-- An ending of a language must not be owned by another one. -/
def claim (l : Language) (extension : String) : Step := do
  match (← get).owners.get? (Text.lowercase extension) with
  | some owner => if owner ≠ l.name then throw ⟨extension, owner, l.name⟩
  | none => pure ()

/-- A language owns an ending. -/
def own (l : Language) (extension : String) : Step :=
  modify fun r => { r with owners := r.owners.assign (Text.lowercase extension) l.name }

/-- The steps of a registration: nothing is stored before all endings have been
looked at. -/
def steps (l : Language) : Step := do
  l.extensions.forM (claim l)
  modify fun r => { r with byName := r.byName.assign l.name l }
  l.extensions.forM (own l)

/-- Register a language. -/
def register (r : Languages) (l : Language) : Except RefusedLanguage Languages :=
  match (steps l).run r with
  | .ok () r => .ok r
  | .error conflict r => .error ⟨conflict, r⟩

/-- The registry after a registration, accepted or refused. -/
def registered (r : Languages) (l : Language) : Languages :=
  match r.register l with
  | .ok r => r
  | .error refused => refused.languages

/-- The ending of a path, letters taken small. -/
def ending (path : Path) : String := Text.lowercase path.suffix

/-- The language of a file.  A language without a name is not found. -/
def get? (r : Languages) (path : Path) : Option Language :=
  match r.owners.get? (ending path) with
  | some owner => if owner = "" then none else r.byName.get? owner
  | none => none

/-- The file has an ending that some language owns. -/
def supports (r : Languages) (path : Path) : Bool := (r.owners.get? (ending path)).isSome

/-- Some language passes over the path. -/
def excludes (r : Languages) (path : String) : Bool := r.byName.any (·.2.excludes path)

/-- The number of languages. -/
def size (r : Languages) : Nat := r.byName.length

/-- A language of that name is registered. -/
def contains (r : Languages) (name : String) : Bool := (r.byName.get? name).isSome

/-- Languages registered in turn, some of them perhaps refused. -/
def ofList (ls : List Language) : Languages := ls.foldl registered {}

/-- The built-in languages. -/
def builtin : Languages := ofList [.javascript, .svelte, .html]

/-- The language in which a source is read: that of its path, and JavaScript
if there is none. -/
def ofSource (r : Languages) (path : Option Path) : Language :=
  (path.bind r.get?).getD .javascript

end Languages

end ScriptIndent
