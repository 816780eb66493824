import ScriptIndent.Config.Document
import ScriptIndent.Environment
import ScriptIndent.Notice
import ScriptIndent.Workspace.Change

/-!
# ScriptIndent.Config.Session

Loading preferences, and changing them.

Preferences come from four layers: what holds initially, the file of the user,
the file of the project, and the environment.  Each layer says something about
some settings, and goes before those below it.  A file that cannot be read as a
mapping says nothing, and a notice is given.

A session loads preferences once, unless that fails.  A change is written to
the file of the project or of the user, with all other settings as they are at
the time.
-/

namespace ScriptIndent

/-! ## layers -/

/-- Why preferences cannot be loaded. -/
inductive LoadFault where
  | invalid (cause : InvalidSetting)
  /-- A section that is no mapping is asked for a setting. -/
  | unreadable (content : Value)
  /-- The environment gives a setting in a section that is no mapping. -/
  | unwritable (content : Value)
  /-- It cannot be told whether a file is there. -/
  | file (error : FileError)

/-- Where the files of the configuration are, and how they are read and
written. -/
structure ConfigSources where
  /-- The directory of the project. -/
  project : Path
  /-- The directory of the user's file. -/
  user : Path
  environment : Environment
  /-- The value that the bytes of a file spell. -/
  reader : Bytes → Option Value
  /-- The bytes of a file that holds preferences. -/
  writer : Preferences → Bytes := Document.bytesOf

namespace ConfigSources

/-- The name of the directory in a project, and in a home directory. -/
def directoryName : String := ".esindent"

def fileName : String := "config.yaml"

def projectDirectory (c : ConfigSources) : Path := c.project.child directoryName

def projectFile (c : ConfigSources) : Path := c.projectDirectory.child fileName

def userFile (c : ConfigSources) : Path := c.user.child fileName

end ConfigSources

/-- What a file says, and the notices given about it. -/
structure Layer where
  members : Dictionary Value := []
  notices : List Notice := []

/-- What a file says, if it can be read. -/
def Layer.ofFile (path : Path) (content : Option Value) : Layer :=
  let malformed : Layer := { notices := [.malformedConfiguration path.toString] }
  match content with
  | none => malformed
  | some v =>
    if v.isVoid then {}
    else
      match v with
      | .mapping members => { members }
      | _ => malformed

/-- What the file of a path says; one that is not there says nothing. -/
def ConfigSources.layer (c : ConfigSources) (w : Workspace) (path : Path) :
    Except FileError Layer :=
  (w.has path).map fun there =>
    if there then .ofFile path ((w.read path).toOption.bind c.reader) else {}

/-- The variables of the environment that give settings. -/
def settingVariables : List (String × Setting) := [
  ("ESINDENT_INDENT_SIZE", .indentSize),
  ("ESINDENT_INDENT_TYPE", .indentType),
  ("ESINDENT_SWITCH_CASE", .switchCase)]

/-- Store a setting in a document. -/
def storeSetting (document : Dictionary Value) (setting : Setting) (value : Value) :
    Except LoadFault (Dictionary Value) :=
  let place := setting.sectionOf.name
  match document.get? place with
  | none => .ok (document.assign place (.mapping [(setting.name, value)]))
  | some (.mapping members) =>
    .ok (document.assign place (.mapping (Dictionary.assign setting.name value members)))
  | some content => .error (.unwritable content)

/-- Lay a variable of the environment over a document.  One that is empty says
nothing. -/
def overlay (e : Environment) (document : Dictionary Value) (given : String × Setting) :
    Except LoadFault (Dictionary Value) :=
  match e.given? given.1 with
  | none => .ok document
  | some text =>
    match given.2.ofText text with
    | .error cause => .error (.invalid cause)
    | .ok value => storeSetting document given.2 value

/-- The members of a section.  One that stands for nothing has none. -/
def sectionMembers (document : Dictionary Value) (part : Section) :
    Except LoadFault (Dictionary Value) :=
  match document.get? part.name with
  | none => .ok []
  | some (.mapping members) => .ok members
  | some content => if content.isVoid then .ok [] else .error (.unreadable content)

/-- The settings in a document.  What it does not say is as initially. -/
def Settings.ofDocument (document : Dictionary Value) : Except LoadFault Settings := do
  let indent ← sectionMembers document .indent
  let display ← sectionMembers document .display
  return fun setting =>
    let members := match setting.sectionOf with | .indent => indent | .display => display
    (members.get? setting.name).getD (Settings.initial setting)

/-- The preferences in a document. -/
def Preferences.ofDocument (document : Dictionary Value) : Except LoadFault Preferences := do
  let settings ← Settings.ofDocument document
  settings.validate.mapError .invalid

/-- What loading preferences has led to. -/
structure Loading where
  notices : List Notice
  result : Except LoadFault Preferences

/-- What the files and the environment say, taken together. -/
def Loading.ofLayers (e : Environment) (user project : Layer) : Loading :=
  let document := Value.merge user.members project.members
  let laid := settingVariables.foldlM (overlay e) document
  ⟨user.notices ++ project.notices, laid.bind Preferences.ofDocument⟩

/-- Load preferences. -/
def ConfigSources.load (c : ConfigSources) (w : Workspace) : Loading :=
  match c.layer w c.userFile with
  | .error e => ⟨[], .error (.file e)⟩
  | .ok user =>
    match c.layer w c.projectFile with
    | .error e => ⟨user.notices, .error (.file e)⟩
    | .ok project => .ofLayers c.environment user project

/-! ## sessions -/

/-- The files that a change can be written to. -/
inductive Scope where
  | project
  | user
  deriving DecidableEq, Repr

/-- The scope of a name; a name that is not known means the user. -/
def Scope.named (name : String) : Scope := if name = "project" then .project else .user

/-- Why a change is refused. -/
inductive Refusal where
  | key (cause : KeyError)
  | value (cause : InvalidSetting)

def Refusal.message : Refusal → String
  | .key cause => cause.message
  | .value cause => cause.message

/-- Preferences with one setting changed, by its key, to what a text spells. -/
def Preferences.change (p : Preferences) (key text : String) : Except Refusal Preferences := do
  let setting ← (Setting.ofKey key).mapError .key
  let value ← (setting.ofText text).mapError .value
  (p.settings.put setting value).validate.mapError .value

/-- The text of a setting, by its key. -/
def Preferences.textOf? (p : Preferences) (key : String) : Option String :=
  (Setting.ofKey key).toOption.map fun setting =>
    match p.settings setting with
    | .bool b => Document.flagText b
    | v => v.text

/-- Loading and changing preferences, with all that it depends on. -/
structure ConfigSession where
  sources : ConfigSources
  workspace : Workspace
  /-- The preferences, once they are loaded. -/
  loaded : Option Preferences := none
  /-- All notices so far. -/
  notices : List Notice := []

/-- Why an operation on a session ended without an answer. -/
inductive ConfigFault where
  | load (fault : LoadFault)
  | file (error : FileError)

namespace ConfigSession

/-- The preferences. -/
def load (x : ConfigSession) : Except LoadFault Preferences × ConfigSession :=
  match x.loaded with
  | some p => (.ok p, x)
  | none =>
    let loading := x.sources.load x.workspace
    (loading.result,
      { x with loaded := loading.result.toOption, notices := x.notices ++ loading.notices })

/-- Write preferences to a file, and hold on to them even if that fails. -/
def save (x : ConfigSession) (scope : Scope) (p : Preferences) :
    Option FileError × ConfigSession :=
  let directory := match scope with
    | .project => x.sources.projectDirectory
    | .user => x.sources.user
  let change := x.workspace.writeIn directory ConfigSources.fileName (x.sources.writer p)
  (change.error, { x with loaded := some p, workspace := change.workspace })

/-- Change a setting, or answer why not. -/
def set (x : ConfigSession) (key text : String) (scope : Scope) :
    Except ConfigFault (Option Refusal) × ConfigSession :=
  match x.load with
  | (.error fault, x) => (.error (.load fault), x)
  | (.ok p, x) =>
    match p.change key text with
    | .error refusal => (.ok (some refusal), x)
    | .ok changed =>
      match x.save scope changed with
      | (some error, x) => (.error (.file error), x)
      | (none, x) => (.ok none, x)

/-- The text of a setting. -/
def get (x : ConfigSession) (key : String) : Except LoadFault (Option String) × ConfigSession :=
  match x.load with
  | (.error fault, x) => (.error fault, x)
  | (.ok p, x) => (.ok (p.textOf? key), x)

/-- A file of the configuration, with a mark that tells whether it is there. -/
def fileStatus (x : ConfigSession) (symbols : Symbols) (path : Path) :
    Except FileError String :=
  (x.workspace.has path).map fun there =>
    if there then s!"{symbols.pass} {path}" else s!"{symbols.bullet} {path} (not found)"

/-- All settings and the files of the configuration, for people. -/
def overview (x : ConfigSession) (symbols : Symbols) (p : Preferences) :
    Except FileError String := do
  let user ← x.fileStatus symbols x.sources.userFile
  let project ← x.fileStatus symbols x.sources.projectFile
  return "\n".intercalate [
    "Configuration:",
    "",
    "Indent:",
    s!"  Size: {p.style.size}",
    s!"  Type: {p.style.unit.name}",
    s!"  Switch case: {p.style.caseLevels}",
    s!"  Indent script: {(Value.bool p.style.indentScript).text}",
    "",
    "Display:",
    s!"  Symbols: {p.symbols.name}",
    s!"  Format: {p.format.name}",
    "",
    "Config files:",
    s!"  User: {user}",
    s!"  Project: {project}"]

/-- All settings and the files of the configuration, once they are loaded. -/
def display (x : ConfigSession) (symbols : Symbols) : Except LoadFault String × ConfigSession :=
  match x.load with
  | (.error fault, x) => (.error fault, x)
  | (.ok p, x) => ((x.overview symbols p).mapError .file, x)

end ConfigSession

end ScriptIndent
