import ScriptIndent.Config.Value
import ScriptIndent.Text.Integer
import ScriptIndent.Text.Lowercase

/-!
# ScriptIndent.Config.Setting

The settings, the sections that they stand in, and how they are written.

A setting is addressed by a key, its section and its name with a dot between
them.  Written as a text, a setting is a whole number, a flag or a word.
-/

namespace ScriptIndent

/-- A section of the configuration. -/
inductive Section where
  | indent
  | display
  deriving DecidableEq, Repr

/-- A setting. -/
inductive Setting where
  | indentSize
  | indentType
  | switchCase
  | indentScript
  | symbols
  | format
  deriving DecidableEq, Repr

namespace Section

def all : List Section := [.indent, .display]

def name : Section → String
  | .indent => "indent"
  | .display => "display"

/-- The section of a name. -/
def ofName? (name : String) : Option Section := all.find? (·.name = name)

/-- The settings in a section, in the order in which they are listed. -/
def settings : Section → List Setting
  | .indent => [.indentSize, .indentType, .switchCase, .indentScript]
  | .display => [.symbols, .format]

end Section

/-- What a setting is. -/
inductive SettingKind where
  | number
  | flag
  | word
  deriving DecidableEq, Repr

/-- A value that a setting cannot take. -/
inductive InvalidSetting where
  /-- A text for a setting does not spell a whole number. -/
  | notInteger (setting : Setting) (text : String)
  | invalid (setting : Setting) (value : Value)

namespace Setting

def all : List Setting := Section.all.flatMap (·.settings)

def name : Setting → String
  | .indentSize => "indent_size"
  | .indentType => "indent_type"
  | .switchCase => "switch_case"
  | .indentScript => "indent_script"
  | .symbols => "symbols"
  | .format => "format"

/-- The setting of a name. -/
def ofName? (name : String) : Option Setting := all.find? (·.name = name)

/-- The section that a setting stands in. -/
def sectionOf : Setting → Section
  | .symbols | .format => .display
  | _ => .indent

def kind : Setting → SettingKind
  | .indentSize | .switchCase => .number
  | .indentScript => .flag
  | _ => .word

/-- The texts that raise a flag, in small letters. -/
def raised : List String := ["true", "1", "yes"]

/-- The value that a text spells for a setting.  A text that does not raise a
flag lowers it, and a word is any text. -/
def ofText (setting : Setting) (text : String) : Except InvalidSetting Value :=
  match setting.kind with
  | .number =>
    match Text.integer? text with
    | some i => .ok (.int i)
    | none => .error (.notInteger setting text)
  | .flag => .ok (.bool (raised.contains (Text.lowercase text)))
  | .word => .ok (.string text)

end Setting

/-- The message for a value that a setting cannot take. -/
def InvalidSetting.message : InvalidSetting → String
  | .notInteger setting text => s!"Invalid value for {setting.name}: '{text}' is not an integer"
  | .invalid .indentType v => s!"Unknown indent type '{v.text}'. Valid: space, tab"
  | .invalid .indentSize v => s!"Invalid indent size '{v.text}'. Must be a positive integer"
  | .invalid .switchCase v => s!"Invalid switch case level '{v.text}'. Must be 0 or more"
  | .invalid .indentScript v => s!"Invalid indent_script '{v.text}'. Must be true or false"
  | .invalid .symbols v => s!"Unknown symbols setting '{v.text}'. Valid: unicode, ascii, auto"
  | .invalid .format v => s!"Unknown format '{v.text}'. Valid: text, json"

/-! ## keys -/

/-- Why a key addresses no setting. -/
inductive KeyError where
  | malformed (key : String)
  | unknownSection (name : String)
  | unknownSetting (within : Section) (name : String)
  deriving DecidableEq, Repr

def KeyError.message : KeyError → String
  | .malformed key =>
    s!"Invalid key format: {key}. Use 'section.setting' (e.g., 'indent.indent_size')"
  | .unknownSection name =>
    let valid := ", ".intercalate (Section.all.map Section.name)
    s!"Unknown section: {name}. Valid: {valid}"
  | .unknownSetting part name =>
    let valid := ", ".intercalate (part.settings.map Setting.name)
    s!"Unknown {part.name} setting: {name}. Valid: {valid}"

/-- The setting that a key addresses. -/
def Setting.ofKey (key : String) : Except KeyError Setting :=
  match (key.toList.splitOn '.').map String.ofList with
  | [first, second] =>
    match Section.ofName? first with
    | none => .error (.unknownSection first)
    | some part =>
      match part.settings.find? (·.name = second) with
      | none => .error (.unknownSetting part second)
      | some setting => .ok setting
  | _ => .error (.malformed key)

end ScriptIndent
