import ScriptIndent.Check.Style
import ScriptIndent.Config.Setting
import ScriptIndent.Output.Symbols
import ScriptIndent.Report.Format

/-!
# ScriptIndent.Config.Preferences

Preferences: valid values for all settings.

`Settings` hold a value of any kind for each setting, and `Settings.validate`
makes preferences of them, or finds the first setting that is not valid.
Preferences taken for settings give themselves again (`validate_settings`).
-/

namespace ScriptIndent

/-- A value for each setting, valid or not. -/
abbrev Settings := Setting → Value

/-- What the user prefers. -/
structure Preferences where
  style : Style := {}
  symbols : SymbolChoice := .auto
  format : ReportFormat := .text
  deriving DecidableEq, Repr

/-- The settings of preferences. -/
def Preferences.settings (p : Preferences) : Settings
  | .indentSize => .int p.style.size
  | .indentType => .string p.style.unit.name
  | .switchCase => .int p.style.caseLevels
  | .indentScript => .bool p.style.indentScript
  | .symbols => .string p.symbols.name
  | .format => .string p.format.name

namespace Value

/-- A whole number from a bound on. -/
def atLeast? (bound : Int) : Value → Option Int
  | .int i => if bound ≤ i then some i else none
  | _ => none

def flag? : Value → Option Bool
  | .bool b => some b
  | _ => none

/-- A word that names something. -/
def named? {α : Type} (ofName? : String → Option α) : Value → Option α
  | .string s => ofName? s
  | _ => none

end Value

namespace Settings

/-- The settings that hold where nothing else is said. -/
def initial : Settings := Preferences.settings {}

/-- Give a setting a value. -/
def put (s : Settings) (setting : Setting) (value : Value) : Settings :=
  fun other => if other = setting then value else s other

/-- Characters for one level: the size, and one tab. -/
def width (s : Settings) : Value :=
  match s .indentType with
  | .string "tab" => .int 1
  | _ => s .indentSize

/-- What a setting's value stands for. -/
def read {α : Type} (s : Settings) (setting : Setting) (f : Value → Option α) :
    Except InvalidSetting α :=
  match f (s setting) with
  | some a => .ok a
  | none => .error (.invalid setting (s setting))

/-- The style that settings ask for. -/
def style (s : Settings) : Except InvalidSetting Style := do
  let unit ← s.read .indentType (Value.named? IndentUnit.ofName?)
  let size ← s.read .indentSize (Value.atLeast? 1)
  let caseLevels ← s.read .switchCase (Value.atLeast? 0)
  let indentScript ← s.read .indentScript Value.flag?
  return { size, unit, caseLevels, indentScript }

/-- The display that settings ask for. -/
def display (s : Settings) : Except InvalidSetting (SymbolChoice × ReportFormat) := do
  let symbols ← s.read .symbols (Value.named? SymbolChoice.ofName?)
  let format ← s.read .format (Value.named? ReportFormat.ofName?)
  return (symbols, format)

/-- The preferences that settings ask for. -/
def validate (s : Settings) : Except InvalidSetting Preferences := do
  let style ← s.style
  let (symbols, format) ← s.display
  return { style, symbols, format }

/-! ## preferences as settings -/

theorem read_eq_ok {α : Type} {s : Settings} {setting : Setting} {f : Value → Option α} {a : α}
    (h : f (s setting) = some a) : s.read setting f = .ok a := by
  simp only [read, h]

/-- Preferences taken for settings are valid, if their numbers are in range,
and give themselves again. -/
theorem validate_settings {p : Preferences} (hsize : 1 ≤ p.style.size)
    (hlevels : 0 ≤ p.style.caseLevels) : p.settings.validate = .ok p := by
  have hunit : p.settings.read .indentType (Value.named? IndentUnit.ofName?) = .ok p.style.unit :=
    read_eq_ok (IndentUnit.ofName?_name _)
  have hs : p.settings.read .indentSize (Value.atLeast? 1) = .ok p.style.size :=
    read_eq_ok (if_pos hsize)
  have hc : p.settings.read .switchCase (Value.atLeast? 0) = .ok p.style.caseLevels :=
    read_eq_ok (if_pos hlevels)
  have hi : p.settings.read .indentScript Value.flag? = .ok p.style.indentScript :=
    read_eq_ok rfl
  have hy : p.settings.read .symbols (Value.named? SymbolChoice.ofName?) = .ok p.symbols :=
    read_eq_ok (SymbolChoice.ofName?_name _)
  have hf : p.settings.read .format (Value.named? ReportFormat.ofName?) = .ok p.format :=
    read_eq_ok (ReportFormat.ofName?_name _)
  simp only [validate, style, display, hunit, hs, hc, hi, hy, hf]
  rfl

end Settings

end ScriptIndent
