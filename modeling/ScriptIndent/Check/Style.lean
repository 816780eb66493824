import ScriptIndent.Host.Script

/-!
# ScriptIndent.Check.Style

The style of indentation that is asked for.
-/

namespace ScriptIndent

/-- What lines are indented with. -/
inductive IndentUnit where
  | space
  | tab
  deriving DecidableEq, Repr

namespace IndentUnit

def name : IndentUnit → String
  | .space => "space"
  | .tab => "tab"

def ofName? (name : String) : Option IndentUnit :=
  if name = "space" then some .space else if name = "tab" then some .tab else none

theorem ofName?_name (u : IndentUnit) : ofName? u.name = some u := by cases u <;> rfl

end IndentUnit

/-- A style of indentation. -/
structure Style where
  /-- The number of spaces for one level; tabs do not heed it. -/
  size : Int := 2
  unit : IndentUnit := .space
  /-- How deep clauses lie in a switch statement. -/
  caseLevels : Int := 1
  /-- Script in a host document is indented past its tag. -/
  indentScript : Bool := true
  deriving DecidableEq, Repr

namespace Style

/-- The number of characters for one level. -/
def width (style : Style) : Int :=
  match style.unit with
  | .tab => 1
  | .space => style.size

/-- The style of the script in a host document. -/
def layout (style : Style) : Host.Layout := ⟨style.indentScript, style.width⟩

end Style

end ScriptIndent
