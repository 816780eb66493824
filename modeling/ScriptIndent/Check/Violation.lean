import ScriptIndent.Check.Style

/-!
# ScriptIndent.Check.Violation

A line that is not indented as expected, and the message for it.
-/

namespace ScriptIndent

/-- A count with its noun. -/
def counted (count : Int) (singular plural : String) : String :=
  if count = 1 then s!"{count} {singular}" else s!"{count} {plural}"

/-- A line whose indentation is not the expected one. -/
structure Violation where
  line : Int
  level : Int
  /-- The expected number of characters. -/
  expected : Int
  /-- The spaces found. -/
  spaces : Int
  /-- The tabs found. -/
  tabs : Int
  unit : IndentUnit
  deriving DecidableEq, Repr

namespace Violation

/-- The number of characters found. -/
def actual (v : Violation) : Int := v.spaces + v.tabs

/-- A count of spaces or tabs. -/
def units (unit : IndentUnit) (count : Int) : String :=
  counted count unit.name (unit.name ++ "s")

/-- What was found.  If only the expected characters were found, their number
says enough. -/
def found (v : Violation) : String :=
  if v.spaces ≠ 0 ∧ v.tabs ≠ 0 then s!"{units .space v.spaces} and {units .tab v.tabs}"
  else if v.spaces ≠ 0 then
    if v.unit = .space then s!"{v.spaces}" else units .space v.spaces
  else if v.tabs ≠ 0 then if v.unit = .tab then s!"{v.tabs}" else units .tab v.tabs
  else "0"

def message (v : Violation) : String :=
  s!"Expected indentation of {units v.unit v.expected} but found {v.found}."

end Violation

end ScriptIndent
