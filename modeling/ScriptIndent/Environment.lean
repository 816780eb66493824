import ScriptIndent.Dictionary

/-!
# ScriptIndent.Environment

The environment in which the program runs: named texts.
-/

namespace ScriptIndent

/-- The variables of the environment. -/
abbrev Environment := Dictionary String

namespace Environment

/-- The value of a variable, empty if it is not set. -/
def value (e : Environment) (name : String) : String := (Dictionary.get? e name).getD ""

/-- The value of a variable, if it is set and not empty. -/
def given? (e : Environment) (name : String) : Option String :=
  (Dictionary.get? e name).filter (· != "")

end Environment

end ScriptIndent
