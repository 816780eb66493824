/-!
# ScriptIndent.Report.Format

The formats of a report.
-/

namespace ScriptIndent

/-- For whom a report is written. -/
inductive ReportFormat where
  /-- For people. -/
  | text
  /-- For machines. -/
  | json
  deriving DecidableEq, Repr

namespace ReportFormat

def name : ReportFormat → String
  | .text => "text"
  | .json => "json"

def ofName? (name : String) : Option ReportFormat :=
  if name = "text" then some .text else if name = "json" then some .json else none

theorem ofName?_name (f : ReportFormat) : ofName? f.name = some f := by cases f <;> rfl

/-- The format of a name; a name that is not known gives the one for people. -/
def named (name : String) : ReportFormat := (ofName? name).getD .text

end ReportFormat

end ScriptIndent
