import ScriptIndent.Output.Symbols
import ScriptIndent.Report.Format
import ScriptIndent.Report.Summary
import ScriptIndent.Text.Blank

/-!
# ScriptIndent.Report.Text

The report for people, and the listing of a source with its levels.
-/

namespace ScriptIndent

/-- A text moved to the right in a column of a given width. -/
def alignRight (width : Nat) (s : String) : String :=
  String.ofList (List.replicate (width - s.length) ' ') ++ s

/-- A text moved to the left in a column of a given width. -/
def alignLeft (width : Nat) (s : String) : String :=
  s ++ String.ofList (List.replicate (width - s.length) ' ')

/-! ## report -/

/-- A count with its noun.  The plural is formed with an s unless given. -/
def countText (count : Int) (singular : String) (plural : Option String) : String :=
  counted count singular ((plural.filter (· != "")).getD (singular ++ "s"))

/-- The name of a result in the report. -/
def CheckResult.label (r : CheckResult) : String := (r.path.filter (· != "")).getD "<text>"

/-- The line of the report for a violation. -/
def Violation.reportLine (width : Nat) (v : Violation) : String :=
  s!"  {alignRight width (toString v.line)}  {v.message}"

/-- The lines of the report for a result; there are none if there is nothing to
complain about.  Line numbers are aligned with the last of them. -/
def CheckResult.reportLines (symbols : Symbols) (r : CheckResult) : List String :=
  match r.error with
  | some error => [s!"{symbols.fail} {r.label}", s!"  {error}"]
  | none =>
    match r.violations.getLast? with
    | none => []
    | some last => r.label :: r.violations.map (·.reportLine (toString last.line).length)

/-- There are problems or errors. -/
def Summary.hasProblems (s : Summary) : Bool := s.problems != 0 || s.errors != 0

/-- The last line of the report. -/
def Summary.closingLine (symbols : Symbols) (s : Summary) : String :=
  if s.hasProblems then
    let problems := countText s.problems "problem" none
    let errors := if s.errors = 0 then [] else [countText s.errors "file error" none]
    s!"{symbols.fail} " ++ ", ".intercalate (problems :: errors)
  else
    let checked := countText ((s.files : Int) - s.skipped) "file" none
    s!"{symbols.pass} {checked} checked, no problems"

/-- The report for people: the results with problems, and a closing line, apart
from them by an empty line. -/
def textReport (symbols : Symbols) (results : List CheckResult) : String :=
  let summary := Summary.of results
  let lines := results.flatMap (·.reportLines symbols)
  let gap := if lines.isEmpty || !summary.hasProblems then [] else [""]
  "\n".intercalate (lines ++ gap ++ [summary.closingLine symbols])

/-- The report in a format. -/
def report (format : ReportFormat) (symbols : Symbols) (results : List CheckResult) : String :=
  match format with
  | .json => jsonReport results
  | .text => textReport symbols results

/-! ## listing -/

/-- A space or a tab. -/
def isIndentChar (c : Char) : Bool := c == ' ' || c == '\t'

/-- The line of the listing for a line of the source.  A line without a level
is shown as it is, unless it is blank. -/
def listingLine? (symbols : Symbols) (width : Nat) (line : Nat) (text : List Char)
    (level : Option Int) : Option String :=
  let number := alignRight width (toString line)
  match level with
  | some level =>
    let indent := symbols.visible (text.takeWhile isIndentChar)
    let rest := String.ofList (text.dropWhile isIndentChar)
    some (number ++ "  " ++ alignLeft 4 s!"L{level}" ++ indent ++ rest)
  | none =>
    if text.all Text.isBlank then none
    else some (number ++ "  " ++ alignLeft 4 "-" ++ String.ofList text)

/-- A source with the expected levels of its lines. -/
def listing (symbols : Symbols) (s : Source) (levels : LineLevels) : String :=
  let count := s.buffer.lineCount
  let width := (toString count).length
  "\n".intercalate ((List.range count).filterMap fun i =>
    listingLine? symbols width (i + 1) (Utf8.decode (s.buffer.lineBytes (i + 1))).toList
      (levels.lookup (i + 1)))

end ScriptIndent
