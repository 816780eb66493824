import ScriptIndent.Check.Analysis
import ScriptIndent.Check.Violation

/-!
# ScriptIndent.Check.Result

The result of checking one source: the violations, or why there is no telling.
-/

namespace ScriptIndent

/-- The result for one file or one text. -/
structure CheckResult where
  path : Option String
  violations : List Violation := []
  /-- The expected levels of the judged lines. -/
  levels : LineLevels := []
  error : Option String := none
  /-- The file was not looked into. -/
  skipped : Bool := false
  deriving DecidableEq, Repr

namespace CheckResult

/-- There is nothing to complain about. -/
def ok (r : CheckResult) : Bool := r.error.isNone && r.violations.isEmpty

/-- The number of judged lines. -/
def checkedLines (r : CheckResult) : Nat := r.levels.length

end CheckResult

/-- A line judged by its indentation, a list of spaces and tabs: it has to be
as many characters of the style's unit as the level asks for, and no others. -/
def Style.violation? (style : Style) (indentation : List UInt8) (line : Nat) (level : Int) :
    Option Violation :=
  let spaces := indentation.count Bytes.space
  let tabs := indentation.count Bytes.tab
  let expected := level * style.width
  let (right, wrong) := match style.unit with
    | .tab => (tabs, spaces)
    | .space => (spaces, tabs)
  if (right : Int) = expected ∧ wrong = 0 then none
  else some ⟨line, level, expected, spaces, tabs, style.unit⟩

namespace Source

/-- The violations of a style on lines with given levels. -/
def violations (s : Source) (style : Style) (levels : LineLevels) : List Violation :=
  levels.filterMap fun (line, level) =>
    style.violation? (s.buffer.indentation line) line level

/-- The result of a source with given levels. -/
def result (s : Source) (style : Style) (levels : LineLevels) : CheckResult :=
  { path := s.path, violations := s.violations style levels, levels }

end Source

/-- The outcome of judging a text: notices, and what was found. -/
structure Judged (α : Type) where
  notices : List Notice
  result : Except Failure α

namespace Judged

/-- Judge a text: read it, analyze the source, and finish with the levels. -/
def of {α : Type} (languages : Languages) (parsers : Parsers) (style : Style) (bytes : Bytes)
    (path : Option String) (finish : Source → LineLevels → α) : Judged α :=
  let reading := Source.read languages parsers style.layout bytes path
  match reading.result with
  | .error problem => ⟨reading.notices, .error (.problem problem)⟩
  | .ok source =>
    let analysis := source.analyze style.caseLevels
    ⟨reading.notices ++ analysis.notices, (source.checkedLevels analysis).map (finish source)⟩

end Judged

/-- The expected level of each judged line of a text. -/
def expectedLevels (languages : Languages) (parsers : Parsers) (style : Style) (bytes : Bytes)
    (path : Option String) : Judged LineLevels :=
  .of languages parsers style bytes path fun _ levels => levels

/-- Check a text. -/
def check (languages : Languages) (parsers : Parsers) (style : Style) (bytes : Bytes)
    (path : Option String) : Judged CheckResult :=
  .of languages parsers style bytes path fun source levels => source.result style levels

end ScriptIndent
