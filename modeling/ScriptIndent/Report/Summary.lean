import ScriptIndent.Check.Result
import ScriptIndent.Report.Json

/-!
# ScriptIndent.Report.Summary

What the results of a check amount to, and the report for machines.
-/

namespace ScriptIndent

/-- Numbers over all results. -/
structure Summary where
  files : Nat
  /-- Violations. -/
  problems : Nat
  /-- Files that could not be checked. -/
  errors : Nat
  /-- Files that were not looked into. -/
  skipped : Nat
  deriving DecidableEq, Repr

namespace Summary

def of (results : List CheckResult) : Summary where
  files := results.length
  problems := (results.flatMap (·.violations)).length
  errors := results.countP (·.error.isSome)
  skipped := results.countP (·.skipped)

def toJson (s : Summary) : Json :=
  .object [("files", .number s.files), ("problems", .number s.problems),
    ("errors", .number s.errors), ("skipped", .number s.skipped)]

end Summary

def Violation.toJson (v : Violation) : Json :=
  .object [("line", .number v.line), ("level", .number v.level),
    ("expected", .number v.expected), ("actual", .number v.actual),
    ("message", .string v.message)]

/-- The members of a result.  An error and the mark of a skipped file are left
out where there are none. -/
def CheckResult.jsonMembers (r : CheckResult) : List (String × Json) :=
  [("path", r.path.elim .null .string),
    ("violations", .array (r.violations.map Violation.toJson)),
    ("checked_lines", .number r.checkedLines)]
    ++ (r.error.map fun e => ("error", Json.string e)).toList
    ++ (if r.skipped then [("skipped", .bool true)] else [])

def CheckResult.toJson (r : CheckResult) : Json := .object r.jsonMembers

/-- The report for machines. -/
def jsonReport (results : List CheckResult) : String :=
  (Json.object [("results", .array (results.map CheckResult.toJson)),
    ("summary", (Summary.of results).toJson)]).render

end ScriptIndent
