import Mathlib
import ScriptIndent.Command.Run

/-!
# ScriptIndent.Proofs.Report.Totals

A report, its totals and the exit code tell the same.

```
✗ a.js                        an error: two lines, no violations
  [Errno 2] …
b.js                          violations: the name, and a line for each of them
  3  Expected …

✗ 1 problem, 1 file error     the last line, which begins with the mark of failure unless the
                              exit code is 0
```

The report for people, the report for machines, the totals and the exit code are each made by a
walk of its own over the results.  They agree on all results of which none has both an error and
violations (`Agrees.of_results`).
-/

namespace ScriptIndent

/-! ## the last line of a text -/

/-- What stands behind the last line feed of a text. -/
def lastLine (cs : List Char) : List Char := (cs.reverse.takeWhile (· != '\n')).reverse

private theorem lastLine_of_not_mem {cs : List Char} (h : '\n' ∉ cs) : lastLine cs = cs := by
  rw [lastLine, List.takeWhile_eq_self_iff.2, List.reverse_reverse]
  intro c hc
  rw [bne_iff_ne]
  rintro rfl
  exact h (List.mem_reverse.1 hc)

private theorem lastLine_append_feed (cs ds : List Char) : lastLine (cs ++ '\n' :: ds) = lastLine ds := by
  rw [lastLine, lastLine, List.reverse_append, List.reverse_cons, List.append_assoc,
    List.takeWhile_append]
  split
  · next h =>
    rw [(List.takeWhile_prefix _).eq_of_length h]
    simp
  · rfl

/-- The last of several lines. -/
theorem lastLine_intercalate (lines : List String) {line : String} (h : '\n' ∉ line.toList) :
    lastLine ("\n".intercalate (lines ++ [line])).toList = line.toList := by
  rw [String.toList_intercalate, List.map_append, List.map_singleton]
  induction lines.map String.toList with
  | nil => simpa using lastLine_of_not_mem h
  | cons first rest ih =>
    rw [List.cons_append, List.intercalate_cons_of_ne_nil (by simp), List.append_assoc]
    calc lastLine (first ++ ('\n' :: _)) = lastLine _ := lastLine_append_feed first _
      _ = line.toList := ih

/-! ## counts -/

private theorem feed_not_mem_repr (n : Nat) : '\n' ∉ (n : Int).repr.toList := by
  intro h
  have hdigits : '\n' ∈ Nat.toDigits 10 n := Nat.toList_repr ▸ h
  have hdigit := Nat.isDigit_of_mem_toDigits (by decide) (by decide) hdigits
  simp at hdigit

private theorem feed_not_mem_counted {singular plural : String} (hs : '\n' ∉ singular.toList)
    (hp : '\n' ∉ plural.toList) (n : Nat) : '\n' ∉ (counted n singular plural).toList := by
  have hn := feed_not_mem_repr n
  have hspace : '\n' ∉ (toString " ").toList := by decide
  rw [counted]
  split <;> simp [String.toList_append, hn, hspace] <;> assumption

/-! ## the closing line -/

namespace Symbols

theorem choose_cases (choice : SymbolChoice) (supported : Bool) :
    choose choice supported = unicode ∨ choose choice supported = ascii := by
  cases choice with
  | unicode => exact .inl rfl
  | ascii => exact .inr rfl
  | auto => cases supported <;> simp [choose]

variable {symbols : Symbols}

private theorem feed_not_mem (h : symbols = unicode ∨ symbols = ascii) :
    '\n' ∉ symbols.pass.toList ∧ '\n' ∉ symbols.fail.toList := by
  rcases h with rfl | rfl <;> decide

/-- The mark of failure does not begin what begins with the mark of success. -/
theorem not_prefix_pass (h : symbols = unicode ∨ symbols = ascii) (cs : List Char) :
    ¬symbols.fail.toList <+: symbols.pass.toList ++ cs := by
  rcases h with rfl | rfl
  · have hfail : unicode.fail.toList = ['✗'] := by decide
    have hpass : unicode.pass.toList = ['✓'] := by decide
    simp [hfail, hpass]
  · have hfail : ascii.fail.toList = ['[', 'X', ']'] := by decide
    have hpass : ascii.pass.toList = ['[', 'O', 'K', ']'] := by decide
    simp [hfail, hpass]

end Symbols

namespace Summary

variable (s : Summary) {symbols : Symbols}

/-- The closing line begins with the mark of failure exactly if there are problems or errors. -/
theorem fail_prefix_iff (h : symbols = .unicode ∨ symbols = .ascii) :
    symbols.fail.toList <+: (s.closingLine symbols).toList ↔ s.hasProblems = true := by
  have hself : ∀ text : String, toString text = text := fun _ => rfl
  rw [closingLine]
  cases s.hasProblems with
  | true =>
    simp only [if_true, String.toList_append, hself, List.append_assoc]
    simp
  | false =>
    simp only [Bool.false_eq_true, if_false, String.toList_append, hself, List.append_assoc]
    simpa using symbols.not_prefix_pass h _

theorem feed_not_mem_count (singular : String) (h : '\n' ∉ singular.toList) (n : Nat) :
    '\n' ∉ (countText n singular none).toList := by
  have hplural : '\n' ∉ (singular ++ "s").toList := by simp [String.toList_append, h]
  exact feed_not_mem_counted h hplural n

/-- The closing line is one line. -/
theorem feed_not_mem_closingLine (h : symbols = .unicode ∨ symbols = .ascii)
    (hskipped : s.skipped ≤ s.files) : '\n' ∉ (s.closingLine symbols).toList := by
  have hself : ∀ text : String, toString text = text := fun _ => rfl
  obtain ⟨hpass, hfail⟩ := Symbols.feed_not_mem h
  have hproblems := feed_not_mem_count "problem" (by decide) s.problems
  have herrors := feed_not_mem_count "file error" (by decide) s.errors
  have hfiles := feed_not_mem_count "file" (by decide) (s.files - s.skipped)
  rw [Int.ofNat_sub hskipped] at hfiles
  rw [closingLine]
  split
  · rw [String.toList_append, String.toList_intercalate]
    split <;> simp [String.toList_append, hself, hfail, hproblems, herrors]
  · simp [String.toList_append, hself, hpass, hfiles]

end Summary

/-! ## what reports list -/

/-- The value of a member of an object. -/
def Json.member? (key : String) : Json → Option Json
  | .object members => members.lookup key
  | _ => none

namespace CheckResult

variable (r : CheckResult)

/-- The violations that the report for people lists for a result. -/
def listed : List Violation := if r.error.isSome then [] else r.violations

/-- Beside the lines of listed violations, a result has two lines for an error, or one for its
name if there are violations. -/
def headingLines : Nat := if r.error.isSome then 2 else if r.violations.isEmpty then 0 else 1

theorem exists_reportLines (symbols : Symbols) :
    ∃ heading width, r.reportLines symbols = heading ++ r.listed.map (·.reportLine width) ∧
      heading.length = r.headingLines := by
  rw [reportLines, listed, headingLines]
  cases r.error with
  | some error => exact ⟨_, 0, (List.append_nil _).symm, rfl⟩
  | none =>
    cases hlast : r.violations.getLast? with
    | none =>
      rw [List.getLast?_eq_none_iff.1 hlast]
      exact ⟨[], 0, rfl, rfl⟩
    | some last =>
      refine ⟨[r.label], _, rfl, ?_⟩
      cases hviolations : r.violations with
      | nil => simp [hviolations] at hlast
      | cons => rfl

/-- The report for machines lists all violations, and says of a result that it is an error or
skipped only if it is. -/
theorem member?_toJson :
    r.toJson.member? "violations" = some (.array (r.violations.map Violation.toJson)) ∧
      r.toJson.member? "error" = r.error.map .string ∧
      r.toJson.member? "skipped" = if r.skipped then some (.bool true) else none := by
  rw [toJson, jsonMembers]
  cases r.error <;> cases r.skipped <;> simp [Json.member?, List.lookup]

end CheckResult

/-- The reports, the totals and the exit code for some results tell the same. -/
structure Agrees (symbols : Symbols) (results : List CheckResult) (exit : Nat) : Prop where
  exit_two : exit = 2 ↔ ∃ r ∈ results, r.error ≠ none
  exit_one : exit = 1 ↔ (∀ r ∈ results, r.error = none) ∧ ∃ r ∈ results, r.violations ≠ []
  exit_zero : exit = 0 ↔ ∀ r ∈ results, r.error = none ∧ r.violations = []
  problems : (Summary.of results).problems = (results.map fun r => r.listed.length).sum
  errors : (Summary.of results).errors = results.countP fun r => r.error ≠ none
  skipped : (Summary.of results).skipped = results.countP fun r => r.skipped
  /-- The report for people has a line for each listed violation, headings apart. -/
  lines : (results.flatMap (·.reportLines symbols)).length =
    (Summary.of results).problems + (results.map CheckResult.headingLines).sum
  /-- The report for machines lists as many violations. -/
  json : ∀ r ∈ results,
    (∃ items, r.toJson.member? "violations" = some (.array items) ∧
      items.length = r.listed.length) ∧
    ((r.toJson.member? "error").isSome ↔ r.error ≠ none) ∧
    ((r.toJson.member? "skipped").isSome ↔ r.skipped = true)
  /-- The last line of the report for people tells failure from success. -/
  fails : symbols.fail.toList <+: lastLine (textReport symbols results).toList ↔ exit ≠ 0
  /-- After success it gives the number of files that were judged. -/
  passes : exit = 0 → lastLine (textReport symbols results).toList =
    (s!"{symbols.pass} " ++ countText (results.countP fun r => !r.skipped && r.error.isNone)
      "file" none ++ " checked, no problems").toList

section

variable {symbols : Symbols} {results : List CheckResult}

theorem exitCode_eq : Outcome.exitCode results =
    if ∃ r ∈ results, r.error ≠ none then 2
    else if ∃ r ∈ results, r.violations ≠ [] then 1 else 0 := by
  simp [Outcome.exitCode, Option.isSome_iff_ne_none]

theorem exitCode_eq_two : Outcome.exitCode results = 2 ↔ ∃ r ∈ results, r.error ≠ none := by
  rw [exitCode_eq]
  split
  · next herror => exact iff_of_true rfl herror
  · next hnone => exact iff_of_false (by split <;> decide) hnone

theorem exitCode_eq_one : Outcome.exitCode results = 1 ↔
    (∀ r ∈ results, r.error = none) ∧ ∃ r ∈ results, r.violations ≠ [] := by
  rw [exitCode_eq]
  split
  · next herror =>
    obtain ⟨r, hr, herror⟩ := herror
    exact iff_of_false (by decide) fun h => herror (h.1 r hr)
  · next hnone =>
    have hnone : ∀ r ∈ results, r.error = none := by simpa using hnone
    split
    · next hviolations => exact iff_of_true rfl ⟨hnone, hviolations⟩
    · next hclean => exact iff_of_false (by decide) fun h => hclean h.2

theorem exitCode_eq_zero :
    Outcome.exitCode results = 0 ↔ ∀ r ∈ results, r.error = none ∧ r.violations = [] := by
  rw [exitCode_eq]
  split
  · next herror =>
    obtain ⟨r, hr, herror⟩ := herror
    exact iff_of_false (by decide) fun h => herror (h r hr).1
  · next hnone =>
    have hnone : ∀ r ∈ results, r.error = none := by simpa using hnone
    split
    · next hviolations =>
      obtain ⟨r, hr, hviolations⟩ := hviolations
      exact iff_of_false (by decide) fun h => hviolations (h r hr).2
    · next hclean =>
      have hclean : ∀ r ∈ results, r.violations = [] := by simpa using hclean
      exact iff_of_true rfl fun r hr => ⟨hnone r hr, hclean r hr⟩

theorem lastLine_textReport (h : symbols = .unicode ∨ symbols = .ascii) :
    lastLine (textReport symbols results).toList =
      ((Summary.of results).closingLine symbols).toList :=
  lastLine_intercalate _ (Summary.feed_not_mem_closingLine _ h List.countP_le_length)

/-- There are problems or errors exactly if the exit code says so. -/
theorem hasProblems_iff : (Summary.of results).hasProblems = true ↔ Outcome.exitCode results ≠ 0 := by
  have hproblems : (Summary.of results).problems = 0 ↔ ∀ r ∈ results, r.violations = [] := by
    rw [Summary.of, List.length_eq_zero_iff, List.flatMap_eq_nil_iff]
  have herrors : (Summary.of results).errors = 0 ↔ ∀ r ∈ results, r.error = none := by
    rw [Summary.of, List.countP_eq_zero]
    simp
  rw [ne_eq, exitCode_eq_zero, forall₂_and, ← hproblems, ← herrors, Summary.hasProblems]
  simp only [Bool.or_eq_true, bne_iff_ne]
  tauto

/-- If no result has both an error and violations, all is told alike. -/
theorem Agrees.of_results (h : symbols = .unicode ∨ symbols = .ascii)
    (hresults : ∀ r ∈ results, r.error ≠ none → r.violations = []) :
    Agrees symbols results (Outcome.exitCode results) := by
  have hlisted : ∀ r ∈ results, r.listed = r.violations := by
    intro r hr
    rw [CheckResult.listed]
    split
    · next herror => exact (hresults r hr (Option.isSome_iff_ne_none.1 herror)).symm
    · rfl
  have hproblems : (Summary.of results).problems = (results.map fun r => r.listed.length).sum := by
    rw [Summary.of, List.length_flatMap]
    exact congrArg List.sum (List.map_congr_left fun r hr => by rw [hlisted r hr])
  constructor
  case exit_two => exact exitCode_eq_two
  case exit_one => exact exitCode_eq_one
  case exit_zero => exact exitCode_eq_zero
  case problems => exact hproblems
  case errors => exact List.countP_congr fun r _ => by simp [Option.isSome_iff_ne_none]
  case skipped => rfl
  case lines =>
    rw [hproblems, List.length_flatMap, ← List.sum_map_add]
    refine congrArg List.sum (List.map_congr_left fun r _ => ?_)
    obtain ⟨heading, width, hlines, hlength⟩ := r.exists_reportLines symbols
    rw [hlines, List.length_append, List.length_map, hlength, Nat.add_comm]
  case json =>
    intro r hr
    obtain ⟨hviolations, herror, hskipped⟩ := r.member?_toJson
    rw [hviolations, herror, hskipped, hlisted r hr]
    refine ⟨⟨_, rfl, by simp⟩, by simp [Option.isSome_iff_ne_none], ?_⟩
    cases r.skipped <;> simp
  case fails => rw [lastLine_textReport h, Summary.fail_prefix_iff _ h, hasProblems_iff]
  case passes =>
    intro hexit
    have hclean := exitCode_eq_zero.1 hexit
    have hno : (Summary.of results).hasProblems = false := by
      rw [Bool.eq_false_iff, ne_eq, hasProblems_iff, hexit]
      simp
    have hjudged : results.countP (fun r => !r.skipped && r.error.isNone) =
        results.countP (fun r => ¬r.skipped) :=
      List.countP_congr fun r hr => by simp [(hclean r hr).1]
    have hfiles : ((Summary.of results).files : Int) - (Summary.of results).skipped =
        results.countP fun r => ¬r.skipped := by
      have := List.length_eq_countP_add_countP (fun r : CheckResult => r.skipped) (l := results)
      simp only [Summary.of] at this ⊢
      omega
    rw [lastLine_textReport h, Summary.closingLine, hno, hfiles, hjudged]
    rfl

end

end ScriptIndent
