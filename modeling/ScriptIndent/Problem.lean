import ScriptIndent.Offset.Resolver
import ScriptIndent.Rule.Draft
import ScriptIndent.Text.Quoted

/-!
# ScriptIndent.Problem

What can go wrong with a source or a configuration, and the messages for it.

A text that does not parse and a configuration that is not valid are the
user's.  A missing token and a cycle of offsets are defects of the rules, or of
the tree that they were given.
-/

namespace ScriptIndent

/-- Anything that is reported for a file, instead of its violations. -/
inductive Problem where
  /-- A problem without a cause of its own, from the parts of its message. -/
  | general (parts : List String)
  | configuration (message : String)
  /-- A text cannot be parsed, or not into a tree that can be used. -/
  | unparsed (message : String) (path : Option String) (line : Option Int)
  | tokenNotFound (description nodeKind : String) (line : Int)
  | cycle (line : Int) (value : String)
  deriving DecidableEq, Repr

namespace Problem

/-- One part of a message stands for itself, and several are listed. -/
def ofParts : List String → String
  | [] => ""
  | [part] => part
  | parts => "(" ++ ", ".intercalate (parts.map Text.quoted) ++ ")"

/-- Where a text comes from: its path and the line, as far as they are known. -/
def location (path : Option String) (line : Option Int) : String :=
  let file := (path.filter (· != "")).getD "<source>"
  match line with
  | some line => s!"{file}:{line}"
  | none => file

/-- The message of a problem. -/
def message : Problem → String
  | .general parts => ofParts parts
  | .configuration message => message
  | .unparsed message path line => s!"{location path line}: {message}"
  | .tokenNotFound description nodeKind line =>
    s!"Expected {description} in {nodeKind} at line {line}"
  | .cycle line value => s!"Cyclic offset chain through {Text.quoted value} at line {line}"

/-- The problem with a chain of bases that comes back to a token. -/
def ofCycle (c : Cycle) : Problem := .cycle c.token.line c.token.value

end Problem

/-- Why an analysis ended without a result: with a problem to report, or at a
tree too damaged to name one. -/
inductive Failure where
  | problem (p : Problem)
  | damaged (d : Damage)
  deriving DecidableEq, Repr

/-- The failure that a rule's fault amounts to. -/
def Failure.ofFault : Fault → Failure
  | .tokenNotFound description nodeKind line =>
    .problem (.tokenNotFound description nodeKind line)
  | .damaged d => .damaged d

end ScriptIndent
