import ScriptIndent.Check.Style
import ScriptIndent.Problem
import ScriptIndent.Rule.Visit
import ScriptIndent.Source.Reading

/-!
# ScriptIndent.Check.Analysis

The analysis of a source: its nodes are visited, parents before children, and
what the rules draft is recorded.

Comments are not visited.  Nothing below a node without a rule is visited; such
a node is told of, and the lines that it covers are not judged.
-/

namespace ScriptIndent

namespace Node

mutual

/-- The nodes of a tree that are visited, in order, each with the nodes above
it. -/
def visited (ancestors : List Node) : Node → List Placed
  | n@⟨kind, _, _, _, _, _, _, children⟩ =>
    if isCommentKind kind then []
    else if (Construct.ofKind? kind).isNone then [⟨n, ancestors⟩]
    else ⟨n, ancestors⟩ :: visitedAmong (n :: ancestors) children

/-- The visited nodes of the named trees in a list. -/
def visitedAmong (ancestors : List Node) : List Node → List Placed
  | [] => []
  | n :: rest =>
    (if n.isNamed then visited ancestors n else []) ++ visitedAmong ancestors rest

end

end Node

/-- What the visits to nodes have led to: the registry, the notices on the way,
and the fault at which they ended, if any. -/
structure Analysis where
  registry : Registry := {}
  notices : List Notice := []
  fault : Option Fault := none

namespace Analysis

/-- Visit one more node. -/
def visit (s : Source) (caseLevels : Int) (a : Analysis) (place : Node.Placed) : Analysis :=
  match Rule.visit? s caseLevels place with
  | some draft =>
    { a with
      registry := a.registry.record draft.writes
      fault := match draft.result with | .error e => some e | .ok _ => none }
  | none =>
    { a with
      registry := a.registry.ignore (s.first? place.node) (s.last? place.node)
      notices := a.notices ++ [.noRule place.node.kind (s.lineOfNode place.node)] }

/-- Visit nodes in turn, up to the first fault. -/
def visitAll (s : Source) (caseLevels : Int) (a : Analysis) : List Node.Placed → Analysis
  | [] => a
  | place :: rest =>
    let a := a.visit s caseLevels place
    if a.fault.isSome then a else a.visitAll s caseLevels rest

end Analysis

namespace Source

/-- The analysis of a source. -/
def analyze (s : Source) (caseLevels : Int) : Analysis :=
  ({} : Analysis).visitAll s caseLevels (s.root.visited [])

/-- The levels of lines, without the lines on which a block of script starts:
such a line has the indentation of a tag. -/
def withoutBlockStarts (s : Source) (levels : LineLevels) : LineLevels :=
  levels.filter fun (line, _) => !s.blocks.any fun b => s.buffer.lineOf b.start = line

/-- The expected level of each judged line, after an analysis. -/
def checkedLevels (s : Source) (a : Analysis) : Except Failure LineLevels :=
  match a.fault with
  | some fault => .error (.ofFault fault)
  | none =>
    match (a.registry.settle [] s.lines).result with
    | .error cycle => .error (.problem (.ofCycle cycle))
    | .ok levels => .ok (s.withoutBlockStarts levels)

end Source

end ScriptIndent
