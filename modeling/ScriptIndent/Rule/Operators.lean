import ScriptIndent.Rule.Construct
import ScriptIndent.Rule.Draft

/-!
# ScriptIndent.Rule.Operators

Rules for operators.

The operators and right operands of a chain of binary constructs share one
anchor, the first token of the whole chain.  Conditional expressions that
continue in the alternative of one another share the first token of the
outermost one.
-/

namespace ScriptIndent.Rule

open Draft

/-- The outermost construct of the chain that a construct belongs to, given the
nodes above it.  A parenthesis directly before the chain ends it. -/
def chainTop (s : Source) (n : Node) : List Node → Node
  | [] => n
  | parent :: rest =>
    if Construct.isChainKind parent.kind && !(s.before? n).any Token.isOpeningParen then
      chainTop s parent rest
    else n

/-- Binary constructs: the operator and the right operand are indented from the
first token of the chain. -/
def chain (s : Source) (ancestors : List Node) (n : Node) : Draft Unit := do
  let left ← part .stop (n.field? "left")
  let operator ← require s n "operator" (s.afterWhere? Token.isNotClosingParen left)
  let right ← firstOf s (n.field? "right")
  let anchor ← firstOf s ((chainTop s n ancestors).field? "left")
  offsets [operator, right] 1 anchor

/-- The outermost conditional expression of which `base` is the alternative of
an alternative.  Parentheses around an alternative do not matter: `wrapper` is
`base` with the parentheses passed so far. -/
def ternaryTop (base wrapper : Node) : List Node → Node
  | [] => base
  | parent :: rest =>
    if parent.kind == "parenthesized_expression" then ternaryTop base parent rest
    else if parent.kind == "ternary_expression"
        && (parent.field? "alternative").any (·.same wrapper) then
      ternaryTop parent parent rest
    else base

/-- Conditional expressions: the mark and the colon are indented from the
outermost conditional expression, what follows each is indented from it. -/
def ternary (s : Source) (ancestors : List Node) (n : Node) : Draft Unit := do
  let condition ← part .stop (n.field? "condition")
  let question ← require s n "`?`" (s.afterWhere? Token.isNotClosingParen condition)
  let consequence ← part .stop (n.field? "consequence")
  let colon ← require s n "`:`" (s.afterWhere? Token.isNotClosingParen consequence)
  let anchor ← first s (ternaryTop n n ancestors)
  offsets [question, colon] 1 anchor
  offsets (s.after? question).toList 1 question
  offsets (s.after? colon).toList 1 colon

/-- Operators before or behind one operand, spreads and rests: the second token
is indented from the first. -/
def operand (s : Source) (n : Node) : Draft Unit := do
  let token ← first s n
  offsets (s.after? token).toList 1 token

/-- A yield with an operand: the star and the operand are indented. -/
def yielding (s : Source) (n : Node) : Draft Unit :=
  if n.codeChildren.isEmpty then pure ()
  else
    match s.firsts n 2 with
    | [keyword, second] => do
      offset second 1 keyword
      if second.value == "*" then offsets (s.after? second).toList 1 keyword
    | _ => pure ()

end ScriptIndent.Rule
