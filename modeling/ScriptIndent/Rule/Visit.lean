import ScriptIndent.Rule.Access
import ScriptIndent.Rule.Functions
import ScriptIndent.Rule.Lists
import ScriptIndent.Rule.Modules
import ScriptIndent.Rule.Operators

/-!
# ScriptIndent.Rule.Visit

A visit to a node: its own rule, and then the rules common to all statements
and to all expressions.

A semicolon that ends its line is flush with the statement that it ends.  Each
pair of parentheses around an expression adds one level, whatever the rule of
the expression.
-/

namespace ScriptIndent.Rule

open Draft

/-! ## trailing semicolons -/

/-- The semicolon that ends a statement, if any.  That of a class field follows
the field. -/
def closingSemicolon? (s : Source) (n : Node) : Option Token :=
  let following := if n.kind == "field_definition" then s.after? n else none
  ((following.filter Token.isSemicolon).or (s.last? n)).filter Token.isSemicolon

/-- The semicolon at the end of a statement is flush with it, if no token
follows on the semicolon's line. -/
def trailingSemicolon (s : Source) (n : Node) : List Entry :=
  match s.first? n, closingSemicolon? s n with
  | some start, some semicolon =>
    if (s.after? semicolon).all (semicolon.line < ·.line) then
      Entry.offsets [semicolon] 0 (some start)
    else []
  | _, _ => []

/-! ## wrapping parentheses -/

/-- Place what a pair of parentheses wraps, a token `inner` first of all, one
level deeper than the opening one, and the closing one flush with that; then go
on with the pair around it.  The pair is looked for directly below one index and
directly from another one on. -/
def unwrapFrom (tokens : Array Token) (inner : Token) : Nat → Nat → List Entry
  | 0, _ => []
  | i + 1, j =>
    match tokens[i]?.filter Token.isOpeningParen, tokens[j]?.filter Token.isClosingParen with
    | some left, some right =>
      Entry.offsets [inner] 1 (some left) ++ Entry.offsets [right] 0 (some left)
        ++ unwrapFrom tokens left i (j + 1)
    | _, _ => []

/-- Each pair of parentheses around a node adds one level. -/
def wrappingParentheses (s : Source) (n : Node) : List Entry :=
  match s.first? n, s.last? n with
  | some start, some stop =>
    unwrapFrom s.tokens start (start.index.getD 0) (stop.index.elim 0 (· + 1))
  | _, _ => []

/-! ## visits -/

/-- The rule of a construct, for switch clauses that lie `caseLevels` deeper
than their statement. -/
def ofConstruct (s : Source) (caseLevels : Int) (ancestors : List Node) (n : Node) :
    Construct → Draft Unit
  | .plain => pure ()
  | .program => program s n
  | .arrayList => arrayList s n
  | .objectList => objectList s n
  | .block => block s n
  | .staticBlock => staticBlock s n
  | .sequence => sequence s n
  | .declaration => declaration s n
  | .declarator => declarator s n
  | .chain => chain s ancestors n
  | .ternary => ternary s ancestors n
  | .operand => operand s n
  | .yielding => yielding s n
  | .conditional => conditional s n
  | .headed => headed s n
  | .doLoop => doLoop s n
  | .forLoop => forLoop s n
  | .forInLoop => forInLoop s n
  | .switch => switch s caseLevels n
  | .clause => clause s n
  | .guarded => guarded s n
  | .handler => handler s n
  | .labeled => labeled s n
  | .jump => jump s n
  | .exit => exit s n
  | .function => function s n
  | .arrow => arrow s n
  | .method => method s n
  | .classDefinition => classDefinition s n
  | .fieldDefinition => fieldDefinition s n
  | .pair => pair s n
  | .member => access s n
  | .subscript => subscript s n
  | .metaProperty => metaProperty s n
  | .call => call s n
  | .creation => creation s n
  | .templateLiteral => templateLiteral s n
  | .importing => importing s n
  | .importSpecifier => importSpecifier s n
  | .aliased => aliased s n
  | .exporting => exporting s n

/-- The rules common to all statements and to all expressions. -/
def common (s : Source) (n : Node) : List Entry :=
  (if Construct.isStatementKind n.kind then trailingSemicolon s n else [])
    ++ (if Construct.isExpressionKind n.kind then wrappingParentheses s n else [])

/-- Visit a node; there is nothing to draft for a node without a rule. -/
def visit? (s : Source) (caseLevels : Int) (place : Node.Placed) : Option (Draft Unit) :=
  (Construct.ofKind? place.node.kind).map fun construct => do
    ofConstruct s caseLevels place.ancestors place.node construct
    write (common s place.node)

end ScriptIndent.Rule
