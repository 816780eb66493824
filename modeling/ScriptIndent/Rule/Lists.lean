import ScriptIndent.Rule.Draft

/-!
# ScriptIndent.Rule.Lists

Rules for programs, blocks, lists and declarations.

Each element of a delimited list is anchored to the opening delimiter, not to
the element before it; the closing delimiter is level with the opening one.
-/

namespace ScriptIndent.Rule

open Draft

/-- Top-level statements begin at the level of the script around them. -/
def program (s : Source) (n : Node) : Draft Unit :=
  each (fun statement => do
    let token ← first s statement
    write (Entry.starts [token] (s.baseLevel token))) n.codeChildren

/-- Array literals and patterns. -/
def arrayList (s : Source) (n : Node) : Draft Unit := do
  let left ← first s n
  elements s n.codeChildren left (s.lastOfNode? n Token.isClosingBracket) 1

/-- Object literals and patterns. -/
def objectList (s : Source) (n : Node) : Draft Unit := do
  let left ← first s n
  elements s n.codeChildren left (s.lastOfNode? n Token.isClosingBrace) 1

/-- Statement blocks and class bodies. -/
def block (s : Source) (n : Node) : Draft Unit := do
  let left ← first s n
  let right ← last s n
  elements s n.codeChildren left right 1

/-- Static blocks of classes: the braces are flush with the keyword. -/
def staticBlock (s : Source) (n : Node) : Draft Unit := do
  let body ← firstOf s (n.field? "body")
  let keyword ← first s n
  offset body 0 keyword

/-- Comma expressions: the operands are flush with the first. -/
def sequence (s : Source) (n : Node) : Draft Unit := do
  let left ← first s n
  elements s n.codeChildren left none 0

/-- Declarations of variables: the declarators are indented from the keyword. -/
def declaration (s : Source) (n : Node) : Draft Unit := do
  let keyword ← first s n
  elements s (n.codeChildren.filter (·.kind == "variable_declarator")) keyword none 1

/-- A declarator with a value: the equals sign and the value are indented from
the name. -/
def declarator (s : Source) (n : Node) : Draft Unit :=
  if (n.field? "value").isNone then pure ()
  else do
    let id ← first s n
    let name ← part .stop (n.field? "name")
    let equals ← require s n "`=`" (s.after? name)
    offsets (equals :: (s.after? equals).toList) 1 id

end ScriptIndent.Rule
