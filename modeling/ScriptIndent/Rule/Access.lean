import ScriptIndent.Rule.Draft

/-!
# ScriptIndent.Rule.Access

Rules for member access, calls and template literals.

The links of a chain of accesses and calls are all indented from the chain's
first token.
-/

namespace ScriptIndent.Rule

open Draft

/-- Access by name: the dot and the name are indented from the object. -/
def access (s : Source) (n : Node) : Draft Unit := do
  let object ← first s n
  let property ← part .start (n.field? "property")
  let dot ← require s n "`.`" (s.before? property)
  offsets (dot :: (s.after? dot).toList) 1 object

/-- Access by index: the brackets are indented from the object. -/
def subscript (s : Source) (n : Node) : Draft Unit := do
  let object ← first s n
  let index ← part .start (n.field? "index")
  let left ← require s n "`[`" (s.beforeWhere? Token.isOpeningBracket index)
  let right := s.afterWhere? Token.isClosingBracket index
  let accessed ← part .stop (n.field? "object")
  offsets (s.betweenWhere Token.isOptionalChain accessed left) 1 object
  offset left 1 object
  elements s [index] left right 1

/-- Meta properties: the second and the third token are indented. -/
def metaProperty (s : Source) (n : Node) : Draft Unit :=
  match s.tokensOf n with
  | word :: dot :: name :: _ => offsets [dot, name] 1 word
  | _ => pure ()

/-- Calls: the parenthesis is indented from the callee, and so is the template
of a tagged template. -/
def call (s : Source) (n : Node) : Draft Unit :=
  match n.field? "arguments" with
  | none => pure ()
  | some arguments =>
    if arguments.kind == "template_string" then do
      let token ← first s arguments
      let tag ← firstOf s (n.field? "function")
      offset token 1 tag
    else do
      let token ← first s n
      let left ← first s arguments
      let right ← last s arguments
      let callee ← part .stop (n.field? "function")
      offsets (s.betweenWhere Token.isOptionalChain callee left) 1 token
      offset left 1 token
      elements s arguments.codeChildren left right 1

/-- Creations: the constructor is indented from the keyword, the parenthesis
from the constructor. -/
def creation (s : Source) (n : Node) : Draft Unit := do
  let keyword ← first s n
  let constructed ← firstOf s (n.field? "constructor")
  offset constructed 1 keyword
  match n.field? "arguments" with
  | none => pure ()
  | some arguments => do
    let left ← first s arguments
    let right ← last s arguments
    offset left 1 constructed
    elements s arguments.codeChildren left right 1

/-- The first tokens of what substitutions put in. -/
def substitutedFirsts (s : Source) : List Node → Draft (List Token)
  | [] => pure []
  | substitution :: rest =>
    match s.firstOfNode? substitution with
    | none => fail (.damaged (.absent .stop))
    | some opening => do
      let tokens ← substitutedFirsts s rest
      pure ((s.after? opening).toList ++ tokens)

/-- Template literals: literal text behind a substitution is flush with the
first stretch, what the substitution puts in is indented. -/
def templateLiteral (s : Source) (n : Node) : Draft Unit := do
  let start ← first s n
  let substitutions := n.children.filter (·.kind == "template_substitution")
  let texts := substitutions.filterMap (s.lastOfNode? · Token.isAny)
  let tokens ← substitutedFirsts s substitutions
  offsets texts 0 start
  offsets tokens 1 start

end ScriptIndent.Rule
