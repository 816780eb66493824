import ScriptIndent.Proofs.Stream.Span

/-!
# ScriptIndent.Proofs.Tree.Grammar

Grammatical trees: what the rules may expect of a tree.

A tree is *grammatical* (`Node.Grammatical`) if it is nested, every construct
below its root makes a code token, and each construct with a rule has the shape
that the grammar gives it (`Node.Shape`): the fields, keywords and delimiters
that the rule reads are there, in the order of the grammar.  Comments may stand
among the children anywhere, and so may anything that no rule reads.

1. A *part* is a construct under a field (`Node.IsPart`).
2. Parts, signs and keywords are listed in their order (`Node.InTurn`).
3. A list or a block is enclosed in its delimiters (`Node.Enclosed`).
-/

namespace ScriptIndent

namespace Node

/-! ## parts of a construct -/

/-- A construct that is no comment. -/
def IsCode (n : Node) : Prop := n.isNamed = true ∧ n.isComment = false

theorem mem_codeChildren {c n : Node} : c ∈ n.codeChildren ↔ c ∈ n.children ∧ c.IsCode := by
  simp only [codeChildren, namedChildren, IsCode, List.mem_filter, Bool.not_eq_true', and_assoc]

/-- A construct under a field. -/
def IsPart (n : Node) (name : String) (c : Node) : Prop :=
  n.field? name = some c ∧ c ∈ n.codeChildren

/-- Nodes that stand in this order among the children. -/
def InTurn (n : Node) (parts : List Node) : Prop := parts.Sublist n.children

/-- The children without the comments. -/
def parts (n : Node) : List Node := n.children.filter (!·.isComment)

/-- A compound node whose first and last child are its delimiters. -/
def Enclosed (b : Buffer) (n : Node) (left right : String) : Prop :=
  n.IsCompound ∧ ∃ opening inner closing, n.children = opening :: (inner ++ [closing]) ∧
    opening.Spells b left ∧ closing.Spells b right

/-- A keyword or a sign, however it is spelled. -/
def IsLexeme (b : Buffer) (n : Node) : Prop := ∃ value, n.Spells b value ∧ IsSpelling value

/-- The sign of an operation: a lexeme other than a closing parenthesis. -/
def IsOperator (b : Buffer) (n : Node) : Prop :=
  ∃ value, n.Spells b value ∧ IsSpelling value ∧ value ≠ ")"

/-- The sign of an access: a dot, or the sign of an optional one. -/
def IsLink (b : Buffer) (n : Node) : Prop :=
  n.Spells b "." ∨ n.kind = "optional_chain" ∧ n.IsCode ∧ n.children = []

/-- The first code token of a node is spelled in this way. -/
def Begins (b : Buffer) (n : Node) (value : String) : Prop :=
  ∃ p ps, (n.pieces b).filter (!·.isComment) = p :: ps ∧ b.text p.start p.stop = value

/-- A part of a literal, of which no rule is asked. -/
def IsLiteralPart (n : Node) : Prop :=
  Construct.ofKind? n.kind = none ∨
    n.children = [] ∧
      n.kind ∈ ["string_fragment", "escape_sequence", "regex_pattern", "regex_flags"]

/-- A keyword, something in parentheses under a field, and more behind it. -/
def HasHead (b : Buffer) (n : Node) (name : String) (more : List Node) : Prop :=
  ∃ keyword head, keyword.IsLexeme b ∧ n.IsPart name head ∧ head.Enclosed b "(" ")" ∧
    n.InTurn (keyword :: head :: more)

/-! ## the shapes of constructs -/

section Shapes

variable (b : Buffer) (n : Node)

/-- What is named in a string or a regular expression is a part of it. -/
def PlainShape : Prop := isAtomicKind n.kind = true → ∀ c ∈ n.codeChildren, c.IsLiteralPart

/-- The rest of a declarator with a value. -/
def DeclaratorShape : Prop :=
  ∀ value, n.field? "value" = some value →
    ∃ name equals, n.IsPart "name" name ∧ equals.Spells b "=" ∧ n.IsPart "value" value ∧
      n.InTurn [name, equals, value]

def ChainShape : Prop :=
  ∃ left operator right, n.IsPart "left" left ∧ operator.IsOperator b ∧
    n.IsPart "right" right ∧ n.InTurn [left, operator, right] ∧
    n.codeChildren.head? = some left

def TernaryShape : Prop :=
  ∃ condition question consequence colon alternative,
    n.IsPart "condition" condition ∧ question.Spells b "?" ∧
    n.IsPart "consequence" consequence ∧ colon.Spells b ":" ∧
    n.IsPart "alternative" alternative ∧
    n.InTurn [condition, question, consequence, colon, alternative]

/-- A sign before or behind one operand. -/
def OperandShape : Prop :=
  ∃ sign operand, sign.IsLexeme b ∧ operand ∈ n.codeChildren ∧
    (n.InTurn [sign, operand] ∨ n.InTurn [operand, sign])

/-- No operand begins with a star. -/
def YieldingShape : Prop :=
  n.codeChildren = [] ∨
    ∃ keyword operand, keyword.IsLexeme b ∧ operand ∈ n.codeChildren ∧
      ¬operand.Begins b "*" ∧ n.InTurn [keyword, operand]

def ConditionalShape : Prop :=
  ∃ consequence, n.IsPart "consequence" consequence ∧
    n.HasHead b "condition" (consequence :: (n.field? "alternative").toList) ∧
    ∀ alternative, n.field? "alternative" = some alternative →
      alternative ∈ n.codeChildren ∧ alternative.IsCompound

def HeadedShape : Prop :=
  ∃ name body, n.IsPart "body" body ∧ n.HasHead b name [body]

def DoLoopShape : Prop :=
  ∃ keyword body again condition, keyword.IsLexeme b ∧ n.IsPart "body" body ∧
    again.Spells b "while" ∧ n.IsPart "condition" condition ∧
    condition.Enclosed b "(" ")" ∧ n.InTurn [keyword, body, again, condition]

def ForLoopShape : Prop :=
  ∃ keyword left right body, keyword.IsLexeme b ∧ left.Spells b "(" ∧ right.Spells b ")" ∧
    n.IsPart "body" body ∧ n.InTurn [keyword, left, right, body]

def ForInLoopShape : Prop :=
  ∃ keyword left target word right body,
    keyword.IsLexeme b ∧ left.Spells b "(" ∧ n.IsPart "left" target ∧
    n.field? "operator" = some word ∧ word.IsOperator b ∧ right.Spells b ")" ∧
    n.IsPart "body" body ∧
    (∀ await, n.keyword? "await" = some await → await.Spells b "await") ∧
    n.InTurn (keyword :: ((n.keyword? "await").toList ++ [left, target, word, right, body]))

def SwitchShape : Prop :=
  ∃ body, n.IsPart "body" body ∧ body.Enclosed b "\x7b" "\x7d" ∧ n.HasHead b "value" [body]

/-- A clause with a value, or the default clause. -/
def ClauseShape : Prop :=
  ∃ keyword colon, keyword.IsLexeme b ∧ colon.Spells b ":" ∧
    (∀ value, n.field? "value" = some value → value ∈ n.codeChildren) ∧
    n.InTurn (keyword :: ((n.field? "value").toList ++ [colon]))

def GuardedShape : Prop :=
  (∃ body, n.IsPart "body" body) ∧
    (∀ handler, n.field? "handler" = some handler → handler ∈ n.codeChildren) ∧
    ∀ finalizer, n.field? "finalizer" = some finalizer →
      finalizer ∈ n.codeChildren ∧ finalizer.IsCompound ∧
        ∀ block, finalizer.field? "body" = some block → block ∈ finalizer.codeChildren

def HandlerShape : Prop :=
  ∃ keyword body, keyword.IsLexeme b ∧ n.IsPart "body" body ∧
    ∀ parameter, n.field? "parameter" = some parameter →
      parameter ∈ n.codeChildren ∧ ∃ left right, left.Spells b "(" ∧ right.Spells b ")" ∧
        n.InTurn [keyword, left, parameter, right, body]

def LabeledShape : Prop :=
  ∃ label colon body, label ∈ n.codeChildren ∧ colon.Spells b ":" ∧ body ∈ n.codeChildren ∧
    n.InTurn [label, colon, body]

/-- A jump to a label. -/
def JumpShape : Prop :=
  ∀ label, n.field? "label" = some label →
    label ∈ n.codeChildren ∧ ∃ keyword, keyword.IsLexeme b ∧ n.InTurn [keyword, label]

/-- An exit with an operand. -/
def ExitShape : Prop :=
  n.codeChildren = [] ∨
    ∃ keyword operand, keyword.IsLexeme b ∧ operand ∈ n.codeChildren ∧
      n.InTurn [keyword, operand]

def FunctionShape : Prop :=
  ∃ parameters body, n.IsPart "parameters" parameters ∧ parameters.Enclosed b "(" ")" ∧
    n.IsPart "body" body

/-- The parameters of an arrow function stand in parentheses, or there is one name;
nothing but a keyword comes before them. -/
def ArrowShape : Prop :=
  ∃ parameters sign body, parameters ∈ n.codeChildren ∧ sign.Spells b "=>" ∧
    n.IsPart "body" body ∧
    (n.parts = [parameters, sign, body] ∧ parameters.kind ≠ "async" ∨
      ∃ async, n.children.head? = some async ∧ async.Spells b "async" ∧
        n.parts = [async, parameters, sign, body]) ∧
    match n.field? "parameters" with
    | none => parameters.kind = "identifier" ∧ parameters.children = []
    | some list => list = parameters ∧ parameters.Enclosed b "(" ")"

def MethodShape : Prop :=
  ∃ key parameters body, n.IsPart "name" key ∧ n.IsPart "parameters" parameters ∧
    parameters.Enclosed b "(" ")" ∧ n.IsPart "body" body

/-- A member of an object or a class, with a value or without. -/
def MemberShape (name : String) : Prop :=
  ∃ key, n.IsPart name key ∧
    ∀ value, n.field? "value" = some value →
      value ∈ n.codeChildren ∧ n.InTurn [key, value]

/-- A class has a keyword and a body, and may have a name and a heritage. -/
def ClassShape : Prop :=
  ∃ keyword body, n.keyword? "class" = some keyword ∧ keyword.Spells b "class" ∧
    n.IsPart "body" body ∧ n.InTurn [keyword, body] ∧
    (∀ name, n.field? "name" = some name →
      name ∈ n.codeChildren ∧ n.InTurn [keyword, name]) ∧
    ∀ heritage, n.childOfKind? "class_heritage" = some heritage →
      heritage ∈ n.codeChildren ∧ n.InTurn [keyword, heritage, body]

def AccessShape : Prop :=
  ∃ object link property, n.IsPart "object" object ∧ link.IsLink b ∧
    n.IsPart "property" property ∧ n.InTurn [object, link, property]

def SubscriptShape : Prop :=
  ∃ object left index right, n.IsPart "object" object ∧ left.Spells b "[" ∧
    n.IsPart "index" index ∧ right.Spells b "]" ∧ n.InTurn [object, left, index, right]

/-- The arguments of a call, or the template that a tag is put before. -/
def CallShape : Prop :=
  ∀ arguments, n.field? "arguments" = some arguments →
    arguments ∈ n.codeChildren ∧
      (arguments.kind = "template_string" ∨ arguments.Enclosed b "(" ")") ∧
      ∃ callee, n.IsPart "function" callee ∧ n.InTurn [callee, arguments]

def CreationShape : Prop :=
  ∃ callee, n.IsPart "constructor" callee ∧
    ∀ arguments, n.field? "arguments" = some arguments →
      arguments ∈ n.codeChildren ∧ arguments.Enclosed b "(" ")" ∧
        n.InTurn [callee, arguments]

/-- The constructs in a template literal are substitutions or parts of it. -/
def TemplateShape : Prop :=
  n.HasToken b ∧
    ∀ c ∈ n.codeChildren, c.kind = "template_substitution" ∨ c.IsLiteralPart

/-- An import has a module, and the names of a clause stand in braces. -/
def ImportingShape : Prop :=
  ∃ keyword module, keyword.IsLexeme b ∧ n.IsPart "source" module ∧
    n.InTurn [keyword, module] ∧
    ∀ clause, n.childOfKind? "import_clause" = some clause →
      clause ∈ n.codeChildren ∧ clause.IsCompound ∧
        ∀ names ∈ clause.codeChildren, names.kind = "named_imports" →
          names.Enclosed b "\x7b" "\x7d"

/-- An export of a name of its own, of a declaration, of names in braces, or of all
that a module exports. -/
def ExportingShape : Prop :=
  ∃ keyword, n.keyword? "export" = some keyword ∧ keyword.Spells b "export" ∧
    (∀ target, n.field? "declaration" = some target ∨ n.field? "value" = some target →
      target ∈ n.codeChildren ∧ n.InTurn [keyword, target]) ∧
    (∀ word, n.keyword? "default" = some word → word.Spells b "default") ∧
    (∀ clause, n.childOfKind? "export_clause" = some clause →
      clause ∈ n.codeChildren ∧ clause.Enclosed b "\x7b" "\x7d" ∧
        n.InTurn [keyword, clause]) ∧
    ∀ module, n.field? "source" = some module →
      module ∈ n.codeChildren ∧
        match n.childOfKind? "export_clause", n.childOfKind? "namespace_export" with
        | some clause, _ => n.InTurn [clause, module]
        | none, none => ∃ word, word.Spells b "from" ∧ n.InTurn [keyword, word, module]
        | none, some names =>
          names ∈ n.codeChildren ∧ names.IsCompound ∧
            (∃ star word name, star.Spells b "*" ∧ word.Spells b "as" ∧
              names.parts = star :: word :: name) ∧
            ∃ word rest, word.Spells b "from" ∧
              n.parts = keyword :: names :: word :: module :: rest

/-- The shape that the grammar gives a construct. -/
def Shape : Construct → Prop
  | .plain => n.PlainShape
  | .program => True
  | .arrayList => n.Enclosed b "[" "]"
  | .objectList => n.Enclosed b "\x7b" "\x7d"
  | .block => n.Enclosed b "\x7b" "\x7d"
  | .staticBlock => ∃ body, n.IsPart "body" body
  | .sequence => n.codeChildren ≠ []
  | .declaration => n.codeChildren ≠ []
  | .declarator => n.DeclaratorShape b
  | .chain => n.ChainShape b
  | .ternary => n.TernaryShape b
  | .operand => n.OperandShape b
  | .yielding => n.YieldingShape b
  | .conditional => n.ConditionalShape b
  | .headed => n.HeadedShape b
  | .doLoop => n.DoLoopShape b
  | .forLoop => n.ForLoopShape b
  | .forInLoop => n.ForInLoopShape b
  | .switch => n.SwitchShape b
  | .clause => n.ClauseShape b
  | .guarded => n.GuardedShape
  | .handler => n.HandlerShape b
  | .labeled => n.LabeledShape b
  | .jump => n.JumpShape b
  | .exit => n.ExitShape b
  | .function => n.FunctionShape b
  | .arrow => n.ArrowShape b
  | .method => n.MethodShape b
  | .classDefinition => n.ClassShape b
  | .fieldDefinition => n.MemberShape "property"
  | .pair => n.MemberShape "key"
  | .member => n.AccessShape b
  | .subscript => n.SubscriptShape b
  | .metaProperty => n.HasToken b
  | .call => n.CallShape b
  | .creation => n.CreationShape b
  | .templateLiteral => n.TemplateShape b
  | .importing => n.ImportingShape b
  | .importSpecifier => n.HasToken b
  | .aliased => n.HasToken b
  | .exporting => n.ExportingShape b

end Shapes

/-- A tree of the shape that the grammar gives it. -/
structure Grammatical (b : Buffer) (root : Node) : Prop where
  nested : root.Nested
  bracketed : root.Bracketed
  /-- Every construct below the root makes a code token. -/
  hasToken : ∀ m : Node, m.Below root → m.IsCode → m.HasToken b
  /-- Every construct with a rule has its shape. -/
  shape : ∀ m : Node, m.Within root → m = root ∨ m.isNamed = true →
    ∀ construct, Construct.ofKind? m.kind = some construct → m.Shape b construct

end Node

end ScriptIndent
