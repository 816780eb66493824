import ScriptIndent.Rule.Draft

/-!
# ScriptIndent.Rule.Control

Rules for control flow.

A body in braces is flush with its keyword, any other body is indented from it.
Parentheses are indented from the keyword before them, and the closing one is
flush with the opening one.
-/

namespace ScriptIndent.Rule

open Draft

/-- How deep a body lies that begins with a token. -/
def bodyLevels (t : Token) : Int := if t.isOpeningBrace then 0 else 1

/-- A body is placed relative to its keyword. -/
def body (s : Source) (n : Node) (keyword : Token) : Draft Unit := do
  let token ← first s n
  offset token (bodyLevels token) keyword

/-- If statements. -/
def conditional (s : Source) (n : Node) : Draft Unit :=
  match s.firsts n 2 with
  | [keyword, left] => do
    let consequence ← part .start (n.field? "consequence")
    let right := s.beforeWhere? Token.isClosingParen consequence
    offset left 1 keyword
    offsets right.toList 0 left
    body s consequence keyword
    match n.field? "alternative" with
    | none => pure ()
    | some alternative => do
      let other ← first s alternative
      offset other 0 keyword
      match alternative.codeChildren with
      | [] => pure ()
      | statement :: _ => body s statement other
  | tokens => fail (.damaged (.tooFewTokens tokens.length))

/-- While and with statements. -/
def headed (s : Source) (n : Node) : Draft Unit := do
  let keyword ← first s n
  let left ← require s n "`(`" (s.after? keyword)
  let statement ← part .start (n.field? "body")
  let right ← require s n "`)`" (s.beforeWhere? Token.isClosingParen statement)
  offset left 1 keyword
  offset right 0 left
  body s statement keyword

/-- Do statements: the second keyword is flush with the first. -/
def doLoop (s : Source) (n : Node) : Draft Unit := do
  let keyword ← first s n
  let statement ← part .stop (n.field? "body")
  let test ← require s n "`while`" (s.afterWhere? Token.isNotClosingParen statement)
  let condition ← part .start (n.field? "condition")
  let left ← first s condition
  let right ← last s condition
  body s statement keyword
  offset test 0 keyword
  offset left 1 test
  elements s condition.codeChildren left right 1

/-- For statements with three clauses. -/
def forLoop (s : Source) (n : Node) : Draft Unit := do
  let keyword ← first s n
  let left ← require s n "`(`" (s.after? keyword)
  let statement ← part .start (n.field? "body")
  let right ← require s n "`)`" (s.before? statement)
  offset left 1 keyword
  elements s (n.codeChildren.filter fun c => left.stop ≤ c.start && c.stop ≤ right.start)
    left right 1
  body s statement keyword

/-- The word between the variable and the collection of a for statement. -/
def forInWord (s : Source) (n : Node) : Draft Token :=
  match n.field? "operator" with
  | some operator => first s operator
  | none => do
    let left ← part .stop (n.field? "left")
    require s n "`in`/`of`" (s.afterWhere? Token.isNotClosingParen left)

/-- For statements over a collection. -/
def forInLoop (s : Source) (n : Node) : Draft Unit := do
  let keyword ← first s n
  let await ← keyword? s n "await"
  let left ← require s n "`(`" (s.after? (await.getD keyword))
  let target := s.after? left
  let word ← forInWord s n
  let statement ← part .start (n.field? "body")
  let right ← require s n "`)`" (s.before? statement)
  offsets await.toList 0 keyword
  offset left 1 keyword
  offsets target.toList 1 left
  write (Entry.offsets (word :: (s.after? word).toList) 1 target)
  offset right 0 left
  body s statement keyword

/-- Switch statements: the clauses lie `caseLevels` deeper than the brace. -/
def switch (s : Source) (caseLevels : Int) (n : Node) : Draft Unit := do
  let keyword ← first s n
  let value ← part .start (n.field? "value")
  let left ← first s value
  let right ← last s value
  let clauses ← part .start (n.field? "body")
  let leftBrace ← first s clauses
  let rightBrace ← last s clauses
  offset left 1 keyword
  elements s value.codeChildren left right 1
  offset leftBrace 0 keyword
  elements s clauses.codeChildren leftBrace rightBrace caseLevels

/-- The colon of a clause; the value and the colon are indented. -/
def clauseColon (s : Source) (n : Node) (keyword : Token) : Draft Token :=
  match n.field? "value" with
  | some value => do
    let colon ← require s n "`:`" (s.after? value)
    let token ← first s value
    offsets [token, colon] 1 keyword
    pure colon
  | none => do
    let colon ← require s n "`:`" (s.after? keyword)
    offset colon 1 keyword
    pure colon

/-- Clauses of a switch statement: the statements are indented, but a single
block is flush. -/
def clause (s : Source) (n : Node) : Draft Unit := do
  let keyword ← first s n
  let colon ← clauseColon s n keyword
  let statements := n.codeChildren.filter (colon.stop ≤ ·.start)
  let levels : Int :=
    match statements with
    | [only] => if only.kind == "statement_block" then 0 else 1
    | _ => 1
  each (fun statement => do offset (← first s statement) levels keyword) statements

/-- Try statements: all blocks and keywords are flush. -/
def guarded (s : Source) (n : Node) : Draft Unit := do
  let keyword ← first s n
  offset (← firstOf s (n.field? "body")) 0 keyword
  match n.field? "handler" with
  | none => pure ()
  | some handler => do offset (← first s handler) 0 keyword
  match n.field? "finalizer" with
  | none => pure ()
  | some finalizer => do
    let word ← first s finalizer
    match finalizer.field? "body" with
    | none => offset word 0 keyword
    | some block => do
      let brace ← first s block
      offsets [word, brace] 0 keyword

/-- Catch clauses. -/
def handler (s : Source) (n : Node) : Draft Unit := do
  let keyword ← first s n
  match n.field? "parameter" with
  | none => pure ()
  | some parameter => do
    let left ← require s n "`(`" (s.before? parameter)
    offset left 1 keyword
    elements s [parameter] left (s.after? parameter) 1
  offset (← firstOf s (n.field? "body")) 0 keyword

/-- Labelled statements: the colon and the statement are indented. -/
def labeled (s : Source) (n : Node) : Draft Unit := do
  let label ← first s n
  let colon ← require s n "`:`" (s.after? label)
  offsets (colon :: (s.after? colon).toList) 1 label

/-- Break and continue statements: the label is indented. -/
def jump (s : Source) (n : Node) : Draft Unit :=
  if (n.field? "label").isNone then pure ()
  else do
    let keyword ← first s n
    offsets (s.after? keyword).toList 1 keyword

/-- Return and throw statements: the operand is indented. -/
def exit (s : Source) (n : Node) : Draft Unit :=
  if n.codeChildren.isEmpty then pure ()
  else do
    let keyword ← first s n
    offsets (s.after? keyword).toList 1 keyword

end ScriptIndent.Rule
