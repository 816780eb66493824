import ScriptIndent.Proofs.Printed.Sketch

/-!
# ScriptIndent.Proofs.Printed.Program

Programs in canonical layout.

```
if (x) {            the depth of a line is that of the statement, one more than that of the
  a;                line of a brace for the statements behind the brace, and again that of
} else {            the brace for the line with the brace that closes it
  switch (x) {
    case y:         clauses lie deeper than the brace by what is asked of them, and their
      b;            statements one deeper still
  }
}
```

A program is printed with one simple statement, opening line, label of a clause or closing
brace on a line (`Statement.lines`), indented in any way.  Its tree is that of the grammar
(`Statement.sketch`), over the same marks (`Statement.marks_sketch`), and each line has a
depth (`Statement.depths`).
-/

namespace ScriptIndent

open Bytes

/-- The blanks at the start of a line. -/
structure Margin where
  blanks : List UInt8
  isIndent : ∀ b ∈ blanks, isIndent b = true

namespace Margin

/-- The margin of a line below another. -/
def below (m : Margin) : List UInt8 := lineFeed :: m.blanks

theorem feeds_blanks (m : Margin) : feeds m.blanks = 0 := by
  rw [feeds, List.count_eq_zero]
  exact fun hmem => ne_lineFeed_of_isIndent (m.isIndent _ hmem) rfl

theorem feeds_below (m : Margin) : feeds m.below = 1 := by
  rw [below, feeds_cons, m.feeds_blanks]
  rfl

end Margin

/-! ## programs -/

mutual

/-- The statements of canonical programs.  The last margin of a form is that of the line of its
last closing brace. -/
inductive Statement where
  /-- `x;` -/
  | use (x : Name)
  /-- `if (x) { … }` -/
  | conditional (x : Name) (body : Body) (closing : Margin)
  /-- `if (x) { … } else { … }` -/
  | alternative (x : Name) (body : Body) (between : Margin) (other : Body) (closing : Margin)
  /-- `while (x) { … }` -/
  | loop (x : Name) (body : Body) (closing : Margin)
  /-- `function f() { … }` -/
  | function (f : Name) (body : Body) (closing : Margin)
  /-- `try { … } catch (e) { … }` -/
  | guarded (body : Body) (between : Margin) (e : Name) (handler : Body) (closing : Margin)
  /-- `switch (x) { case y: … }` -/
  | switch (x : Name) (clauses : Clauses) (closing : Margin)

/-- Statements, each with the margin of its first line. -/
inductive Body where
  | nil
  | cons (margin : Margin) (first : Statement) (rest : Body)

/-- The clauses `case x: …` of a switch statement. -/
inductive Clauses where
  | nil
  | cons (margin : Margin) (x : Name) (body : Body) (rest : Clauses)

end

/-- A program, which may end with a line feed. -/
structure Program where
  body : Body
  endsWithFeed : Bool

/-! ## the lines of a program -/

/-- A word and the blanks before it. -/
def Mark.word (gap : List UInt8) (value : String) (h : IsWord value := by decide) : Mark :=
  ⟨gap, .word ⟨value, h⟩⟩

def Mark.name (gap : List UInt8) (x : Name) : Mark := ⟨gap, .name x⟩

/-- ` (x)` -/
def headMarks (x : Name) : List Mark := [.word [space] "(", .name [] x, .word [] ")"]

/-- A closing brace at the start of a line. -/
def Margin.brace (m : Margin) : Mark := .word m.below "\x7d"

/-- ` \x7b` -/
def openingBrace : Mark := .word [space] "\x7b"

mutual

/-- The lines of a statement that stands behind some blanks. -/
def Statement.lines (gap : List UInt8) : Statement → List (List Mark)
  | .use x => [[.name gap x, .word [] ";"]]
  | .conditional x body closing =>
    (.word gap "if" :: headMarks x ++ [openingBrace]) :: body.lines ++ [[closing.brace]]
  | .alternative x body between other closing =>
    (.word gap "if" :: headMarks x ++ [openingBrace]) :: body.lines
      ++ [between.brace, .word [space] "else", openingBrace] :: other.lines
      ++ [[closing.brace]]
  | .loop x body closing =>
    (.word gap "while" :: headMarks x ++ [openingBrace]) :: body.lines ++ [[closing.brace]]
  | .function f body closing =>
    [.word gap "function", .name [space] f, .word [] "(", .word [] ")", openingBrace] :: body.lines
      ++ [[closing.brace]]
  | .guarded body between e handler closing =>
    [.word gap "try", openingBrace] :: body.lines
      ++ (between.brace :: .word [space] "catch" :: headMarks e ++ [openingBrace]) :: handler.lines
      ++ [[closing.brace]]
  | .switch x clauses closing =>
    (.word gap "switch" :: headMarks x ++ [openingBrace]) :: clauses.lines ++ [[closing.brace]]

/-- The lines of statements below a line. -/
def Body.lines : Body → List (List Mark)
  | .nil => []
  | .cons margin first rest => first.lines margin.below ++ rest.lines

/-- The lines of clauses below a line. -/
def Clauses.lines : Clauses → List (List Mark)
  | .nil => []
  | .cons margin x body rest =>
    [.word margin.below "case", .name [space] x, .word [] ":"] :: body.lines ++ rest.lines

end

/-- The lines of a program. -/
def Program.lines (p : Program) : List (List Mark) :=
  match p.body with
  | .nil => []
  | .cons margin first rest => first.lines margin.blanks ++ rest.lines

/-! ## the depths of lines -/

mutual

/-- The depth of each line of a statement at some depth, for clauses that lie `caseLevels`
deeper than their brace. -/
def Statement.depths (caseLevels depth : Int) : Statement → List Int
  | .use _ => [depth]
  | .conditional _ body _ => depth :: body.depths caseLevels (depth + 1) ++ [depth]
  | .alternative _ body _ other _ =>
    depth :: body.depths caseLevels (depth + 1) ++ depth :: other.depths caseLevels (depth + 1)
      ++ [depth]
  | .loop _ body _ => depth :: body.depths caseLevels (depth + 1) ++ [depth]
  | .function _ body _ => depth :: body.depths caseLevels (depth + 1) ++ [depth]
  | .guarded body _ _ handler _ =>
    depth :: body.depths caseLevels (depth + 1) ++ depth :: handler.depths caseLevels (depth + 1)
      ++ [depth]
  | .switch _ clauses _ => depth :: clauses.depths caseLevels (depth + caseLevels) ++ [depth]

/-- The depth of each line of statements at some depth. -/
def Body.depths (caseLevels depth : Int) : Body → List Int
  | .nil => []
  | .cons _ first rest => first.depths caseLevels depth ++ rest.depths caseLevels depth

/-- The depth of each line of clauses at some depth. -/
def Clauses.depths (caseLevels depth : Int) : Clauses → List Int
  | .nil => []
  | .cons _ _ body rest =>
    depth :: body.depths caseLevels (depth + 1) ++ rest.depths caseLevels depth

end

mutual

theorem Statement.length_depths (caseLevels depth : Int) (gap : List UInt8) :
    (st : Statement) → (st.depths caseLevels depth).length = (st.lines gap).length
  | .use _ => by simp [Statement.depths, Statement.lines]
  | .conditional _ body _ | .loop _ body _ | .function _ body _ => by
    simp [Statement.depths, Statement.lines, body.length_depths]
  | .alternative _ body _ other _ | .guarded body _ _ other _ => by
    simp [Statement.depths, Statement.lines, body.length_depths, other.length_depths]
  | .switch _ clauses _ => by simp [Statement.depths, Statement.lines, clauses.length_depths]

theorem Body.length_depths (caseLevels depth : Int) :
    (body : Body) → (body.depths caseLevels depth).length = body.lines.length
  | .nil => by simp [Body.depths, Body.lines]
  | .cons margin first rest => by
    simp [Body.depths, Body.lines, first.length_depths caseLevels depth margin.below,
      rest.length_depths]

theorem Clauses.length_depths (caseLevels depth : Int) :
    (clauses : Clauses) → (clauses.depths caseLevels depth).length = clauses.lines.length
  | .nil => by simp [Clauses.depths, Clauses.lines]
  | .cons _ _ body rest => by
    simp [Clauses.depths, Clauses.lines, body.length_depths, rest.length_depths]

end

/-! ## the tree of a program -/

/-- An expression in parentheses. -/
def headSketch (field : String) (x : Name) : Sketch :=
  .enclosed [field] ⟨"parenthesized_expression", by decide⟩ (.word [space] "(")
    [.leaf [] (.name [] x)] (.word [] ")")

/-- What stands in braces, the closing one at the start of a line. -/
def braces (fields : List String) (frame : Frame) (inner : List Sketch) (closing : Margin) :
    Sketch :=
  .enclosed fields frame openingBrace inner closing.brace

/-- A block of statements. -/
def block (fields : List String) (inner : List Sketch) (closing : Margin) : Sketch :=
  braces fields ⟨"statement_block", by decide⟩ inner closing

mutual

/-- A statement that stands behind some blanks and answers to some fields of its parent. -/
def Statement.sketch (fields : List String) (gap : List UInt8) : Statement → Sketch
  | .use x =>
    .node fields ⟨"expression_statement", by decide⟩ (.leaf [] (.name gap x))
      [.leaf [] (.word [] ";")]
  | .conditional x body closing =>
    .node fields ⟨"if_statement", by decide⟩ (.leaf [] (.word gap "if"))
      [headSketch "condition" x, block ["consequence"] (body.sketches []) closing]
  | .alternative x body between other closing =>
    .node fields ⟨"if_statement", by decide⟩ (.leaf [] (.word gap "if"))
      [headSketch "condition" x, block ["consequence"] (body.sketches []) between,
        .node ["alternative"] ⟨"else_clause", by decide⟩ (.leaf [] (.word [space] "else"))
          [block [] (other.sketches []) closing]]
  | .loop x body closing =>
    .node fields ⟨"while_statement", by decide⟩ (.leaf [] (.word gap "while"))
      [headSketch "condition" x, block ["body"] (body.sketches []) closing]
  | .function f body closing =>
    .node fields ⟨"function_declaration", by decide⟩ (.leaf [] (.word gap "function"))
      [.leaf ["name"] (.name [space] f),
        .enclosed ["parameters"] ⟨"formal_parameters", by decide⟩ (.word [] "(") []
          (.word [] ")"),
        block ["body"] (body.sketches []) closing]
  | .guarded body between e handler closing =>
    .node fields ⟨"try_statement", by decide⟩ (.leaf [] (.word gap "try"))
      [block ["body"] (body.sketches []) between,
        .node ["handler"] ⟨"catch_clause", by decide⟩ (.leaf [] (.word [space] "catch"))
          [.leaf [] (.word [space] "("), .leaf ["parameter"] (.name [] e),
            .leaf [] (.word [] ")"), block ["body"] (handler.sketches []) closing]]
  | .switch x clauses closing =>
    .node fields ⟨"switch_statement", by decide⟩ (.leaf [] (.word gap "switch"))
      [headSketch "value" x,
        braces ["body"] ⟨"switch_body", by decide⟩ clauses.sketches closing]

/-- Statements below a line, which answer to some fields of their parent. -/
def Body.sketches (fields : List String) : Body → List Sketch
  | .nil => []
  | .cons margin first rest => first.sketch fields margin.below :: rest.sketches fields

/-- Clauses below a line. -/
def Clauses.sketches : Clauses → List Sketch
  | .nil => []
  | .cons margin x body rest =>
    .node [] ⟨"switch_case", by decide⟩ (.leaf [] (.word margin.below "case"))
        (.leaf ["value"] (.name [space] x) :: .leaf [] (.word [] ":") :: body.sketches ["body"])
      :: rest.sketches

end

@[simp] theorem fields_headSketch (field : String) (x : Name) :
    (headSketch field x).fields = [field] := rfl

@[simp] theorem isNamed_headSketch (field : String) (x : Name) :
    (headSketch field x).isNamed = true := rfl

@[simp] theorem fields_braces (fields : List String) (frame : Frame) (inner : List Sketch)
    (closing : Margin) : (braces fields frame inner closing).fields = fields := rfl

@[simp] theorem isNamed_braces (fields : List String) (frame : Frame) (inner : List Sketch)
    (closing : Margin) : (braces fields frame inner closing).isNamed = true := rfl

@[simp] theorem fields_block (fields : List String) (inner : List Sketch) (closing : Margin) :
    (block fields inner closing).fields = fields := rfl

@[simp] theorem isNamed_block (fields : List String) (inner : List Sketch) (closing : Margin) :
    (block fields inner closing).isNamed = true := rfl

open Sketch in
@[simp] theorem marks_headSketch (field : String) (x : Name) :
    (headSketch field x).marks = headMarks x := by
  simp [headSketch, headMarks]

open Sketch in
@[simp] theorem marks_braces (fields : List String) (frame : Frame) (inner : List Sketch)
    (closing : Margin) :
    (braces fields frame inner closing).marks =
      openingBrace :: (marksOfAll inner ++ [closing.brace]) := by
  simp [braces]

open Sketch in
@[simp] theorem marks_block (fields : List String) (inner : List Sketch) (closing : Margin) :
    (block fields inner closing).marks =
      openingBrace :: (marksOfAll inner ++ [closing.brace]) := marks_braces _ _ _ _

mutual

/-- The marks of a statement are those of its lines. -/
theorem Statement.marks_sketch (fields : List String) (gap : List UInt8) :
    (st : Statement) → (st.sketch fields gap).marks = (st.lines gap).flatten
  | .use _ => by simp [Statement.sketch, Statement.lines]
  | .conditional _ body _ | .loop _ body _ | .function _ body _ => by
    simp [Statement.sketch, Statement.lines, body.marks_sketches]
  | .alternative _ body _ other _ | .guarded body _ _ other _ => by
    simp [Statement.sketch, Statement.lines, body.marks_sketches, other.marks_sketches, headMarks]
  | .switch _ clauses _ => by simp [Statement.sketch, Statement.lines, clauses.marks_sketches]

theorem Body.marks_sketches (fields : List String) :
    (body : Body) → Sketch.marksOfAll (body.sketches fields) = body.lines.flatten
  | .nil => by simp [Body.sketches, Body.lines]
  | .cons margin first rest => by
    simp [Body.sketches, Body.lines, first.marks_sketch fields margin.below, rest.marks_sketches]

theorem Clauses.marks_sketches :
    (clauses : Clauses) → Sketch.marksOfAll clauses.sketches = clauses.lines.flatten
  | .nil => by simp [Clauses.sketches, Clauses.lines]
  | .cons _ _ body rest => by
    simp [Clauses.sketches, Clauses.lines, body.marks_sketches, rest.marks_sketches]

end

namespace Program

variable (p : Program)

/-- The statements of a program. -/
def sketches : List Sketch :=
  match p.body with
  | .nil => []
  | .cons margin first rest => first.sketch [] margin.blanks :: rest.sketches []

theorem marks_sketches : Sketch.marksOfAll p.sketches = p.lines.flatten := by
  rw [sketches, lines]
  cases p.body with
  | nil => simp
  | cons margin first rest =>
    simp [first.marks_sketch [] margin.blanks, rest.marks_sketches]

/-- The text of a program: its lines, and the line feed at its end. -/
def text : Bytes :=
  (printed p.lines.flatten ++ if p.endsWithFeed then [lineFeed] else []).toArray

/-- The tree of a program.  It begins with the first statement, or at the end if there is
none. -/
def tree : Node where
  kind := "program"
  isNamed := true
  isMissing := false
  hasError := false
  fields := []
  start := ((p.sketches.head?.map fun k => k.gap.length).getD p.text.size : Nat)
  stop := p.text.size
  children := Sketch.placeAll 0 p.sketches

end Program

end ScriptIndent
