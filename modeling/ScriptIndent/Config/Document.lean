import ScriptIndent.Config.Preferences
import ScriptIndent.Source.Buffer
import ScriptIndent.Text.Blank

/-!
# ScriptIndent.Config.Document

The text of a configuration file.

Preferences are written as two blocks, one for each section: the name of the
section with a colon, and below it, two columns to the right, a line for each
setting in alphabetical order.  `ofText?` reads texts of this form.  It takes
comments and empty lines, values outside of sections, and sections without
settings as well, and refuses everything else.
-/

namespace ScriptIndent.Document

/-! ## writing -/

def flagText (b : Bool) : String := if b then "true" else "false"

/-- The lines of the file that holds preferences. -/
def linesOf (p : Preferences) : List String := [
  "display:",
  "  format: " ++ p.format.name,
  "  symbols: " ++ p.symbols.name,
  "indent:",
  "  indent_script: " ++ flagText p.style.indentScript,
  "  indent_size: " ++ toString p.style.size,
  "  indent_type: " ++ p.style.unit.name,
  "  switch_case: " ++ toString p.style.caseLevels]

/-- The text of the file that holds preferences. -/
def ofPreferences (p : Preferences) : String := "\n".intercalate (linesOf p) ++ "\n"

/-- The bytes of the file that holds preferences. -/
def bytesOf (p : Preferences) : Bytes := Utf8.encode (ofPreferences p)

/-! ## values -/

/-- Digits as a number. -/
def digits? (s : List Char) : Option Nat :=
  if !s.isEmpty && s.all Char.isDigit then
    some (s.foldl (fun n c => 10 * n + (c.toNat - '0'.toNat)) 0)
  else none

/-- A number, with a fraction or without one. -/
def number? (s : List Char) : Option Value :=
  let negative := s.head? = some '-'
  let unsigned := if negative then s.drop 1 else s
  match digits? unsigned with
  | some n => some (.int (if negative then -(n : Int) else n))
  | none =>
    let decimals := (unsigned.dropWhile (· != '.')).drop 1
    match digits? (unsigned.takeWhile (· != '.')), digits? decimals with
    | some whole, some fraction =>
      let places := decimals.length
      let x := Float.ofScientific (whole * Nat.pow 10 places + fraction) true places
      some (.real (if negative then -x else x))
    | _, _ => none

/-- A text between quotes, in which neither the quote nor a backslash occurs. -/
def quoted? (s : List Char) : Option Value :=
  match s with
  | quote :: rest =>
    let inner := rest.dropLast
    if (quote == '"' || quote == '\'') && rest.getLast? == some quote
        && !inner.contains quote && !inner.contains '\\' then
      some (.string (String.ofList inner))
    else none
  | [] => none

/-- A character inside a word without quotes. -/
def isWordChar (c : Char) : Bool := c.isAlphanum || c == '_' || c == '-' || c == '.' || c == '/'

/-- A word without quotes. -/
def word? (s : List Char) : Option Value :=
  match s with
  | c :: rest =>
    if (c.isAlpha || c == '_') && rest.all isWordChar then some (.string (String.ofList s)) else none
  | [] => none

/-- The words that stand for something else. -/
def reserved : Dictionary Value := [
  ("null", .null), ("~", .null),
  ("true", .bool true), ("yes", .bool true), ("on", .bool true),
  ("false", .bool false), ("no", .bool false), ("off", .bool false)]

/-- The value that a text spells. -/
def value? (s : List Char) : Option Value :=
  (((reserved.get? (String.ofList s)).or (number? s)).or (quoted? s)).or (word? s)

/-! ## lines -/

/-- A line without its comment.  A number sign starts one at the start of a
line and after a space. -/
def withoutComment : List Char → List Char
  | [] => []
  | '#' :: _ => []
  | c :: rest => c :: behind c rest
where
  /-- The same behind a character. -/
  behind (before : Char) : List Char → List Char
    | [] => []
    | c :: rest => if c == '#' && before == ' ' then [] else c :: behind c rest

/-- A line that says something. -/
structure Line where
  /-- The line belongs to the section above it. -/
  indented : Bool
  key : String
  /-- The text behind the colon, if there is any. -/
  value : Option (List Char)
  deriving DecidableEq, Repr

/-- The line that a text spells. -/
def line? (s : List Char) : Option Line :=
  let margin := (s.takeWhile (· == ' ')).length
  let key := (s.drop margin).takeWhile (· != ':')
  let rest := (s.drop margin).dropWhile (· != ':')
  if (margin == 0 || margin == 2) && !key.isEmpty && key.all isWordChar then
    match rest with
    | [':'] => some ⟨margin == 2, String.ofList key, none⟩
    | ':' :: ' ' :: value => some ⟨margin == 2, String.ofList key, some (Text.strip value)⟩
    | _ => none
  else none

/-- The texts of the lines that say something. -/
def spoken (s : String) : List (List Char) :=
  ((s.toList.splitOn '\n').map fun line =>
    ((withoutComment line).reverse.dropWhile fun c => c == ' ' || c == '\r').reverse).filter
      (!·.isEmpty)

/-! ## reading -/

/-- The members read so far, and the section that is open. -/
structure Draft where
  members : Dictionary Value := []
  opened : Option String := none

/-- Put a value under a key of a section. -/
def within (members : Dictionary Value) (name key : String) (value : Value) : Dictionary Value :=
  match members.get? name with
  | some (.mapping inner) => members.assign name (.mapping (Dictionary.assign key value inner))
  | _ => members.assign name (.mapping [(key, value)])

/-- Take in a line. -/
def Draft.add (d : Draft) (line : Line) : Option Draft :=
  match line.indented, line.value, d.opened with
  | false, none, _ => some ⟨d.members.assign line.key .null, some line.key⟩
  | false, some text, _ => (value? text).map fun v => ⟨d.members.assign line.key v, none⟩
  | true, some text, some name =>
    (value? text).map fun v => { d with members := within d.members name line.key v }
  | true, none, some name => some { d with members := within d.members name line.key .null }
  | true, _, none => none

/-- The value that the text of a configuration file spells. -/
def ofText? (s : String) : Option Value := do
  let lines ← (spoken s).mapM line?
  let draft ← lines.foldlM Draft.add {}
  return if lines.isEmpty then .null else .mapping draft.members

end ScriptIndent.Document
