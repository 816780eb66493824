import ScriptIndent.Text.Blank
import ScriptIndent.Text.Digit

/-!
# ScriptIndent.Text.Integer

Whole numbers as people write them.

A number is a sign, if any, and decimal digits of any script.  A single low
line may stand between two digits, and white space around the number.  A number
of more than 4300 digits is not read.
-/

namespace ScriptIndent.Text

/-- White space that may surround a number; the four separators of the basic
alphabet are not among it. -/
def isNumberSpace (c : Char) : Bool := isBlank c && !(0x1C ≤ c.toNat && c.toNat ≤ 0x1F)

/-- A text without the space around a number. -/
def trimNumber (s : List Char) : List Char :=
  ((s.dropWhile isNumberSpace).reverse.dropWhile isNumberSpace).reverse

/-- The values of digits, with a low line between two of them left out. -/
def digitValues? : List Char → Option (List Nat)
  | [] => none
  | c :: rest =>
    match digitValue? c, rest with
    | none, _ => none
    | some d, [] => some [d]
    | some d, '_' :: rest => (digitValues? rest).map (d :: ·)
    | some d, rest => (digitValues? rest).map (d :: ·)

/-- The number with given decimal digits. -/
def ofDigits (digits : List Nat) : Nat := digits.foldl (fun n d => 10 * n + d) 0

/-- The most digits that are read. -/
def maxDigits : Nat := 4300

/-- The number without a sign that a text spells. -/
def natural? (s : List Char) : Option Nat :=
  ((digitValues? s).filter (·.length ≤ maxDigits)).map ofDigits

/-- The whole number that a text spells. -/
def integer? (s : String) : Option Int :=
  match trimNumber s.toList with
  | '-' :: rest => (natural? rest).map fun n => -(n : Int)
  | '+' :: rest => (natural? rest).map fun n => (n : Int)
  | rest => (natural? rest).map fun n => (n : Int)

end ScriptIndent.Text
