import ScriptIndent.Decimal.Shortest
import ScriptIndent.Dictionary
import ScriptIndent.Text.Quoted

/-!
# ScriptIndent.Config.Value

The values that a configuration file can hold, and how messages show them.

A text is shown as it is, but as a quoted literal inside of a list or a
mapping.  A number with a fraction is shown with the fewest digits that read
back: with a point if it is at least a ten-thousandth and below 10^16, with an
exponent otherwise.
-/

namespace ScriptIndent

/-- A value in a configuration file. -/
inductive Value where
  | null
  | bool (b : Bool)
  | int (i : Int)
  | real (x : Float)
  | string (s : String)
  | list (items : List Value)
  | mapping (members : List (String × Value))
  deriving Inhabited

namespace Value

/-! ## numbers with a fraction -/

/-- Zeros. -/
def zeros (n : Nat) : String := String.ofList (List.replicate n '0')

/-- An exponent with its sign and at least two digits. -/
def exponentText (e : Int) : String :=
  let digits := toString e.natAbs
  "e" ++ (if e < 0 then "-" else "+") ++ zeros (2 - digits.length) ++ digits

/-- Digits with the point behind the first `point` of them. -/
def pointText (digits : String) (point : Int) : String :=
  if point ≤ 0 then "0." ++ zeros (-point).toNat ++ digits
  else
    let before := point.toNat
    if digits.length ≤ before then digits ++ zeros (before - digits.length) ++ ".0"
    else (digits.take before).toString ++ "." ++ (digits.drop before).toString

/-- Digits with an exponent; the point, if any, is behind the first. -/
def scientificText (digits : String) (point : Int) : String :=
  let rest := (digits.drop 1).toString
  (digits.take 1).toString ++ (if rest.isEmpty then "" else "." ++ rest) ++ exponentText (point - 1)

/-- A decimal as text. -/
def decimalText (d : Decimal) : String :=
  let digits := toString d.digits
  let point := digits.length + d.exponent
  if -4 < point ∧ point ≤ 16 then pointText digits point else scientificText digits point

/-- A number with a fraction as text. -/
def realText (x : Float) : String :=
  let sign (negative : Bool) := if negative then "-" else ""
  match Double.ofFloat x with
  | .notANumber => "nan"
  | .infinite negative => sign negative ++ "inf"
  | .finite negative none => sign negative ++ "0.0"
  | .finite negative (some d) => sign negative ++ decimalText d

/-! ## values -/

mutual

/-- A value inside of another one. -/
def literal : Value → String
  | .null => "None"
  | .bool b => if b then "True" else "False"
  | .int i => toString i
  | .real x => realText x
  | .string s => Text.quoted s
  | .list items => "[" ++ ", ".intercalate (literals items) ++ "]"
  | .mapping members => "\x7b" ++ ", ".intercalate (memberLiterals members) ++ "\x7d"

/-- The items of a list. -/
def literals : List Value → List String
  | [] => []
  | item :: rest => literal item :: literals rest

/-- The members of a mapping. -/
def memberLiterals : List (String × Value) → List String
  | [] => []
  | (key, value) :: rest => (Text.quoted key ++ ": " ++ literal value) :: memberLiterals rest

end

/-- A value as text. -/
def text : Value → String
  | .string s => s
  | v => v.literal

/-- A value that stands for nothing: null, false, zero, or an empty text, list
or mapping. -/
def isVoid : Value → Bool
  | .null => true
  | .bool b => !b
  | .int i => i == 0
  | .real x => x == 0
  | .string s => s.isEmpty
  | .list items => items.isEmpty
  | .mapping members => members.isEmpty

/-! ## merging -/

mutual

/-- A value laid over an older one: mappings are merged, and any other value
takes the place of the older one. -/
def laidOver (old : Option Value) : Value → Value
  | .mapping members =>
    match old with
    | some (.mapping base) => .mapping (mergeMembers base members)
    | _ => .mapping members
  | v => v

/-- Members laid over those of an older mapping. -/
def mergeMembers (base : Dictionary Value) : List (String × Value) → Dictionary Value
  | [] => base
  | (key, value) :: rest => mergeMembers (base.assign key (laidOver (base.get? key) value)) rest

end

/-- One mapping laid over another. -/
def merge (base override : Dictionary Value) : Dictionary Value := mergeMembers base override

end Value

end ScriptIndent
