/-!
# ScriptIndent.Decimal.Shortest

The shortest decimal that reads back as a given binary number.

A positive double is `m · 2^q` for whole `m` and `q`.  The reals that round to
it form an interval around it; the ends belong to it when `m` is even.  The
shortest decimal in the interval is a multiple of the highest power of ten that
has a multiple there, and of several multiples the one nearest to the number.
The interval is narrower below a power of two, where doubles lie closer.

All numbers are counted in quarters of `2^q`, so that the ends are whole.
-/

namespace ScriptIndent

/-- A decimal `digits · 10^exponent`. -/
structure Decimal where
  digits : Nat
  exponent : Int
  deriving DecidableEq, Repr

/-- A binary number `quarters / 4 · 2^exponent`, with the interval of the reals
that round to it. -/
structure RoundingInterval where
  low : Nat
  quarters : Nat
  high : Nat
  /-- The ends belong to the interval. -/
  closed : Bool
  exponent : Int
  deriving DecidableEq, Repr

namespace RoundingInterval

/-- The interval around `m · 2^q`.  Below a power of two its lower half is half
as wide. -/
def around (m : Nat) (q : Int) (isPower : Bool) : RoundingInterval where
  low := if isPower then 4 * m - 1 else 4 * m - 2
  quarters := 4 * m
  high := 4 * m + 2
  closed := m % 2 == 0
  exponent := q

/-- Quarters of `2^q` per unit of `10^k`, as a fraction. -/
def unit (q k : Int) : Nat × Nat :=
  let shift := 2 - q
  (Nat.pow 10 k.toNat * Nat.pow 2 shift.toNat,
    Nat.pow 10 (-k).toNat * Nat.pow 2 (-shift).toNat)

/-- A number `n · 10^k`, times a denominator, lies in the interval. -/
def holds (i : RoundingInterval) (numerator denominator n : Nat) : Bool :=
  if i.closed then
    i.low * denominator ≤ n * numerator && n * numerator ≤ i.high * denominator
  else i.low * denominator < n * numerator && n * numerator < i.high * denominator

/-- The multiple of `10^k` in the interval that is nearest to the number; of two
equally near ones, the even one. -/
def multiple? (i : RoundingInterval) (k : Int) : Option Nat :=
  let (numerator, denominator) := unit i.exponent k
  let value := i.quarters * denominator
  let below := value / numerator
  let rest := value % numerator
  let nearer := if 2 * rest < numerator then [below, below + 1]
    else if numerator < 2 * rest then [below + 1, below]
    else if below % 2 == 0 then [below, below + 1]
    else [below + 1, below]
  nearer.find? fun n => n != 0 && i.holds numerator denominator n

/-- The shortest decimal in the interval, looked for at `steps` powers of ten
from `10^k` downward. -/
def shortestFrom (i : RoundingInterval) (k : Int) : Nat → Decimal
  | 0 => ⟨0, 0⟩
  | steps + 1 =>
    match i.multiple? k with
    | some n => ⟨n, k⟩
    | none => i.shortestFrom (k - 1) steps

end RoundingInterval

/-- The kinds of doubles. -/
inductive Double where
  | notANumber
  | infinite (negative : Bool)
  /-- A number, by its sign and the decimal for its size; none is zero. -/
  | finite (negative : Bool) (size : Option Decimal)
  deriving DecidableEq, Repr

/-- The number of doubles from one power of two to the next. -/
def Double.fractions : Nat := 0x10000000000000

/-- The double that a pattern of 64 bits stands for.  Above every double lies
`10^309`, and below every positive one `10^-325`. -/
def Double.ofBits (bits : Nat) : Double :=
  let negative := 0x8000000000000000 ≤ bits
  let level : Nat := bits / fractions % 2048
  let fraction := bits % fractions
  if level = 2047 then if fraction = 0 then .infinite negative else .notANumber
  else if level = 0 then
    if fraction = 0 then .finite negative none
    else
      let i := RoundingInterval.around fraction (-1074) false
      .finite negative (some (i.shortestFrom 309 635))
  else
    let isPower : Bool := fraction = 0 ∧ 1 < level
    let i := RoundingInterval.around (fractions + fraction) ((level : Int) - 1075) isPower
    .finite negative (some (i.shortestFrom 309 635))

/-- The kind of a floating-point number. -/
def Double.ofFloat (x : Float) : Double := .ofBits x.toBits.toNat

end ScriptIndent
