/-!
# The shortest decimal of a float

A finite float other than zero is a whole number times a power of two, and every real close
enough to it is read back as it. `Shortest.find` gives the decimal with the fewest digits among
those, and of the decimals with that many digits the nearest one.
-/

namespace BehaviorTree

/-- The number `coefficient * 10 ^ exponent`. -/
structure Decimal where
  coefficient : Nat
  exponent : Int
deriving DecidableEq, Inhabited

/-- The positive number `mantissa * 2 ^ exponent`, in a format in which the next smaller number is
half as far away as the next larger one if `atBoundary`. -/
structure Binary where
  mantissa : Nat
  exponent : Int
  atBoundary : Bool
deriving DecidableEq, Inhabited

namespace Binary

/-- The size of the double float with these bits. -/
def ofBits (bits : Nat) : Binary :=
  let fraction : Nat := bits % Nat.pow 2 52
  let field : Nat := bits / Nat.pow 2 52 % Nat.pow 2 11
  if field = 0 then ⟨fraction, -1074, false⟩
  else ⟨fraction + Nat.pow 2 52, (field : Int) - 1075, fraction = 0 && 1 < field⟩

end Binary

/-- A positive fraction with the two ends of an interval around it, over one denominator. -/
structure Rounding where
  low : Nat
  exact : Nat
  high : Nat
  denominator : Nat
  /-- Whether the ends belong to the interval. -/
  closed : Bool
deriving Inhabited

namespace Rounding

/-- The reals that are rounded to a binary number: up to half the way to its neighbours, the
middle included if the mantissa is even. -/
def ofBinary (b : Binary) : Rounding :=
  let scale := Nat.pow 2 (b.exponent - 2).toNat
  { low := (4 * b.mantissa - if b.atBoundary then 1 else 2) * scale
    exact := 4 * b.mantissa * scale
    high := (4 * b.mantissa + 2) * scale
    denominator := Nat.pow 2 (2 - b.exponent).toNat
    closed := b.mantissa % 2 = 0 }

/-- The same interval in units of `10 ^ exponent`. -/
def inUnits (r : Rounding) (exponent : Int) : Rounding :=
  let up := Nat.pow 10 (-exponent).toNat
  { r with
    low := r.low * up
    exact := r.exact * up
    high := r.high * up
    denominator := r.denominator * Nat.pow 10 exponent.toNat }

def contains (r : Rounding) (n : Nat) : Bool :=
  let scaled := n * r.denominator
  if r.closed then r.low ≤ scaled && scaled ≤ r.high else r.low < scaled && scaled < r.high

/-- Of the two whole numbers around the fraction, the one in the interval that is nearest. -/
def whole? (r : Rounding) : Option Nat :=
  let below := r.exact / r.denominator
  let above := below + 1
  match r.contains below, r.contains above with
  | true, false => some below
  | false, true => some above
  | false, false => none
  | true, true =>
    if 2 * (r.exact % r.denominator) < r.denominator then some below else some above

/-- The power of ten of the first digit of a fraction below one, counted from `start`. -/
def leadingBelow (denominator : Nat) : Nat → Nat → Int → Int
  | 0, _, start => start
  | fuel + 1, numerator, start =>
    if denominator ≤ numerator then start
    else leadingBelow denominator fuel (10 * numerator) (start - 1)

/-- The power of ten of the fraction's first digit. -/
def leading (r : Rounding) : Int :=
  if r.denominator ≤ r.exact then ((Nat.toDigits 10 (r.exact / r.denominator)).length : Int) - 1
  else leadingBelow r.denominator 400 r.exact 0

end Rounding

namespace Decimal

/-- Zeros at the end of the coefficient move into the exponent. -/
def trim : Nat → Decimal → Decimal
  | 0, d => d
  | fuel + 1, d =>
    if d.coefficient % 10 = 0 && d.coefficient ≠ 0 then
      trim fuel ⟨d.coefficient / 10, d.exponent + 1⟩
    else d

end Decimal

namespace Shortest

/-- The first grid of decimals, from coarse to fine, that has a point in the interval. -/
def search (r : Rounding) : Nat → Int → Option Decimal
  | 0, _ => none
  | fuel + 1, exponent =>
    match (r.inUnits exponent).whole? with
    | some n => some ⟨n, exponent⟩
    | none => search r fuel (exponent - 1)

/-- Seventeen digits are always enough for a double float. -/
def find (b : Binary) : Decimal :=
  let r := Rounding.ofBinary b
  match search r 17 r.leading with
  | some d => d.trim 20
  | none => ⟨b.mantissa, b.exponent⟩

end Shortest

end BehaviorTree
