import BehaviorTree.Json.Document

/-!
# JSON numbers

A literal without fraction and exponent that fits 64 bits is an integer. Any other is read as a
float from its leading digits, as many as fit 64 bits, scaled once by a power of ten.
-/

namespace BehaviorTree.Json

inductive Number where
  | integer (i : Int)
  | float (x : Float)
deriving Inhabited

namespace NumberLiteral

def digitValue (c : Char) : Nat :=
  c.toNat - '0'.toNat

/-- Takes digits into a coefficient while it stays below `2 ^ 64`; the rest is left over. -/
def accumulate : Nat → List Char → Nat × List Char
  | n, [] => (n, [])
  | n, d :: ds =>
    let next := 10 * n + digitValue d
    if next < UInt64.size then accumulate next ds else (n, d :: ds)

/-- The leading digits of a literal as a coefficient, and the power of ten that goes with it. -/
def leading (literal : NumberLiteral) : Nat × Int :=
  match accumulate 0 literal.whole with
  | (n, []) =>
    let (m, left) := accumulate n literal.fraction
    (m, (left.length : Int) - literal.fraction.length)
  | (n, left) =>
    let (m, more) := accumulate n literal.fraction
    (m, (left.length : Int) + more.length - literal.fraction.length)

def powerOfTen (n : Nat) : Float :=
  Float.ofScientific 1 false n

/-- Divides by `10 ^ n` in steps that stay within the floats. -/
def divide : Nat → Float → Nat → Float
  | 0, x, _ => x
  | fuel + 1, x, n =>
    if n ≤ 308 then x / powerOfTen n
    else if x == 0 then x
    else divide fuel (x / powerOfTen 308) (n - 308)

/-- Scales by a power of ten; nothing if the result is too large. -/
def scale? (x : Float) (power : Int) : Option Float :=
  if power < 0 then some (divide 8 x power.natAbs)
  else if power ≤ 308 then
    let y := x * powerOfTen power.toNat
    if y.isInf then none else some y
  else if x == 0 then some x
  else none

def natOfDigits (ds : List Char) : Nat :=
  ds.foldl (fun n d => 10 * n + digitValue d) 0

/-- The number that a literal stands for; nothing if it is beyond the floats. -/
def read? (literal : NumberLiteral) : Option Number :=
  let signed (x : Float) := if literal.negative then -x else x
  let n := natOfDigits literal.whole
  if literal.fraction.isEmpty && literal.exponent.isNone && n < UInt64.size then
    if !literal.negative then some (.integer n)
    else if n = 0 || Nat.pow 2 63 < n then some (.float (-n.toUInt64.toFloat))
    else some (.integer (-n))
  else
    let (coefficient, power) := literal.leading
    let power := match literal.exponent with
      | none => some power
      | some (negative, ds) =>
        let e := natOfDigits ds
        if e < Nat.pow 2 31 then some (if negative then power - e else power + e)
        else if coefficient = 0 || negative then some (-1000)
        else none
    (power.bind (scale? coefficient.toUInt64.toFloat)).map fun x => .float (signed x)

end NumberLiteral

end BehaviorTree.Json
