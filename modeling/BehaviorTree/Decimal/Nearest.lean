import BehaviorTree.Decimal.Shortest

/-!
# The float of a decimal

A decimal is read as the nearest double float, and of two that are equally near as the one with an
even mantissa.
-/

namespace BehaviorTree

namespace Binary

/-- A fraction rounded to a whole number, a half to the even neighbour. -/
def roundHalfEven (numerator denominator : Nat) : Nat :=
  let below := numerator / denominator
  let double := 2 * (numerator % denominator)
  if denominator < double || (double = denominator && below % 2 = 1) then below + 1 else below

/-- A fraction in units of a power of two. -/
def inPowers (numerator denominator : Nat) (power : Int) : Nat × Nat :=
  (numerator * Nat.pow 2 (-power).toNat, denominator * Nat.pow 2 power.toNat)

/-- The bits of the double float nearest to a positive fraction. One that is too large gives
bits from those of infinity on. -/
def nearestBits (numerator denominator : Nat) : Nat :=
  let estimate : Int := (Nat.log2 numerator : Int) - Nat.log2 denominator - 52
  let (n, d) := inPowers numerator denominator estimate
  let power := max (if n < d * Nat.pow 2 52 then estimate - 1 else estimate) (-1074)
  let (n, d) := inPowers numerator denominator power
  roundHalfEven n d + (power + 1074).toNat * Nat.pow 2 52

def infinityBits : Nat :=
  0x7ff * Nat.pow 2 52

end Binary

/-- The nearest double float; nothing if it is beyond the finite ones. -/
def Decimal.toFloat? (d : Decimal) : Option Float :=
  let size : Int := (Nat.toDigits 10 d.coefficient).length + d.exponent
  if d.coefficient = 0 || size < -330 then some 0
  else if 310 < size then none
  else
    let bits := Binary.nearestBits (d.coefficient * Nat.pow 10 d.exponent.toNat)
      (Nat.pow 10 (-d.exponent).toNat)
    if bits < Binary.infinityBits then some (Float.ofBits bits.toUInt64) else none

end BehaviorTree
