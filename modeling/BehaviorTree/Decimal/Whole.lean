/-!
# Decimal text of whole numbers

An integer is written with a minus sign if it is negative and without leading zeros.
-/

namespace BehaviorTree

def writeNat (n : Nat) : List Char :=
  Nat.toDigits 10 n

def writeInt (i : Int) : List Char :=
  if i < 0 then '-' :: writeNat i.natAbs else writeNat i.natAbs

end BehaviorTree
