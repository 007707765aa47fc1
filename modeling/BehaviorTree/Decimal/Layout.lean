import BehaviorTree.Decimal.Shortest

/-!
# Writing floats

A float is written with the digits of its shortest decimal. A `FloatLayout` says where the
positional form ends, whether whole numbers keep a point, and how the exponent is signed; the
three texts that show floats differ in nothing else.
-/

namespace BehaviorTree

structure FloatLayout where
  /-- The powers of ten of the first digit that are written positionally; all if absent. -/
  positional : Option (Int × Int)
  /-- Whole numbers in positional form end in `.0`. -/
  keepsPoint : Bool
  /-- A positive exponent has a plus sign. -/
  signsExponent : Bool
  nan : String
  infinity : String
  negativeInfinity : String

namespace FloatLayout

/-- The text of a value: positional always. -/
def plain : FloatLayout := ⟨none, false, false, "NaN", "inf", "-inf"⟩

/-- The structure of a value: positional from `1e-4` to below `1e16`. -/
def structural : FloatLayout := ⟨some (-4, 15), true, false, "NaN", "inf", "-inf"⟩

/-- JSON: positional from `1e-5` to below `1e16`; what is not finite has no number. -/
def json : FloatLayout := ⟨some (-5, 15), true, true, "null", "null", "null"⟩

def isPositional (layout : FloatLayout) (power : Int) : Bool :=
  match layout.positional with
  | none => true
  | some (low, high) => low ≤ power && power ≤ high

/-- Digits with a point; `power` is the power of ten of the first digit. -/
def positionalDigits (layout : FloatLayout) (digits : List Char) (power : Int) : List Char :=
  if power < 0 then '0' :: '.' :: List.replicate (-power - 1).toNat '0' ++ digits
  else
    let whole := power.toNat + 1
    let padded := digits ++ List.replicate (whole - digits.length) '0'
    let fraction := padded.drop whole
    if fraction.isEmpty then padded ++ if layout.keepsPoint then ['.', '0'] else []
    else padded.take whole ++ '.' :: fraction

/-- One digit, a point and the others if there are any, and the exponent. -/
def exponentDigits (layout : FloatLayout) (digits : List Char) (power : Int) : List Char :=
  let exponent := (Nat.toDigits 10 power.natAbs)
  let sign := if power < 0 then ['-'] else if layout.signsExponent then ['+'] else []
  digits.take 1 ++ (if digits.length ≤ 1 then [] else '.' :: digits.drop 1) ++
    'e' :: sign ++ exponent

def finite (layout : FloatLayout) (d : Decimal) : List Char :=
  let digits := Nat.toDigits 10 d.coefficient
  let power := d.exponent + digits.length - 1
  if layout.isPositional power then layout.positionalDigits digits power
  else layout.exponentDigits digits power

def write (layout : FloatLayout) (x : Float) : String :=
  if x.isNaN then layout.nan
  else
    let bits := x.toBits.toNat
    let sign := if bits / Nat.pow 2 63 = 1 then "-" else ""
    if x.isInf then if x < 0 then layout.negativeInfinity else layout.infinity
    else if x == 0 then sign ++ (if layout.keepsPoint then "0.0" else "0")
    else sign ++ String.ofList (layout.finite (Shortest.find (Binary.ofBits (bits % Nat.pow 2 63))))

end FloatLayout

end BehaviorTree
