import BehaviorTree.Decimal.Nearest
import BehaviorTree.Yaml.Scalar

/-!
# Plain scalars

What the text of a plain scalar stands for: nothing, a truth value, a number, or itself.
-/

namespace BehaviorTree.Yaml

/-- The meaning of a plain scalar. -/
inductive Plain where
  | null
  | bool (b : Bool)
  | integer (i : Int)
  | float (x : Float)
  | text
deriving Inhabited

namespace Plain

def isNull (text : String) : Bool :=
  text = "null" || text = "Null" || text = "NULL" || text = "~"

def bool? (text : String) : Option Bool :=
  if text = "true" || text = "True" || text = "TRUE" then some true
  else if text = "false" || text = "False" || text = "FALSE" then some false
  else none

/-- The value of a digit below some base. -/
def digit? (base : Nat) (c : Char) : Option Nat :=
  (hexValue? c).filter (· < base)

/-- At least one digit, and nothing else. -/
def digits? (base : Nat) (digits : List Char) : Option Nat :=
  if digits.isEmpty then none
  else digits.foldlM (fun n c => (digit? base c).map (base * n + ·)) 0

/-- A text of several digits that starts with a zero is no number. -/
def isPadded (digits : List Char) : Bool :=
  1 < digits.length && digits.head? = some '0' && digits.all Char.isDigit

/-- A whole number without its sign, in base ten or after the mark of another base. -/
def magnitude? : List Char → Option Nat
  | '0' :: 'x' :: digits => digits? 16 digits
  | '0' :: 'o' :: digits => digits? 8 digits
  | '0' :: 'b' :: digits => digits? 2 digits
  | digits => if isPadded digits then none else digits? 10 digits

/-- A whole number of up to 128 bits. -/
def integer? (text : String) : Option Int :=
  match text.toList with
  | '-' :: rest => ((magnitude? rest).filter (· ≤ Nat.pow 2 127)).map fun n => -(n : Int)
  | '+' :: rest => ((magnitude? rest).filter (· < Nat.pow 2 128)).map Int.ofNat
  | rest => ((magnitude? rest).filter (· < Nat.pow 2 128)).map Int.ofNat

/-- The exponent after the digits of a float; zero if there is none. -/
def exponent? : List Char → Option Int
  | [] => some 0
  | e :: rest =>
    if e = 'e' || e = 'E' then
      match rest with
      | '-' :: digits => (digits? 10 digits).map fun n => -(n : Int)
      | '+' :: digits => (digits? 10 digits).map Int.ofNat
      | digits => (digits? 10 digits).map Int.ofNat
    else none

/-- A decimal without sign: digits on at least one side of a point, and an exponent. -/
def decimal? (text : List Char) : Option Decimal := do
  let (whole, rest) := text.span Char.isDigit
  let (fraction, rest) := match rest with
    | '.' :: rest => rest.span Char.isDigit
    | rest => ([], rest)
  let coefficient ← digits? 10 (whole ++ fraction)
  return ⟨coefficient, (← exponent? rest) - fraction.length⟩

def infinity : Float :=
  Float.ofBits Binary.infinityBits.toUInt64

def isInfinity (text : List Char) : Bool :=
  [".inf", ".Inf", ".INF"].any fun word => word.toList = text

/-- A float: a decimal, or one of the words for what is not finite. -/
def float? (text : String) : Option Float :=
  match text.toList with
  | '-' :: rest =>
    if isInfinity rest then some (-infinity)
    else ((decimal? rest).bind Decimal.toFloat?).map fun x => -x
  | '+' :: rest =>
    if isInfinity rest then some infinity else (decimal? rest).bind Decimal.toFloat?
  | rest =>
    if isInfinity rest then some infinity
    else if text = ".nan" || text = ".NaN" || text = ".NAN" then some (0 / 0)
    else (decimal? rest).bind Decimal.toFloat?

def unsigned : List Char → List Char
  | '-' :: rest => rest
  | '+' :: rest => rest
  | rest => rest

def ofText (text : String) : Plain :=
  if text = "" || isNull text then .null
  else match bool? text with
    | some b => .bool b
    | none =>
      match integer? text with
      | some i => .integer i
      | none =>
        if isPadded (unsigned text.toList) then .text
        else match float? text with
          | some x => .float x
          | none => .text

end Plain

end BehaviorTree.Yaml
