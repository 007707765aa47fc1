import BehaviorTree.Value
import BehaviorTree.Decimal.Layout
import BehaviorTree.Decimal.Whole

/-!
# Compact JSON

A value is written without blanks, keys in order. Only quotes, backslashes and controls are
escaped, and a float that is not finite is written as null.
-/

namespace BehaviorTree.Json

/-- The escape letter of a control that has one. -/
def shortEscape? (c : Char) : Option Char :=
  if c = '"' then some '"'
  else if c = '\\' then some '\\'
  else if c = '\x08' then some 'b'
  else if c = '\x0c' then some 'f'
  else if c = '\n' then some 'n'
  else if c = '\r' then some 'r'
  else if c = '\t' then some 't'
  else none

def hexDigit (n : Nat) : Char :=
  Nat.digitChar (n % 16)

def escape (c : Char) : List Char :=
  match shortEscape? c with
  | some e => ['\\', e]
  | none =>
    if c.toNat < 0x20 then ['\\', 'u', '0', '0', hexDigit (c.toNat / 16), hexDigit c.toNat]
    else [c]

def writeString (s : String) : List Char :=
  '"' :: s.toList.flatMap escape ++ ['"']

mutual

def write : Value → List Char
  | .null => "null".toList
  | .bool b => if b then "true".toList else "false".toList
  | .int i => writeInt i.toInt
  | .float x => (FloatLayout.json.write x).toList
  | .str s => writeString s
  | .list items => '[' :: writeItems items ++ [']']
  | .map entries => '\x7b' :: writeEntries entries ++ ['\x7d']

def writeItems : List Value → List Char
  | [] => []
  | [item] => write item
  | item :: rest => write item ++ ',' :: writeItems rest

def writeEntries : List (String × Value) → List Char
  | [] => []
  | [(key, value)] => writeString key ++ ':' :: write value
  | (key, value) :: rest => writeString key ++ ':' :: write value ++ ',' :: writeEntries rest

end

/-- The compact JSON text of a value. -/
def text (value : Value) : String :=
  String.ofList (write value)

end BehaviorTree.Json
