import BehaviorTree.Value
import BehaviorTree.Decimal.Layout
import BehaviorTree.Decimal.Whole
import BehaviorTree.Text.Quoted

/-!
# The texts of a value

`Value.text` is for people: texts stand between quotes as they are, and keys without quotes.
`Value.inspect` names each case and quotes texts and keys.
-/

namespace BehaviorTree.Value

/-- Items with a comma and a blank between them. -/
def commaSeparated (items : List String) : String :=
  ", ".intercalate items

mutual

def text : Value → String
  | null => "null"
  | bool b => if b then "true" else "false"
  | int i => String.ofList (writeInt i.toInt)
  | float x => FloatLayout.plain.write x
  | str s => "\"" ++ s ++ "\""
  | list items => "[" ++ commaSeparated (itemTexts items) ++ "]"
  | map entries => "\x7b" ++ commaSeparated (entryTexts entries) ++ "\x7d"

def itemTexts : List Value → List String
  | [] => []
  | item :: rest => text item :: itemTexts rest

def entryTexts : List (String × Value) → List String
  | [] => []
  | (key, value) :: rest => (key ++ ": " ++ text value) :: entryTexts rest

end

mutual

def inspect : Value → String
  | null => "Null"
  | bool b => if b then "Bool(true)" else "Bool(false)"
  | int i => "Int(" ++ String.ofList (writeInt i.toInt) ++ ")"
  | float x => "Float(" ++ FloatLayout.structural.write x ++ ")"
  | str s => "String(" ++ Text.quoted s ++ ")"
  | list items => "List([" ++ commaSeparated (itemInspections items) ++ "])"
  | map entries => "Map(\x7b" ++ commaSeparated (entryInspections entries) ++ "\x7d)"

def itemInspections : List Value → List String
  | [] => []
  | item :: rest => inspect item :: itemInspections rest

def entryInspections : List (String × Value) → List String
  | [] => []
  | (key, value) :: rest =>
    (Text.quoted key ++ ": " ++ inspect value) :: entryInspections rest

end

end BehaviorTree.Value
