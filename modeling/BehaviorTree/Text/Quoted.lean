import BehaviorTree.Text.Printable

/-!
# Texts between quotes

A text is shown between double quotes with a backslash before quotes and backslashes, short
escapes for the usual controls, and the code point in braces for a character that would not stand
alone.
-/

namespace BehaviorTree.Text

def escape (c : Char) : List Char :=
  if c = '\x00' then ['\\', '0']
  else if c = '\t' then ['\\', 't']
  else if c = '\r' then ['\\', 'r']
  else if c = '\n' then ['\\', 'n']
  else if c = '\\' || c = '"' then ['\\', c]
  else if standsAlone c then [c]
  else '\\' :: 'u' :: '\x7b' :: Nat.toDigits 16 c.toNat ++ ['\x7d']

def quoted (s : String) : String :=
  String.ofList ('"' :: s.toList.flatMap escape ++ ['"'])

end BehaviorTree.Text
