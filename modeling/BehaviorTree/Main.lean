import BehaviorTree.Demo.Catalogue

/-!
# Command line

Shows the demos that are named on the command line.
-/

open BehaviorTree

/-- Shows one demo; the answer is whether there is one of that name. -/
def showDemo (name : String) : IO Bool := do
  match Demo.ofName? name with
  | some demo =>
    for line in demo.lines do
      IO.println line
    return true
  | none =>
    IO.eprintln ("no demo is called '" ++ name ++ "'")
    return false

def main (names : List String) : IO UInt32 := do
  let mut found := true
  for name in names do
    found := (← showDemo name) && found
  return if found then 0 else 1
