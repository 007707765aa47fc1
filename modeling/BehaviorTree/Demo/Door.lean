import BehaviorTree.Demo.Stage

/-!
# A door

Ways into a room through a door that may be open, closed, locked or jammed, gentle ones first.
-/

namespace BehaviorTree.Demo.Door

/-- What is the case with a door. -/
structure Status where
  isOpen : Bool := false
  locked : Bool := true
  hasKey : Bool := false
  kickable : Bool := false
deriving DecidableEq

namespace Status

def ofName? : String → Option Status
  | "open" => some { isOpen := true, locked := false }
  | "closed" => some { locked := false }
  | "locked" => some { hasKey := true }
  | "kickable" => some { kickable := true }
  | "rock" => some {}
  | _ => none

/-- The status that the variables name; a door without one is jammed. -/
def current : Code Status := do
  let name ← Code.get "vars.doorStatus"
  return ((name.bind Value.asString?).bind ofName?).getD {}

end Status

def isSet (path : Path) : Code Bool := do
  return (← Code.get path).any Value.isTruthy

def mark (ok : Bool) : String :=
  if ok then "OK" else "FAILED"

def look : Code Value := do
  let isOpen ← isSet "vars.open"
  Code.print ("  door is " ++ (if isOpen then "" else "not ") ++ "open")
  return .bool isOpen

def pull : Code Value := do
  if !(← isSet "vars.locked") then Code.set "vars.open" (.bool true)
  Code.print ("  door.open() .... " ++ mark (← isSet "vars.open"))
  return .bool true

def unlock : Code Value := do
  if (← Status.current).hasKey then Code.set "vars.locked" (.bool false)
  Code.print ("  door.unlock() .. " ++ mark (!(← isSet "vars.locked")))
  return .bool true

def kick : Code Value := do
  if (← Status.current).kickable then
    Code.set "vars.locked" (.bool false)
    Code.set "vars.open" (.bool true)
  Code.print ("  door.kick() .... " ++ mark (← isSet "vars.open"))
  return .bool true

def say (line : String) : Code Value := do
  Code.print line
  return .bool true

def readInput (input : Value) : Code Value := do
  let name := ((input.get? "doorStatus").bind Value.asString?).getD ""
  match Status.ofName? name with
  | none =>
    Code.print ("unknown door status '" ++ name ++ "'")
    return .bool false
  | some status =>
    Code.print ("initial status is " ++ name)
    Code.set "vars.doorStatus" (.str name)
    Code.set "vars.open" (.bool status.isOpen)
    Code.set "vars.locked" (.bool status.locked)
    return .bool true

def door : Registry :=
  .ofList [
    ("isOpen", .boolean fun _ => look),
    ("open", .boolean fun _ => pull),
    ("unlock", .boolean fun _ => unlock),
    ("kick", .boolean fun _ => kick)]

def room : Registry :=
  .ofList [
    ("moveInto", .boolean fun _ => say "  room.moveInto()"),
    ("abandon", .boolean fun _ => say "  room.abandon()")]

def actions : Registry :=
  ((Registry.ofList [("readInput", .boolean readInput)]).mount "door" door).mount "room" room

/-- The tree as a text. -/
def text : String :=
  "\n".intercalate [
    "title: enter room",
    "actionType: boolean",
    "debug: false",
    "scope:",
    "  vars:",
    "    doorStatus: null",
    "    open: null",
    "    locked: null",
    "seq:",
    "  - readInput",
    "  - sel:",
    "      - title: get through the door",
    "        seq:",
    "          - sel:",
    "              - door.isOpen",
    "              - seq: [door.open, door.isOpen]",
    "              - seq: [door.unlock, door.open, door.isOpen]",
    "              - seq: [door.kick, door.isOpen]",
    "          - room.moveInto",
    "      - room.abandon",
    ""]

def lines : List String :=
  let stage := Stage.build (.text .yaml text) actions {} .notices
  let inputs := ["open", "closed", "locked", "kickable", "rock"].map fun name =>
    Value.ofPairs [("doorStatus", .str name)]
  stage.play (fun report outcome => report.printed ++ ["=> " ++ outcome.text, ""]) inputs

end BehaviorTree.Demo.Door
