import BehaviorTree.Action
import BehaviorTree.Value.Text

/-!
# Scripts

A small language for actions. A script carries one value along, at first its input; a statement
computes with it, asks the scope, or ends the script with a success or a failure.
-/

namespace BehaviorTree

namespace Script

/-- What a branch depends on. -/
inductive Condition where
  | truthy
  /-- The value is a number below a bound. -/
  | below (bound : Float)
  | equals (value : Value)
  | variableTruthy (path : Path)
  | variableEquals (path : Path) (value : Value)

inductive Statement where
  | const (value : Value)
  /-- Adds to an integer; anything else counts as zero. -/
  | add (n : Int64)
  | field (path : Path)
  | put (path : Path) (value : Value)
  | text
  | truthy
  | get (path : Path)
  | has (path : Path)
  | set (path : Path)
  | setConst (path : Path) (value : Value)
  /-- Adds to the integer of a variable and leaves the value alone. -/
  | bump (path : Path) (n : Int64)
  /-- Adds the value to the list of a variable and goes on with the new length. -/
  | push (path : Path)
  | declares (name : String)
  | defines (name : String)
  | names
  | depth
  | log
  | logText (text : String)
  | succeed
  | fail
  | branch (condition : Condition) (holds fails : List Statement)
  | panic (message : String)
  | sleep (milliseconds : Int)
  /-- Sleeps for as many milliseconds as the value says. -/
  | sleepValue
  /-- Uses up the completion handle. -/
  | complete (success : Bool)
  | drop

/-- How far a script got: it goes on with a value, or it has ended. -/
inductive Flow where
  | next (value : Value)
  | ended (result : Except Value Value)

namespace Flow

/-- The result of a script; reaching the end is a success. -/
def result : Flow → Except Value Value
  | next value => .ok value
  | ended result => result

/-- The value of a script, however it ended. -/
def value (flow : Flow) : Value :=
  match flow.result with
  | .ok value => value
  | .error value => value

end Flow

def Condition.holds (value : Value) : Condition → Code Bool
  | truthy => pure value.isTruthy
  | below bound => pure (value.asFloat?.any (· < bound))
  | equals other => pure (value == other)
  | variableTruthy path => return (← Code.get path).any Value.isTruthy
  | variableEquals path other => return (← Code.get path).any (· == other)

/-- An integer plus a number; anything else counts as zero. -/
def plus (n : Int64) (value : Value) : Value :=
  .int (value.asInt?.getD 0 + n)

/-- A list with one more value, and its length; anything else stays and answers -1. -/
def pushed (value : Value) : Value → Value × Value
  | .list items => (.list (items ++ [value]), .int (Int64.ofNat (items.length + 1)))
  | other => (other, .int (-1))

/-- Waits where that is possible. -/
def pause (canWait : Bool) (milliseconds : Int) : Code Unit :=
  if canWait && 0 < milliseconds then Code.wait milliseconds.toNat else pure ()

mutual

def step (canWait : Bool) (v : Value) : Statement → Code Flow
  | .const value => pure (.next value)
  | .add n => pure (.next (plus n v))
  | .field path => pure (.next ((v.get? path).getD .null))
  | .put path value => pure (.next (v.insert path value))
  | .text => pure (.next (.str v.text))
  | .truthy => pure (.next (.bool v.isTruthy))
  | .get path => return .next ((← Code.get path).getD .null)
  | .has path => return .next (.bool (← Code.get path).isSome)
  | .set path => do
    Code.set path v
    return .next v
  | .setConst path value => do
    Code.set path value
    return .next v
  | .bump path n => do
    let _ ← Code.update path fun old => (plus n old, .null)
    return .next v
  | .push path => return .next ((← Code.update path (pushed v)).getD .null)
  | .declares name => return .next (.bool (← Code.holds (.declares name)))
  | .defines name => return .next (.bool (← Code.holds (.defines name)))
  | .names => Code.ask .names fun answer => .done (.next (answer.getD .null))
  | .depth => Code.ask .depth fun answer => .done (.next (answer.getD .null))
  | .log => do
    Code.log v.text
    return .next v
  | .logText text => do
    Code.log text
    return .next v
  | .succeed => pure (.ended (.ok v))
  | .fail => pure (.ended (.error v))
  | .branch condition thens elses => do
    if ← condition.holds v then steps canWait v thens else steps canWait v elses
  | .panic message => .panic message
  | .sleep ms => do
    pause canWait ms
    return .next v
  | .sleepValue => do
    pause canWait ((v.asInt?.getD 0).toInt)
    return .next v
  | .complete success => do
    Code.finish (some (if success then .success v else .failure v))
    return .next v
  | .drop => do
    Code.finish none
    return .next v

/-- Statements in order, up to one that ends the script. -/
def steps (canWait : Bool) (v : Value) : List Statement → Code Flow
  | [] => pure (.next v)
  | statement :: rest => do
    match ← step canWait v statement with
    | .next v => steps canWait v rest
    | ended => return ended

end

end Script

/-- An action in the language of scripts: what happens during a call, and what follows it. -/
structure Script where
  convention : Convention := .plain
  /-- What a promise or a callback does first. -/
  first : List Script.Statement := []
  /-- The rest; a callback may have none. -/
  body : Option (List Script.Statement) := none

namespace Script

/-- What a promise does after its first part. -/
def promise (script : Script) (input : Value) : Code (Except Value Value) := do
  match (← steps false input script.first).result with
  | .error value => return .error value
  | .ok value => return (← steps true value (script.body.getD [])).result

/-- The call of a callback, with the work that goes on after it if there is some. -/
def callback (script : Script) (input : Value) : Code (Option (Code Unit)) := do
  let result := (← steps false input script.first).result
  match result, script.body with
  | .ok value, some body =>
    return some do
      let result := (← steps true value body).result
      Code.finish (some (.ofExcept result))
  | _, _ =>
    Code.finish (some (.ofExcept result))
    return none

def action (script : Script) : Action :=
  let body := script.body.getD []
  match script.convention with
  | .plain => .plain fun input => return (← steps false input body).result
  | .boolean => .boolean fun input => return (← steps false input body).value
  | .promise => .promise script.promise
  | .callback => .callback script.callback

end Script

end BehaviorTree
