import BehaviorTree.Outcome
import BehaviorTree.Request

/-!
# Actions

An action is called with an input and asks its scope for values as it goes. What it does is a
`Code`: data that names its next step and continues with the answer, so that the engine, and a
proof, can take it apart. The four conventions differ in how a call reports its outcome.
-/

namespace BehaviorTree

/-- How an action reports its outcome. -/
inductive Convention where
  | plain
  | boolean
  | promise
  | callback
deriving DecidableEq, Inhabited

namespace Convention

def all : List Convention := [plain, boolean, promise, callback]

def name : Convention → String
  | plain => "plain"
  | boolean => "boolean"
  | promise => "promise"
  | callback => "callback"

def ofName? (text : String) : Option Convention :=
  all.find? fun convention => convention.name = text

/-- The name with which the structure of an action shows its convention. -/
def label : Convention → String
  | plain => "Plain"
  | boolean => "Boolean"
  | promise => "Promise"
  | callback => "Callback"

theorem ofName?_name (convention : Convention) : ofName? convention.name = some convention := by
  cases convention <;> decide

end Convention

/-- A line that an action puts out: into the log or onto the standard output. -/
inductive Line where
  | log (text : String)
  | print (text : String)
deriving DecidableEq

/-- What an action does: steps, and in the end a result or a panic. It asks one scope only, its
own. -/
inductive Code (α : Type) where
  | done (result : α)
  | panic (message : String)
  | ask (request : Request Unit) (next : Option Value → Code α)
  | put (line : Line) (next : Unit → Code α)
  | sleep (milliseconds : Nat) (next : Unit → Code α)
  /-- Uses up the completion handle: with an outcome, or by dropping it. -/
  | complete (outcome : Option Outcome) (next : Unit → Code α)

namespace Code

variable {α β : Type}

def bind : Code α → (α → Code β) → Code β
  | done result, f => f result
  | panic message, _ => panic message
  | ask request next, f => ask request fun answer => (next answer).bind f
  | put line next, f => put line fun u => (next u).bind f
  | sleep ms next, f => sleep ms fun u => (next u).bind f
  | complete outcome next, f => complete outcome fun u => (next u).bind f

instance : Monad Code where
  pure := done
  bind := bind

def get (path : Path) : Code (Option Value) :=
  ask (.get path) done

def set (path : Path) (value : Value) : Code Unit :=
  ask (.set path value) fun _ => done ()

/-- Whether a request was answered with true. -/
def holds (request : Request Unit) : Code Bool :=
  ask request fun answer => done (answer.any Value.isTruthy)

def modify (path : Path) (body : Value → Update Unit) : Code (Option Value) :=
  ask (.modify path body) done

/-- Changes the value at a path by a function of it that gives the new value and a reply. -/
def update (path : Path) (f : Value → Value × Value) : Code (Option Value) :=
  modify path fun old => .finish (f old).1 (f old).2

def log (text : String) : Code Unit :=
  put (.log text) fun _ => done ()

def print (text : String) : Code Unit :=
  put (.print text) fun _ => done ()

def wait (milliseconds : Nat) : Code Unit :=
  sleep milliseconds done

def finish (outcome : Option Outcome) : Code Unit :=
  complete outcome done

end Code

/-- A callable leaf, under one of the four conventions. -/
inductive Action where
  /-- Succeeds with `ok` and fails with `error`. -/
  | plain (call : Value → Code (Except Value Value))
  /-- Gives a payload whose truth is the tag. -/
  | boolean (call : Value → Code Value)
  /-- Like a plain action, and may wait. -/
  | promise (call : Value → Code (Except Value Value))
  /-- Reports through a completion handle, during the call or from work that goes on after it. -/
  | callback (call : Value → Code (Option (Code Unit)))

instance : Inhabited Action := ⟨.plain fun v => .done (.ok v)⟩

namespace Action

def convention : Action → Convention
  | plain _ => .plain
  | boolean _ => .boolean
  | promise _ => .promise
  | callback _ => .callback

/-- The structural text of an action shows only its convention. -/
def inspect (action : Action) : String :=
  "Action \x7b action_type: " ++ action.convention.label ++ ", .. \x7d"

end Action

end BehaviorTree
